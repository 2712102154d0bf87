import ModPackager.Path
import ModPackager.Patch.Descriptor
import ModPackager.TypeScript.Module

/-!
# Annotated functions of a source file

A documentation block belongs to a named function at the top of a module when it leads the
declaration, or the function itself behind `export` and `default`. Each such block that names a patch
type gives one descriptor.
-/

namespace ModPackager

open TypeScript

namespace Scan

/-- The places whose comments document a function. -/
def documentedPlaces (start : Nat) (function : TopFunction) : List Nat :=
  if function.start == start then [start] else [start, function.start]

/-- The documentation blocks of a function, in order. -/
def documentation (module : Module) (start : Nat) (function : TopFunction) : List Comment :=
  ((documentedPlaces start function).flatMap module.leading).filter fun comment =>
    comment.block && DocComment.isDocumentation comment.text.toList

/-- The descriptors of one item. -/
def itemDescriptors (path : Path) (module : Module) (item : Item) : List PatchDescriptor :=
  match item.function with
  | none => []
  | some function =>
    match function.name with
    | none => []
    | some name =>
      (documentation module item.start function).filterMap fun comment =>
        (PatchDescriptor.ofTags? name (DocComment.parse comment.text)).map fun descriptor =>
          descriptor.located path.text (module.lineAt item.start)

/-- The descriptors of a module, in source order. -/
def moduleDescriptors (path : Path) (module : Module) : List PatchDescriptor :=
  module.items.flatMap (itemDescriptors path module)

/-- The lines of anonymous functions with documentation, which is ignored. -/
def ignoredLines (module : Module) : List Nat :=
  module.items.filterMap fun item =>
    match item.function with
    | some ⟨none, start⟩ =>
      if (documentation module item.start ⟨none, start⟩).isEmpty then none
      else some (module.lineAt item.start)
    | _ => none

/-- Whether sources of a given name may hold markup elements. -/
def holdsMarkup (path : Path) : Bool := path.extension? == some "tsx"

/-- Reads a source file as a module. -/
def parseSource (path : Path) (text : String) : Except Refusal Module :=
  Module.parse (holdsMarkup path) text

/-- The descriptors of a source file. -/
def source (path : Path) (text : String) : Except Refusal (List PatchDescriptor) :=
  (moduleDescriptors path) <$> parseSource path text

end Scan

end ModPackager
