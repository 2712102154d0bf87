import ModPackager.DocComment.Tag

/-!
# Patch descriptors

A descriptor says where a host file is patched and which function the patch calls. It is the reading
of one documentation block: a repeated tag overrides its earlier values, except that each captured
local is kept. A block gives a descriptor exactly when it ends with a non-empty patch type.
-/

namespace ModPackager

/-- The tags that speak about patches. -/
inductive PatchTag
  /-- The host file to patch. -/
  | target
  /-- The text that locates the insertion point. -/
  | pattern
  /-- Before, after or at the located text. -/
  | position
  /-- The patch strategy. -/
  | type
  /-- Whether the payload takes over the indentation found there. -/
  | matchIndent
  /-- A local of the enclosing scope handed to the function. -/
  | captureLocal
  /-- Text before the generated call. -/
  | payloadBefore
  /-- Text after the generated call. -/
  | payloadAfter
deriving DecidableEq, Repr

/-- The patch tag written with a given name. -/
def PatchTag.ofName? : String → Option PatchTag
  | "lovelyTarget" => some .target
  | "lovelyPattern" => some .pattern
  | "lovelyPosition" => some .position
  | "lovelyType" => some .type
  | "lovelyMatchIndent" => some .matchIndent
  | "lovelyCaptureLocal" => some .captureLocal
  | "lovelyPayloadPrefix" => some .payloadBefore
  | "lovelyPayloadSuffix" => some .payloadAfter
  | _ => none

/-- One function's patch. -/
structure PatchDescriptor where
  /-- The function that the patch calls. -/
  functionName : String
  target : String := ""
  pattern : String := ""
  position : String := ""
  /-- The patch strategy, also the name of the manifest section. -/
  type : String := ""
  matchIndent : Bool := true
  /-- Captured locals in tag order, repetitions kept. -/
  locals : List String := []
  payloadBefore : Option String := none
  payloadAfter : Option String := none
  /-- The source file that declares the function. -/
  source : String := ""
  /-- The line of the declaration, counted from one. -/
  line : Nat := 0
deriving DecidableEq, Repr

namespace PatchDescriptor

/-- Removes one pair of double quotes around a text; a lone quote is a pair around nothing. -/
def stripQuotes (text : List Char) : List Char :=
  if text.head? == some '"' && text.getLast? == some '"' then text.tail.dropLast else text

/-- Records one tag. -/
def record (descriptor : PatchDescriptor) (tag : Tag) : PatchDescriptor :=
  match PatchTag.ofName? tag.name with
  | none => descriptor
  | some .target => { descriptor with target := tag.text }
  | some .pattern => { descriptor with pattern := tag.text }
  | some .position => { descriptor with position := tag.text }
  | some .type => { descriptor with type := tag.text }
  | some .matchIndent => { descriptor with matchIndent := tag.text == "true" }
  | some .captureLocal => { descriptor with locals := descriptor.locals ++ [tag.text] }
  | some .payloadBefore =>
    { descriptor with payloadBefore := some (String.ofList (stripQuotes tag.text.toList)) }
  | some .payloadAfter => { descriptor with payloadAfter := some tag.text }

/-- The descriptor of a function's documentation block, if the block names a patch type. -/
def ofTags? (functionName : String) (tags : List Tag) : Option PatchDescriptor :=
  let descriptor := tags.foldl record { functionName }
  if descriptor.type.isEmpty then none else some descriptor

/-- Attaches the place of the declaration. -/
def located (descriptor : PatchDescriptor) (source : String) (line : Nat) : PatchDescriptor :=
  { descriptor with source, line }

/-- The generated code: a call of the function on its captured locals. -/
def payload (descriptor : PatchDescriptor) : String :=
  descriptor.payloadBefore.getD "" ++ descriptor.functionName ++ "("
    ++ ", ".intercalate descriptor.locals ++ ")" ++ descriptor.payloadAfter.getD ""

/-- Names of the loader's fields that the block leaves empty. -/
def missingFields (descriptor : PatchDescriptor) : List String :=
  [("target", descriptor.target), ("pattern", descriptor.pattern),
    ("position", descriptor.position)].filterMap fun (name, value) =>
      if value.isEmpty then some name else none

end PatchDescriptor

end ModPackager
