import ModPackager.Patch.Descriptor

/-!
# Patch manifests

The loader reads patches from TOML documents. Both documents are laid out line by line; field values
and payloads are written as they are, without escapes.
-/

namespace ModPackager.Manifest

/-- The section that every manifest begins with. -/
def header : String := "[manifest]\nversion = \"1.0.0\""

/-- Three double quotes, which delimit a payload. -/
def payloadDelimiter : String := "\"\"\""

/-- One patch block. The indentation flag is written as `true` unless the scanned flag is honoured. -/
def renderPatch (honorMatchIndent : Bool) (descriptor : PatchDescriptor) : String :=
  let matchIndent := !honorMatchIndent || descriptor.matchIndent
  "\n\n[[patches]]"
    ++ "\n[patches." ++ descriptor.type ++ "]"
    ++ "\ntarget = \"" ++ descriptor.target ++ "\""
    ++ "\npattern = \"" ++ descriptor.pattern ++ "\""
    ++ "\nposition = \"" ++ descriptor.position ++ "\""
    ++ "\nmatch_indent = " ++ (if matchIndent then "true" else "false")
    ++ "\npayload = " ++ payloadDelimiter ++ descriptor.payload ++ payloadDelimiter ++ "\n"

/-- The manifest of scanned patches, one block for each descriptor in order. -/
def renderPatches (descriptors : List PatchDescriptor) (honorMatchIndent : Bool) : String :=
  header ++ String.join (descriptors.map (renderPatch honorMatchIndent))

/-- One block that appends a deployed script to the host's entry file. -/
def renderScript (file : String) : String :=
  "[[patches]]\n[patches.copy]\ntarget=\"main.lua\"\nsources=[\"extra_lua/" ++ file
    ++ "\"]\nposition=\"append\"\n"

/-- The manifest of deployed scripts in order. -/
def renderScripts (files : List String) : String :=
  header ++ "\n\n" ++ "\n".intercalate (files.map renderScript)

end ModPackager.Manifest
