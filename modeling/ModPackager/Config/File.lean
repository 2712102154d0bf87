import ModPackager.Toml.Decode

/-!
# The configuration file

A project may hold a configuration document. Every key of it is optional; at the top a key that means
nothing is an error, in the table of the compiler it is passed over.
-/

namespace ModPackager

open Toml

/-- How to run the compiler of auxiliary scripts. -/
structure CompilerSettings where
  /-- The program to run. -/
  program : String := "npx"
  /-- Its arguments, in which a placeholder stands for the auxiliary directory. -/
  args : List String := ["tstl", "-p", "$\x7baux_dir\x7d/tsconfig.json"]
  /-- How many seconds one run may take until its output is there. -/
  timeoutSecs : Nat := 120
  /-- The longest pause, in milliseconds, between two looks for the output. -/
  pollIntervalMs : Nat := 500
deriving DecidableEq, Repr

/-- What a configuration file sets. -/
structure ConfigFile where
  /-- The pattern of scanned sources. -/
  sources : Option String := none
  /-- The compiled build tree. -/
  buildDir : Option String := none
  /-- The auxiliary scripts. -/
  auxDir : Option String := none
  /-- Where to deploy. -/
  deployDir : Option String := none
  /-- The name of the host application. -/
  hostApp : Option String := none
  /-- Whether manifests keep the scanned indentation flags. -/
  honorMatchIndent : Option Bool := none
  /-- How to run the compiler. -/
  compiler : Option CompilerSettings := none
deriving DecidableEq, Repr

/-! ### The compiler's table -/

namespace CompilerSettings

/-- Decodes the program. -/
def withProgram (settings : CompilerSettings) (node : Node) : Decoded CompilerSettings := do
  return { settings with program := ← decodeText "a string" node }

/-- Decodes the arguments. -/
def withArgs (settings : CompilerSettings) (node : Node) : Decoded CompilerSettings := do
  return { settings with args := ← decodeTexts node }

/-- Decodes the time limit. -/
def withTimeout (settings : CompilerSettings) (node : Node) : Decoded CompilerSettings := do
  return { settings with timeoutSecs := ← decodeCount node }

/-- Decodes the longest pause. -/
def withPollInterval (settings : CompilerSettings) (node : Node) : Decoded CompilerSettings := do
  return { settings with pollIntervalMs := ← decodeCount node }

/-- The decoders of the fields, in the order in which a list gives them. -/
def fields : List (String × (CompilerSettings → Node → Decoded CompilerSettings)) :=
  [("program", withProgram), ("args", withArgs), ("timeout_secs", withTimeout),
    ("poll_interval_ms", withPollInterval)]

/-- Decodes one entry; one that means nothing changes nothing. -/
def decodeField (settings : CompilerSettings) (entry : Key × Node) : Decoded CompilerSettings :=
  match fields.lookup entry.1.name with
  | some decode => decodeEntry entry.1 entry.2 (decode settings)
  | none => .ok settings

/-- Decodes the settings: a table, or a list that gives the first fields in order. -/
def ofNode (node : Node) : Decoded CompilerSettings :=
  match node with
  | .table _ entries _ => entries.foldlM decodeField {}
  | .scalar .dateTime _ => .ok {}
  | _ =>
    match node.items? with
    | some items => (fields.zip items).foldlM (fun settings (field, item) => field.2 settings item) {}
    | none => wrongType node "struct CompilerConfig"

end CompilerSettings

/-! ### The file -/

namespace ConfigFile

/-- Decodes the pattern of sources. -/
def withSources (file : ConfigFile) (node : Node) : Decoded ConfigFile := do
  return { file with sources := some (← decodeText "a string" node) }

/-- Decodes the build directory. -/
def withBuildDir (file : ConfigFile) (node : Node) : Decoded ConfigFile := do
  return { file with buildDir := some (← decodeText "path string" node) }

/-- Decodes the auxiliary directory. -/
def withAuxDir (file : ConfigFile) (node : Node) : Decoded ConfigFile := do
  return { file with auxDir := some (← decodeText "path string" node) }

/-- Decodes the deploy root. -/
def withDeployDir (file : ConfigFile) (node : Node) : Decoded ConfigFile := do
  return { file with deployDir := some (← decodeText "path string" node) }

/-- Decodes the host's name. -/
def withHostApp (file : ConfigFile) (node : Node) : Decoded ConfigFile := do
  return { file with hostApp := some (← decodeText "a string" node) }

/-- Decodes whether scanned indentation flags count. -/
def withHonor (file : ConfigFile) (node : Node) : Decoded ConfigFile := do
  return { file with honorMatchIndent := some (← decodeFlag node) }

/-- Decodes the compiler's settings. -/
def withCompiler (file : ConfigFile) (node : Node) : Decoded ConfigFile := do
  return { file with compiler := some (← CompilerSettings.ofNode node) }

/-- The decoders of the fields. -/
def fields : List (String × (ConfigFile → Node → Decoded ConfigFile)) :=
  [("include", withSources), ("build_dir", withBuildDir), ("aux_dir", withAuxDir),
    ("deploy_dir", withDeployDir), ("host_app", withHostApp),
    ("honor_match_indent", withHonor), ("compiler", withCompiler)]

/-- Why a key is refused. -/
def unknownField (name : String) : String :=
  "unknown field `" ++ name ++ "`, expected one of "
    ++ ", ".intercalate (fields.map fun field => "`" ++ field.1 ++ "`")

/-- Decodes one entry. -/
def decodeField (file : ConfigFile) (entry : Key × Node) : Decoded ConfigFile :=
  match fields.lookup entry.1.name with
  | some decode => decodeEntry entry.1 entry.2 (decode file)
  | none => .error ⟨unknownField entry.1.name, some entry.1.span⟩

/-- Decodes the entries of a document. -/
def ofEntries (entries : Entries) : Decoded ConfigFile := entries.foldlM decodeField {}

/-- Why a document is not a configuration. -/
inductive Fault
  /-- It breaks the grammar. -/
  | malformed
  /-- It holds something unsuitable; the text shows where. -/
  | unsuitable (message : String)
deriving DecidableEq, Repr

/-- Reads a configuration document. -/
def parse (text : String) : Except Fault ConfigFile :=
  match Toml.parse text.toList with
  | none => .error .malformed
  | some entries =>
    match ofEntries entries with
    | .ok file => .ok file
    | .error mismatch => .error (.unsuitable (mismatch.message text.toList))

end ConfigFile

end ModPackager
