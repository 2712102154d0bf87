import ModPackager.Project.Package
import ModPackager.Text.Lines

/-!
# Mod metadata

The host's mod loader reads a metadata document that is derived from the package field by field:
absent fields stay absent, and the author is always a list.
-/

namespace ModPackager

open Text

/-- The metadata document of a mod. -/
structure Metadata where
  id : String
  name : Option String
  author : List String
  description : Option String
  /-- The name with hyphens replaced, usable in Lua names. -/
  modPrefix : String
  version : Option String
  dependencies : Option Json
  mainFile : String

/-- The name of a mod with each hyphen replaced by an underscore. -/
def modPrefixOf (name : String) : String := name.map fun c => if c == '-' then '_' else c

/-- The compiled name of a source file: a final `.ts` or `.js` becomes `.lua`. -/
def targetFileOf (file : String) : String :=
  match dropEnding? file ".ts" <|> dropEnding? file ".js" with
  | some stem => stem ++ ".lua"
  | none => file

namespace Metadata

/-- The metadata of a package. -/
def ofPackage (package : Package) : Metadata where
  id := package.name
  name := package.displayName
  author := (package.author.map Author.names).getD []
  description := package.description
  modPrefix := modPrefixOf package.name
  version := package.version
  dependencies := package.dependencies
  mainFile := targetFileOf package.main

/-- The file name of the document below the deploy root. -/
def fileName (metadata : Metadata) : String := metadata.id ++ ".json"

/-- The document as JSON, its keys in the loader's order. -/
def toJson (metadata : Metadata) : Json :=
  let optional (key : String) (value : Option Json) : List (String × Json) :=
    (value.map fun v => (key, v)).toList
  .object <|
    [("id", .string metadata.id)]
      ++ optional "name" (metadata.name.map .string)
      ++ [("author", Json.ofStrings metadata.author)]
      ++ optional "description" (metadata.description.map .string)
      ++ [("prefix", .string metadata.modPrefix)]
      ++ optional "version" (metadata.version.map .string)
      ++ optional "dependencies" metadata.dependencies
      ++ [("main_file", .string metadata.mainFile)]

/-- The text of the document. -/
def render (metadata : Metadata) : String := metadata.toJson.render

end Metadata

end ModPackager
