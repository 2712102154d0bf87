import ModPackager.Json.Reader

/-!
# Packages

A project describes itself in a package document, of which a few fields matter. The document is an
object with these fields, or a list of them in a fixed order. Unknown fields are passed over; a known
field may occur once.
-/

namespace ModPackager

/-- The author of a package: one name, a list of names, or a person with a name. -/
inductive Author
  | one (name : String)
  | many (names : List String)
  | person (name : String)
deriving DecidableEq, Repr

/-- The names of an author field. -/
def Author.names : Author → List String
  | .one name => [name]
  | .many names => names
  | .person name => [name]

/-- What the packager reads of a project's package document. -/
structure Package where
  /-- The package name, also the mod's identifier. -/
  name : String
  displayName : Option String := none
  author : Option Author := none
  description : Option String := none
  version : Option String := none
  /-- The mod's dependencies, handed on as they are. -/
  dependencies : Option Json := none
  /-- The entry file in source form. -/
  main : String

namespace Package

open Json Reader

/-! ### Fields -/

/-- The fields that matter. -/
inductive Field
  | name
  | displayName
  | author
  | description
  | version
  | dependencies
  | main
deriving DecidableEq, Repr

/-- The key of a field. -/
def Field.key : Field → String
  | .name => "name"
  | .displayName => "displayName"
  | .author => "author"
  | .description => "description"
  | .version => "version"
  | .dependencies => "smod_deps"
  | .main => "main"

/-- The fields in the order of the list form. -/
def fields : List Field :=
  [.name, .displayName, .author, .description, .version, .dependencies, .main]

/-- The field with a given key. -/
def Field.ofKey? (key : String) : Option Field := fields.find? (·.key == key)

/-- The fields read so far; a field that was null is there and empty. -/
structure Draft where
  name : Option String := none
  displayName : Option (Option String) := none
  author : Option (Option Author) := none
  description : Option (Option String) := none
  version : Option (Option String) := none
  dependencies : Option (Option Json) := none
  main : Option String := none

/-- Whether a field was read. -/
def Draft.has (draft : Draft) : Field → Bool
  | .name => draft.name.isSome
  | .displayName => draft.displayName.isSome
  | .author => draft.author.isSome
  | .description => draft.description.isSome
  | .version => draft.version.isSome
  | .dependencies => draft.dependencies.isSome
  | .main => draft.main.isSome

/-! ### Values -/

/-- How deep brackets may nest inside a field, which stands inside a bracket itself. -/
def fieldDepth : Nat := maxDepth - 1

/-- The strings of a list that holds nothing else. -/
def strings? (items : List Json) : Option (List String) :=
  items.mapM fun
    | .string text => some text
    | _ => none

/-- The author that a value stands for: a string, a list of strings, or an object with one name. -/
def authorOf? : Json → Option Author
  | .string name => some (.one name)
  | .array items => Author.many <$> strings? items
  | .object members =>
    match members.filter (·.1 == "name") with
    | [(_, .string name)] => some (.person name)
    | _ => none
  | _ => none

/-- Reads an author. -/
def readAuthor : Reader Author := do
  match authorOf? (← value fieldDepth) with
  | some author => return author
  | none => fail (.noVariant "AuthorField")

/-- Reads any value, in which a repeated member counts once. -/
def readDependencies : Reader Json := Json.settle <$> value fieldDepth

/-- Reads the value of a field. -/
def Draft.readField (draft : Draft) : Field → Reader Draft
  | .name => do return { draft with name := some (← stringValue) }
  | .displayName => do return { draft with displayName := some (← optional stringValue) }
  | .author => do return { draft with author := some (← optional readAuthor) }
  | .description => do return { draft with description := some (← optional stringValue) }
  | .version => do return { draft with version := some (← optional stringValue) }
  | .dependencies => do return { draft with dependencies := some (← optional readDependencies) }
  | .main => do return { draft with main := some (← stringValue) }

/-! ### Documents -/

/-- The package of the fields that were read, with what to do about a missing one. -/
def Draft.finish (draft : Draft) (missing : Field → Reader Package) : Reader Package :=
  match draft.name, draft.main with
  | none, _ => missing .name
  | _, none => missing .main
  | some name, some main =>
    return {
      name, main
      displayName := draft.displayName.join
      author := draft.author.join
      description := draft.description.join
      version := draft.version.join
      dependencies := draft.dependencies.join }

/-- Reads the members of the object form, at most `fuel` of them. -/
def readMembers (draft : Draft) (first : Bool) : Nat → Reader Draft
  | 0 => return draft
  | fuel + 1 => do
    if ← moreMembers first then
      match Field.ofKey? (← key) with
      | some field =>
        if draft.has field then fail (.duplicateField field.key)
        else
          colon
          readMembers (← draft.readField field) false fuel
      | none =>
        colon
        skipValue
        readMembers draft false fuel
    else return draft

/-- The names of the two forms in messages. -/
def objectForm : String := "struct ProjectManifest"

/-- How messages describe the list form. -/
def listForm : String := objectForm ++ " with 7 elements"

/-- Reads the items of the list form; fields that are missing at its end are as good as null. -/
def readItems (draft : Draft) (first : Bool) : List Field → Reader Draft
  | [] => return draft
  | field :: rest => do
    if ← moreItems first then readItems (← draft.readField field) false rest
    else if field = .name || field = .main then
      fail (.wrongLength (fields.findIdx (· = field)) listForm)
    else readItems draft first rest

/-- Reads a package from its bracket on. -/
def readDocument : Reader Package := located do
  match ← peekValue with
  | none => failAhead .endInValue
  | some c =>
    if c == '{' then
      skip
      let fuel := (← get).length + 1
      enclosed (do
        let draft ← readMembers {} true fuel
        draft.finish fun field => fail (.missingField field.key)) objectEnd
    else if c == '[' then
      skip
      enclosed (do
        let draft ← readItems {} true fields
        draft.finish fun field => fail (.missingField field.key)) listEnd
    else wrongType objectForm

/-- The package of a document. -/
def parse (text : String) : Except Problem Package :=
  let reader : Reader Package := do
    let package ← readDocument
    documentEnd
    return package
  match reader text.toList with
  | .ok package _ => .ok package
  | .error problem _ => .error problem

end Package

end ModPackager
