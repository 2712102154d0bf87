import ModPackager.Toml.Lexeme
import ModPackager.Toml.Node

/-!
# Configuration documents

A document is read line by line: keys with values go into the table that the last header opened. A
text that breaks the grammar, names something twice or nests too deep is no document.
-/

namespace ModPackager.Toml

/-- How many parts a key may have, and how deep arrays and inline tables may nest. -/
def maxDepth : Nat := 79

/-! ### Keys and values -/

/-- Reads the parts of a key, at most `fuel` of them. -/
def keyParts : Nat → List Char → Option (List Key × List Char)
  | 0, _ => none
  | fuel + 1, text => do
    let start := dropGaps text
    let (name, rest) ← keyPart? start
    let key : Key := ⟨String.ofList name, ⟨start.length, rest.length⟩⟩
    match dropGaps rest with
    | '.' :: more => do
      let (keys, left) ← keyParts fuel more
      some (key :: keys, left)
    | left => some ([key], left)

/-- A dotted key: the tables that lead to a value, and the value's own name. -/
structure DottedKey where
  path : List Key
  key : Key

/-- Reads a dotted key. -/
def dottedKey? (text : List Char) : Option (DottedKey × List Char) := do
  let (keys, rest) ← keyParts maxDepth text
  some (⟨keys.dropLast, ← keys.getLast?⟩, rest)

/-- Drops gaps, line ends and comments, at most `fuel` of them. -/
def dropLines : Nat → List Char → Option (List Char)
  | 0, text => some text
  | fuel + 1, text =>
    let rest := dropGaps text
    match lineEnd? rest with
    | some left => dropLines fuel left
    | none =>
      match rest with
      | '#' :: _ => do dropLines fuel (← lineEnd? (dropComment rest))
      | _ => some rest

/-- Reads a value without parts. -/
def scalar? (text : List Char) : Option (Scalar × List Char) :=
  match string? text with
  | some (value, rest) => some (.string (String.ofList value), rest)
  | none =>
    match dateTime? text with
    | some rest => some (.dateTime, rest)
    | none =>
      match decimal? text with
      | some (value, rest) => some (.float value, rest)
      | none =>
        match special? text, integer? text, word? "true".toList text, word? "false".toList text with
        | some (value, rest), _, _, _ => some (.float value, rest)
        | _, some (value, rest), _, _ => some (.integer value, rest)
        | _, _, some rest, _ => some (.boolean true, rest)
        | _, _, _, some rest => some (.boolean false, rest)
        | _, _, _, _ => none

/-- A reader of values. -/
abbrev ValueReader := List Char → Option (Node × List Char)

/-- Reads the items of an array and its closing bracket, at most `fuel` items. -/
def arrayItems (value : ValueReader) : Nat → List Char → Option (List Node × List Char)
  | 0, _ => none
  | fuel + 1, text => do
    match ← dropLines (text.length + 1) text with
    | ']' :: rest => some ([], rest)
    | start => do
      let (node, rest) ← value start
      match ← dropLines (rest.length + 1) rest with
      | ',' :: more => do
        let (nodes, left) ← arrayItems value fuel more
        some (node :: nodes, left)
      | ']' :: left => some ([node], left)
      | _ => none

/-- Reads a key with its value. -/
def entry? (value : ValueReader) (text : List Char) :
    Option (DottedKey × Node × List Char) := do
  let (key, rest) ← dottedKey? text
  let (node, rest) ← value (dropGaps (← mark? '=' rest))
  some (key, node, rest)

/-- Reads the entries of an inline table and its closing brace, at most `fuel` entries. -/
def inlineEntries (value : ValueReader) (table : Opened) : Nat → List Char →
    Option (Opened × List Char)
  | 0, _ => none
  | fuel + 1, text => do
    let (key, node, rest) ← entry? value text
    let table ← table.insertAt key.path key.key node
    match dropGaps rest with
    | ',' :: more => inlineEntries value table fuel more
    | '}' :: left => some (table, left)
    | _ => none

/-- Reads a value, where `inner` reads the parts of one that has parts. -/
def valueWith (inner : Option ValueReader) : ValueReader := fun text =>
  let spanned (rest : List Char) : Span := ⟨text.length, rest.length⟩
  match text with
  | '[' :: after => do
    let (items, rest) ← arrayItems (← inner) (after.length + 1) after
    some (.array items (spanned rest), rest)
  | '{' :: after => do
    let value ← inner
    match dropGaps after with
    | '}' :: rest => some (.table .inline [] (some (spanned rest)), rest)
    | start => do
      let (table, rest) ← inlineEntries value ⟨.inline, []⟩ (start.length + 1) start
      some (.table .inline table.entries (some (spanned rest)), rest)
  | _ => do
    let (value, rest) ← scalar? text
    some (.scalar value (spanned rest), rest)

/-- Reads a value with at most `depth` brackets inside each other. -/
def value? : Nat → ValueReader
  | 0 => valueWith none
  | depth + 1 => valueWith (some (value? depth))

/-! ### Documents -/

/-- A document while it is read: the finished tables, and the table that takes keys now. -/
structure Draft where
  root : Opened
  /-- Where the open table belongs; the root table has no place. -/
  place : Option DottedKey
  /-- The open table came with a repeated header. -/
  repeated : Bool
  current : Opened
  span : Option Span

/-- A document without any text. -/
def Draft.empty : Draft where
  root := ⟨.header, []⟩
  place := none
  repeated := false
  current := ⟨.header, []⟩
  span := none

/-- Adds a value to the open table. -/
def Draft.insert (draft : Draft) (key : DottedKey) (node : Node) : Option Draft := do
  let span := match draft.span, node.span? with
    | some span, some added => some ⟨span.start, added.stop⟩
    | span, _ => span
  some { draft with current := ← draft.current.insertAt key.path key.key node, span }

/-- Closes the open table: it goes to its place. -/
def Draft.close (draft : Draft) : Option Opened :=
  match draft.place with
  | none => some draft.current
  | some place =>
    let node := Node.table draft.current.kind draft.current.entries draft.span
    draft.root.modifyAt false (fun parent => do
      let entries ←
        match draft.repeated, parent.entries.find? place.key.name with
        | true, some (.tables elements) =>
          some (parent.entries.set place.key (.tables (elements ++ [node])))
        | true, _ => parent.entries.insert? place.key (.tables [node])
        | false, _ => parent.entries.insert? place.key node
      some { parent with entries }) place.path

/-- Opens a table. A table that so far was only implied keeps its entries. -/
def Draft.openTable (draft : Draft) (key : DottedKey) (span : Span) : Option Draft := do
  let root ← (← draft.close).modifyAt false some key.path
  let parent ← root.at? key.path
  let entries ←
    match parent.entries.find? key.key.name with
    | none => some []
    | some (.table .implied entries _) => some entries
    | some _ => none
  let root ← root.modifyAt false
    (fun parent => some { parent with entries := parent.entries.erase key.key.name }) key.path
  some ⟨root, some key, false, ⟨.header, entries⟩, some span⟩

/-- Opens the next one of repeated tables. -/
def Draft.openRepeated (draft : Draft) (key : DottedKey) (span : Span) : Option Draft := do
  let root ← draft.close
  let root ← root.modifyAt false (fun parent =>
    match parent.entries.find? key.key.name with
    | none => some { parent with entries := parent.entries ++ [(key.key, .tables [])] }
    | some (.tables _) => some parent
    | some _ => none) key.path
  some ⟨root, some key, true, ⟨.header, []⟩, some span⟩

/-- Drops the rest of a line, which holds a comment at most. -/
def restOfLine? (text : List Char) : Option (List Char) :=
  match dropComment (dropGaps text) with
  | [] => some []
  | rest => lineEnd? rest

/-- Reads one line of a document, without gaps at its start. -/
def line? (draft : Draft) (text : List Char) : Option (Draft × List Char) :=
  match text with
  | '#' :: _ => do some (draft, ← restOfLine? text)
  | '[' :: '[' :: after => do
    let (key, rest) ← dottedKey? after
    match rest with
    | ']' :: ']' :: left => do
      let draft ← draft.openRepeated key ⟨text.length, left.length⟩
      some (draft, ← restOfLine? left)
    | _ => none
  | '[' :: after => do
    let (key, rest) ← dottedKey? after
    let left ← mark? ']' rest
    let draft ← draft.openTable key ⟨text.length, left.length⟩
    some (draft, ← restOfLine? left)
  | _ =>
    match lineEnd? text with
    | some left => some (draft, left)
    | none => do
      let (key, node, rest) ← entry? (value? maxDepth) text
      some (← draft.insert key node, ← restOfLine? rest)

/-- Reads lines up to the end of the text, at most `fuel` of them. -/
def lines (draft : Draft) : Nat → List Char → Option Draft
  | 0, _ => none
  | fuel + 1, text =>
    match dropGaps text with
    | [] => some draft
    | start => do
      let (draft, rest) ← line? draft start
      lines draft fuel rest

/-- Drops a byte order mark. -/
def dropMark : List Char → List Char
  | '\ufeff' :: rest => rest
  | text => text

/-- The entries of a document, if the text is one. -/
def parse (text : List Char) : Option Entries := do
  let draft ← lines Draft.empty (text.length + 1) (dropMark text)
  some (← draft.close).entries

end ModPackager.Toml
