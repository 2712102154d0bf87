/-!
# Configuration trees

A configuration document is a table of nodes, each with the stretch of text that it came from. A
table remembers how it came to be, since that decides who may still add to it: a table that only the
names of deeper ones brought about can be opened once, one made by dotted keys takes more dotted keys
only, and a written table is closed.
-/

namespace ModPackager.Toml

/-- A stretch of a text, each end given by the number of characters behind it. -/
structure Span where
  start : Nat
  stop : Nat
deriving DecidableEq, Repr

/-- A key and where it was written. -/
structure Key where
  name : String
  span : Span
deriving DecidableEq, Repr

/-- A value without parts. -/
inductive Scalar
  | string (text : String)
  | integer (value : Int)
  | float (value : Float)
  | boolean (value : Bool)
  /-- A date, a time or both. -/
  | dateTime

/-- How a table came to be. -/
inductive TableKind
  /-- Opened by a header of its own. -/
  | header
  /-- Named on the way to a deeper table. -/
  | implied
  /-- Made by dotted keys. -/
  | dotted
  /-- Written between braces. -/
  | inline
deriving DecidableEq, Repr

/-- A node of a configuration tree. -/
inductive Node
  | scalar (value : Scalar) (span : Span)
  /-- An array as written. -/
  | array (items : List Node) (span : Span)
  /-- Tables opened one after another by the same repeated header. -/
  | tables (elements : List Node)
  /-- A table; a table that no text stands for has no span. -/
  | table (kind : TableKind) (entries : List (Key × Node)) (span : Option Span)

/-- The entries of a table, in the order in which they were made. -/
abbrev Entries := List (Key × Node)

/-- A value without its places. -/
inductive Value
  | string (text : String)
  | integer (value : Int)
  | float (value : Float)
  | boolean (value : Bool)
  | dateTime
  | array (items : List Value)
  | table (entries : List (String × Value))

/-- The value of a scalar. -/
def Scalar.value : Scalar → Value
  | .string text => .string text
  | .integer n => .integer n
  | .float x => .float x
  | .boolean b => .boolean b
  | .dateTime => .dateTime

mutual

/-- The value of a node. -/
def Node.value : Node → Value
  | .scalar scalar _ => scalar.value
  | .array items _ => .array (valuesOf items)
  | .tables elements => .array (valuesOf elements)
  | .table _ entries _ => .table (entryValues entries)

/-- The values of nodes. -/
def valuesOf : List Node → List Value
  | [] => []
  | node :: rest => node.value :: valuesOf rest

/-- The entries of a table without their places. -/
def entryValues : List (Key × Node) → List (String × Value)
  | [] => []
  | (key, node) :: rest => (key.name, node.value) :: entryValues rest

end

/-- Where a node was written. -/
def Node.span? : Node → Option Span
  | .scalar _ span => some span
  | .array _ span => some span
  | .tables elements =>
    let span (node : Node) : Option Span :=
      match node with
      | .table _ _ span => span
      | _ => none
    match elements.head?.bind span, elements.getLast?.bind span with
    | some first, some last => some ⟨first.start, last.stop⟩
    | _, _ => none
  | .table _ _ span => span

/-! ### Entries -/

namespace Entries

/-- The node with a given name. -/
def find? (entries : Entries) (name : String) : Option Node :=
  (List.find? (fun entry => entry.1.name == name) entries).map (·.2)

/-- The entries without the one of a given name. -/
def erase (entries : Entries) (name : String) : Entries :=
  List.filter (fun entry => entry.1.name != name) entries

/-- Adds an entry, unless its name is taken. -/
def insert? (entries : Entries) (key : Key) (node : Node) : Option Entries :=
  if (entries.find? key.name).isSome then none else some (entries ++ [(key, node)])

/-- Puts a node in the place of the one with the same name, or last. -/
def set (entries : Entries) (key : Key) (node : Node) : Entries :=
  if (entries.find? key.name).isSome then
    List.map (fun entry => if entry.1.name == key.name then (entry.1, node) else entry) entries
  else entries ++ [(key, node)]

end Entries

/-- A table while its entries are being changed. -/
structure Opened where
  kind : TableKind
  entries : Entries

/-- Changes a node, taken as a table on the way to a deeper one; of repeated tables the last one is
meant. `dotted` says that dotted keys lead the way, which only pass tables without text of their
own. -/
def Node.modifyTable (dotted : Bool) (change : Opened → Option Opened) : Node → Option Node
  | .table kind entries span =>
    if kind = .inline || (dotted && kind = .header) then none
    else do
      let changed ← change ⟨kind, entries⟩
      some (.table changed.kind changed.entries span)
  | .tables elements =>
    match elements.getLast? with
    | some (.table kind entries span) => do
      let changed ← change ⟨kind, entries⟩
      some (.tables (elements.dropLast ++ [.table changed.kind changed.entries span]))
    | _ => none
  | _ => none

/-- Changes the table at the end of a path, making the tables on the way that are missing. -/
def Opened.modifyAt (dotted : Bool) (change : Opened → Option Opened) :
    List Key → Opened → Option Opened
  | [], table => change table
  | key :: path, table => do
    let found := (table.entries.find? key.name).getD
      (.table (if dotted then .dotted else .implied) [] none)
    let changed ← found.modifyTable dotted (Opened.modifyAt dotted change path)
    some { table with entries := table.entries.set key changed }

/-- The table at the end of a path; of repeated tables the last one is meant. -/
def Opened.at? : List Key → Opened → Option Opened
  | [], table => some table
  | key :: path, table =>
    match table.entries.find? key.name with
    | some (.table kind entries _) => Opened.at? path ⟨kind, entries⟩
    | some (.tables elements) =>
      match elements.getLast? with
      | some (.table kind entries _) => Opened.at? path ⟨kind, entries⟩
      | _ => none
    | _ => none

/-- Adds a value under a dotted key. A table on the way has to be made of dotted keys itself. -/
def Opened.insertAt (path : List Key) (key : Key) (node : Node) (table : Opened) : Option Opened :=
  table.modifyAt true (fun target =>
    if (target.kind = .dotted) = path.isEmpty then none
    else do
      some { target with entries := ← target.entries.insert? key node }) path

end ModPackager.Toml
