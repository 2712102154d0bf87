import ModPackager.Proofs.Toml.Lexeme

/-!
# Reading a document with repeated tables

A document is followed line by line. `Leads` says that reading goes on with another draft and the rest of the
text, so the lines of a document compose and the bound on their number is dealt with once.

A block opens a repeated table, opens one table in it and enters keys there. Between two blocks only what the
draft would hold if it were closed matters (`Draft.Holds`), and not which table is open; so the first block,
which follows other tables, and every later one are the same step (`Draft.Holds.block`). Places in the text are
of no account, and everything is stated for the values of the nodes.
-/

namespace ModPackager.Toml

variable {text rest tail left name : List Char} {draft : Draft}

/-! ### What nodes and entries stand for -/

theorem valuesOf_append (a b : List Node) : valuesOf (a ++ b) = valuesOf a ++ valuesOf b := by
  induction a with
  | nil => rfl
  | cons node a ih => simp [valuesOf, ih]

theorem entryValues_append (a b : Entries) : entryValues (a ++ b) = entryValues a ++ entryValues b := by
  induction a with
  | nil => rfl
  | cons entry a ih =>
      obtain ⟨key, node⟩ := entry
      simp [entryValues, ih]

namespace Entries

variable {entries : Entries} {key key' : Key} {node node' : Node}

theorem find?_eq_none_iff {name : String} :
    entries.find? name = none ↔ name ∉ (entryValues entries).map Prod.fst := by
  induction entries with
  | nil => simp [find?, entryValues]
  | cons entry entries ih =>
      obtain ⟨key, node⟩ := entry
      by_cases hname : key.name = name
      · simp [find?, entryValues, hname]
      · simp only [find?, entryValues, List.map_cons, List.mem_cons] at ih ⊢
        simp [hname, Ne.symm hname, ih]

variable (hfresh : entries.find? key.name = none)

include hfresh

theorem find?_last (node : Node) : Entries.find? (entries ++ [(key, node)]) key.name = some node := by
  simp only [find?, Option.map_eq_none_iff] at hfresh
  simp [find?, List.find?_append, hfresh]

theorem set_last (hname : key'.name = key.name) :
    Entries.set (entries ++ [(key, node)]) key' node' = entries ++ [(key, node')] := by
  have hother : ∀ entry ∈ entries, ¬ (entry.1.name == key.name) = true := by
    simpa [find?] using hfresh
  rw [set, hname, find?_last hfresh node, Option.isSome_some, if_pos rfl, List.map_append,
    List.map_congr_left fun entry hentry => if_neg (hother entry hentry)]
  simp

theorem insert?_fresh : entries.insert? key node = some (entries ++ [(key, node)]) := by
  simp [insert?, hfresh]

end Entries

/-! ### Values -/

/-- What may follow a value in its line: the end of the text, or the next line. -/
def EndsLine (tail left : List Char) : Prop := (tail = [] ∧ left = []) ∨ tail = '\n' :: left

theorem EndsLine.head?_ne {c : Char} (h : EndsLine tail left) (hc : c ≠ '\n') : tail.head? ≠ some c := by
  rcases h with ⟨rfl, -⟩ | rfl
  · simp
  · simpa using Ne.symm hc

theorem restOfLine?_eq (h : EndsLine tail left) : restOfLine? tail = some left := by
  rcases h with ⟨rfl, rfl⟩ | rfl <;> rfl

/-- A text that is read as a value when it ends its line. -/
def Spells (text : List Char) (value : Value) : Prop :=
  ∀ tail left, EndsLine tail left →
    ∃ node, value? maxDepth (dropGaps (text ++ tail)) = some (node, tail) ∧ node.value = value

theorem valueWith_string (inner : Option ValueReader) {value : List Char}
    (h : string? ('"' :: text) = some (value, rest)) :
    ∃ node, valueWith inner ('"' :: text) = some (node, rest) ∧ node.value = .string (String.ofList value) := by
  refine ⟨.scalar (.string (String.ofList value)) ⟨('"' :: text).length, rest.length⟩, ?_, rfl⟩
  simp [valueWith, scalar?, h]

theorem valueWith_quoted (inner : Option ValueReader) (h : Quotable text) (hrest : rest.head? ≠ some '"') :
    ∃ node, valueWith inner ('"' :: (text ++ '"' :: rest)) = some (node, rest)
      ∧ node.value = .string (String.ofList text) :=
  valueWith_string inner (string?_quoted h hrest)

theorem value?_maxDepth : value? maxDepth = valueWith (some (value? 78)) := rfl

theorem dropGaps_quote : dropGaps ('"' :: text) = '"' :: text := rfl

theorem spells_quoted (h : Quotable text) : Spells ('"' :: (text ++ ['"'])) (.string (String.ofList text)) := by
  intro tail left hline
  have hread := valueWith_quoted (some (value? 78)) h (hline.head?_ne (c := '"') (by decide))
  simpa [value?_maxDepth, dropGaps_quote] using hread

theorem spells_block (h : Blockable text) (hfeed : text.head? ≠ some '\n') :
    Spells ("\"\"\"".toList ++ (text ++ "\"\"\"".toList)) (.string (String.ofList text)) := by
  intro tail left hline
  have hread := valueWith_string (some (value? 78))
    (string?_block h hfeed (hline.head?_ne (c := '"') (by decide)))
  simpa [value?_maxDepth, dropGaps_quote] using hread

theorem spells_boolean (b : Bool) : Spells (if b then "true" else "false").toList (.boolean b) := by
  intro tail left hline
  refine ⟨.scalar (.boolean b) ⟨((if b then "true" else "false").toList ++ tail).length, tail.length⟩, ?_, rfl⟩
  cases b <;> rfl

/-- An array of one string. -/
theorem spells_array (h : Quotable text) :
    Spells ('[' :: '"' :: (text ++ ['"', ']'])) (.array [.string (String.ofList text)]) := by
  intro tail left hline
  have hnext : (']' :: tail).head? ≠ some '"' := by simp
  obtain ⟨node, hnode, hvalue⟩ := valueWith_quoted (some (value? 77)) h hnext
  generalize hitem : '"' :: (text ++ '"' :: ']' :: tail) = item at hnode
  have hstart : ∀ fuel, dropLines (fuel + 1) item = some item := fun fuel => hitem ▸ rfl
  have hstop : ∀ fuel, dropLines (fuel + 1) (']' :: tail) = some (']' :: tail) := fun fuel => rfl
  have hitems : arrayItems (value? 78) (item.length + 1) item = some ([node], tail) := by
    have hvalue : value? 78 item = some (node, ']' :: tail) := hnode
    rw [arrayItems, hstart]
    subst hitem
    simp [hvalue, hstop]
  have htext : dropGaps ('[' :: '"' :: (text ++ ['"', ']']) ++ tail) = '[' :: item := by
    simp [dropGaps, isGap, ← hitem]
  refine ⟨.array [node] ⟨('[' :: item).length, tail.length⟩, ?_, by simp [Node.value, valuesOf, hvalue]⟩
  rw [htext, value?_maxDepth, valueWith]
  simp [hitems]

/-! ### Following a document -/

/-- Reading comes from one draft and text to another. -/
def Leads (draft : Draft) (text : List Char) (draft' : Draft) (rest : List Char) : Prop :=
  ∀ fuel, text.length < fuel → ∃ fuel', rest.length < fuel' ∧ lines draft fuel text = lines draft' fuel' rest

namespace Leads

variable {draft' draft'' : Draft}

theorem refl : Leads draft text draft text :=
  fun fuel hfuel => ⟨fuel, hfuel, rfl⟩

theorem trans (h : Leads draft text draft' rest) (h' : Leads draft' rest draft'' left) :
    Leads draft text draft'' left := by
  intro fuel hfuel
  obtain ⟨fuel', hfuel', hread⟩ := h fuel hfuel
  obtain ⟨fuel'', hfuel'', hread'⟩ := h' fuel' hfuel'
  exact ⟨fuel'', hfuel'', hread.trans hread'⟩

/-- One line that is not indented. -/
theorem line {c : Char} (hgap : isGap c = false) (hshort : rest.length ≤ text.length)
    (h : line? draft (c :: text) = some (draft', rest)) : Leads draft (c :: text) draft' rest := by
  intro fuel hfuel
  obtain ⟨fuel, rfl⟩ := Nat.exists_eq_add_of_lt hfuel
  refine ⟨(c :: text).length + fuel, by simp; omega, ?_⟩
  have hkept : dropGaps (c :: text) = c :: text := by simp [dropGaps, hgap]
  rw [lines, hkept]
  simp [h]

theorem blank : Leads draft ('\n' :: rest) draft rest :=
  line (by decide) le_rfl (by simp [line?, lineEnd?])

/-- A document that is followed to its end is what its last draft holds when it is closed. -/
theorem parse {root : Opened} (hmark : dropMark text = text) (h : Leads .empty text draft [])
    (hclose : draft.close = some root) : parse text = some root.entries := by
  obtain ⟨fuel, hfuel, hread⟩ := h (text.length + 1) (by simp)
  obtain ⟨fuel, rfl⟩ := Nat.exists_eq_add_of_lt hfuel
  rw [Toml.parse, hmark, hread, lines]
  simp [hclose, dropGaps]

end Leads

/-! ### Headers and keys -/

/-- What stands before a line's end in the header of a table. -/
theorem dottedKey?_single (h : BareKey name) (hrest : ∀ c ∈ rest.head?, isBare c = false)
    (hdot : (dropGaps rest).head? ≠ some '.') :
    ∃ key : Key, key.name = String.ofList name
      ∧ dottedKey? (name ++ rest) = some (⟨[], key⟩, dropGaps rest) := by
  obtain ⟨span, hparts⟩ := h.keyParts_last 78 hrest hdot
  refine ⟨⟨String.ofList name, span⟩, rfl, ?_⟩
  rw [dottedKey?, maxDepth, hparts]
  rfl

theorem dottedKey?_pair {first : List Char} (hfirst : BareKey first) (h : BareKey name)
    (hrest : ∀ c ∈ rest.head?, isBare c = false) (hdot : (dropGaps rest).head? ≠ some '.') :
    ∃ parent key : Key, parent.name = String.ofList first ∧ key.name = String.ofList name
      ∧ dottedKey? (first ++ '.' :: (name ++ rest)) = some (⟨[parent], key⟩, dropGaps rest) := by
  obtain ⟨span, hparts⟩ := h.keyParts_last 77 hrest hdot
  obtain ⟨outer, hdotted⟩ := hfirst.keyParts_dot 78 (name ++ rest)
  refine ⟨⟨String.ofList first, outer⟩, ⟨String.ofList name, span⟩, rfl, rfl, ?_⟩
  rw [dottedKey?, maxDepth, hdotted, hparts]
  rfl

theorem BareKey.head?_ne {c : Char} (h : BareKey name) (hc : isBare c = false) : (name ++ rest).head? ≠ some c := by
  cases name with
  | nil => exact absurd rfl h.nonempty
  | cons d name =>
      rintro ⟨⟩
      exact Bool.false_ne_true (hc.symm.trans h.head)

/-- The header of a table. -/
theorem Leads.table {key : DottedKey} {draft' : Draft} (hhead : text.head? ≠ some '[')
    (hkey : dottedKey? text = some (key, ']' :: '\n' :: rest)) (hshort : rest.length ≤ text.length)
    (hopen : draft.openTable key ⟨('[' :: text).length, ('\n' :: rest).length⟩ = some draft') :
    Leads draft ('[' :: text) draft' rest := by
  refine .line (by decide) hshort ?_
  rw [line?]
  · have hmark : mark? ']' (']' :: '\n' :: rest) = some ('\n' :: rest) := by simp [mark?]
    simp only [hkey, hmark, hopen, restOfLine?_eq (.inr rfl), Option.bind_eq_bind, Option.bind_some]
  · rintro after rfl
    exact hhead rfl

@[simp]
theorem dropGaps_bracket : dropGaps (']' :: rest) = ']' :: rest := rfl

theorem isBare_of_bracket : ∀ c ∈ (']' :: rest).head?, isBare c = false := by
  rintro c ⟨⟩
  decide

/-- The header of a table in the root table. -/
theorem leads_table (draft : Draft) (h : BareKey name) (rest : List Char) :
    ∃ (key : Key) (place : Span), key.name = String.ofList name ∧
      ∀ draft', draft.openTable ⟨[], key⟩ place = some draft' →
        Leads draft ('[' :: (name ++ ']' :: '\n' :: rest)) draft' rest := by
  obtain ⟨key, hname, hkey⟩ := dottedKey?_single h isBare_of_bracket (by simp)
  exact ⟨key, _, hname, fun draft' hopen => .table (h.head?_ne (by decide)) hkey (by simp; omega) hopen⟩

/-- The header of a table in another one. -/
theorem leads_innerTable (draft : Draft) {first : List Char} (hfirst : BareKey first) (h : BareKey name)
    (rest : List Char) :
    ∃ (parent key : Key) (place : Span), parent.name = String.ofList first ∧ key.name = String.ofList name ∧
      ∀ draft', draft.openTable ⟨[parent], key⟩ place = some draft' →
        Leads draft ('[' :: (first ++ '.' :: (name ++ ']' :: '\n' :: rest))) draft' rest := by
  obtain ⟨parent, key, hparent, hname, hkey⟩ := dottedKey?_pair hfirst h isBare_of_bracket (by simp)
  exact ⟨parent, key, _, hparent, hname, fun draft' hopen =>
    .table (hfirst.head?_ne (by decide)) hkey (by simp; omega) hopen⟩

/-- The header of a repeated table. -/
theorem leads_repeated (draft : Draft) (h : BareKey name) (rest : List Char) :
    ∃ (key : Key) (place : Span), key.name = String.ofList name ∧
      ∀ draft', draft.openRepeated ⟨[], key⟩ place = some draft' →
        Leads draft ('[' :: '[' :: (name ++ ']' :: ']' :: '\n' :: rest)) draft' rest := by
  have hdot : (dropGaps (']' :: ']' :: '\n' :: rest)).head? ≠ some '.' := by simp
  obtain ⟨key, hname, hkey⟩ := dottedKey?_single h isBare_of_bracket hdot
  rw [dropGaps_bracket] at hkey
  refine ⟨key, ⟨('[' :: '[' :: (name ++ ']' :: ']' :: '\n' :: rest)).length, ('\n' :: rest).length⟩, hname,
    fun draft' hopen => .line (by decide) (by simp; omega) ?_⟩
  rw [line?]
  simp only [hkey, hopen, restOfLine?_eq (.inr rfl), Option.bind_eq_bind, Option.bind_some]

/-- A line enters a value in the open table under a name that the table does not have yet. -/
def Enters (line : List Char) (name : String) (value : Value) : Prop :=
  ∀ draft tail left, EndsLine tail left → draft.current.kind = .header →
    draft.current.entries.find? name = none →
    ∃ (key : Key) (node : Node) (span : Option Span), key.name = name ∧ node.value = value ∧
      Leads draft (line ++ tail)
        { draft with current := ⟨.header, draft.current.entries ++ [(key, node)]⟩, span } left

theorem Draft.insert_single {key : Key} (node : Node) (hkind : draft.current.kind = .header)
    (hfresh : draft.current.entries.find? key.name = none) :
    ∃ span, draft.insert ⟨[], key⟩ node
      = some { draft with current := ⟨.header, draft.current.entries ++ [(key, node)]⟩, span } := by
  simp [Draft.insert, Opened.insertAt, Opened.modifyAt, hkind, Entries.insert?_fresh hfresh]

theorem enters {equals : List Char} {value : Value} (h : BareKey name)
    (hequals : equals = " = ".toList ∨ equals = "=".toList) (hspells : Spells text value) :
    Enters (name ++ equals ++ text) (String.ofList name) value := by
  intro draft tail left hline hkind hfresh
  obtain ⟨node, hnode, hvalue⟩ := hspells tail left hline
  have hgaps : ∃ after, dropGaps (equals ++ (text ++ tail)) = '=' :: after
      ∧ dropGaps after = dropGaps (text ++ tail) := by
    rcases hequals with rfl | rfl
    · exact ⟨' ' :: (text ++ tail), rfl, rfl⟩
    · exact ⟨text ++ tail, rfl, rfl⟩
  obtain ⟨after, hafter, hstart⟩ := hgaps
  have hrest : ∀ c ∈ (equals ++ (text ++ tail)).head?, isBare c = false := by
    rcases hequals with rfl | rfl <;> (rintro c ⟨⟩; decide)
  obtain ⟨key, hname, hkey⟩ := dottedKey?_single h hrest (by simp [hafter])
  obtain ⟨span, hinsert⟩ := Draft.insert_single node hkind (hname ▸ hfresh)
  refine ⟨key, node, span, hname, hvalue, ?_⟩
  have hentry : entry? (value? maxDepth) (name ++ (equals ++ (text ++ tail))) = some (⟨[], key⟩, node, tail) := by
    simp [ entry?, hkey, hafter, mark?, hstart, hnode]
  cases name with
  | nil => exact absurd rfl h.nonempty
  | cons c name =>
      have hc : c ≠ '#' ∧ c ≠ '[' ∧ c ≠ '\n' ∧ c ≠ '\r' := by
        refine ⟨?_, ?_, ?_, ?_⟩ <;> (rintro rfl; exact absurd h.head (by decide))
      have htext : (c :: name) ++ equals ++ text ++ tail = c :: (name ++ (equals ++ (text ++ tail))) := by simp
      have hend : lineEnd? (c :: (name ++ (equals ++ (text ++ tail)))) = none := by
        rw [lineEnd?] <;> simp_all
      rw [htext]
      refine .line (isGap_of_isBare h.head) ?_ ?_
      · rcases hline with ⟨-, rfl⟩ | rfl
        · simp
        · simp
          omega
      · rw [line?, hend]
        · simp only [List.cons_append] at hentry
          simp [hentry, hinsert, restOfLine?_eq hline]
        all_goals simp_all

/-- Lines that enter values, one after another. -/
theorem Leads.fields (draft : Draft) {fields : List (List Char × String × Value)}
    (hfields : ∀ field ∈ fields, Enters field.1 field.2.1 field.2.2) (hkind : draft.current.kind = .header)
    (hnames : ((entryValues draft.current.entries).map Prod.fst ++ fields.map (·.2.1)).Nodup)
    (rest : List Char) :
    ∃ entries span, entryValues entries = entryValues draft.current.entries ++ fields.map Prod.snd ∧
      Leads draft (fields.flatMap (·.1 ++ ['\n']) ++ rest) { draft with current := ⟨.header, entries⟩, span } rest := by
  induction fields generalizing draft with
  | nil =>
      refine ⟨draft.current.entries, draft.span, by simp, ?_⟩
      rw [← hkind]
      exact .refl
  | cons field fields ih =>
      obtain ⟨line, name, value⟩ := field
      obtain ⟨hfield, hrest⟩ := List.forall_mem_cons.1 hfields
      have hfresh : draft.current.entries.find? name = none := by
        rw [Entries.find?_eq_none_iff]
        exact fun hmem => (List.nodup_append.1 hnames).2.2 name hmem name (by simp) rfl
      obtain ⟨key, node, span, hname, hvalue, hline⟩ :=
        hfield draft ('\n' :: (fields.flatMap (·.1 ++ ['\n']) ++ rest)) _ (.inr rfl) hkind hfresh
      have hentered : entryValues (draft.current.entries ++ [(key, node)])
          = entryValues draft.current.entries ++ [(name, value)] := by
        simp [entryValues_append, entryValues, hname, hvalue]
      obtain ⟨entries, span', hentries, hlater⟩ :=
        ih { draft with current := ⟨.header, draft.current.entries ++ [(key, node)]⟩, span } hrest rfl
          (by simpa [hentered] using hnames)
      refine ⟨entries, span', by simp [hentries, hentered], ?_⟩
      simpa using hline.trans hlater

/-! ### Repeated tables -/

section Repeated

variable {before : List (String × Value)} {tables : String} {values : List Value} {entries inner : Entries}
  {key key' : Key} {elements : List Node} {span : Option Span}

/-- The entries of a table, with repeated tables under one more name at its end. -/
def withTables (entries : Entries) (key : Key) (elements : List Node) : Opened :=
  ⟨.header, entries ++ [(key, .tables elements)]⟩

/-- A change behind the name of repeated tables is made to the last of them. -/
theorem modifyAt_withTables (hfresh : entries.find? key.name = none) (hname : key'.name = key.name)
    (elements : List Node) (inner : Entries) (span : Option Span) (change : Opened → Option Opened) :
    (withTables entries key (elements ++ [.table .header inner span])).modifyAt false change [key']
      = (change ⟨.header, inner⟩).map fun changed =>
          withTables entries key (elements ++ [.table changed.kind changed.entries span]) := by
  cases hchange : change ⟨.header, inner⟩ <;>
    simp [withTables, Opened.modifyAt, hname, Entries.find?_last hfresh, Node.modifyTable, hchange,
      Entries.set_last hfresh hname]

/-- Closed now, a draft holds the entries `before` and, under the name `tables`, repeated tables with the given
values, unless there are none yet. -/
inductive Draft.Holds (before : List (String × Value)) (tables : String) (draft : Draft) : List Value → Prop
  | empty (entries : Entries) : entryValues entries = before → draft.close = some ⟨.header, entries⟩ →
      Draft.Holds before tables draft []
  | filled (entries : Entries) (key : Key) (elements : List Node) : entryValues entries = before →
      key.name = tables → elements ≠ [] → draft.close = some (withTables entries key elements) →
      Draft.Holds before tables draft (valuesOf elements)

namespace Draft

theorem Holds.openRepeated (h : draft.Holds before tables values) (hfresh : tables ∉ before.map Prod.fst)
    (hname : key'.name = tables) :
    ∃ (entries : Entries) (key : Key) (elements : List Node), entryValues entries = before ∧ key.name = tables
      ∧ valuesOf elements = values ∧ ∀ place, draft.openRepeated ⟨[], key'⟩ place
        = some ⟨withTables entries key elements, some ⟨[], key'⟩, true, ⟨.header, []⟩, some place⟩ := by
  cases h with
  | empty entries hentries hclose =>
      have hfind : entries.find? key'.name = none := by
        rwa [Entries.find?_eq_none_iff, hentries, hname]
      refine ⟨entries, key', [], hentries, hname, rfl, ?_⟩
      simp [Draft.openRepeated, hclose, Opened.modifyAt, hfind, withTables]
  | filled entries key elements hentries hkey _ hclose =>
      have hfind : entries.find? key.name = none := by
        rwa [Entries.find?_eq_none_iff, hentries, hkey]
      refine ⟨entries, key, elements, hentries, hkey, rfl, ?_⟩
      have hlast := Entries.find?_last hfind (.tables elements)
      rw [hkey, ← hname] at hlast
      simp [Draft.openRepeated, hclose, Opened.modifyAt, withTables, hlast]

variable (hfresh : entries.find? key.name = none) {place : Option Span}

include hfresh

/-- Behind the header of a repeated table, the header of a table in it opens an empty table. -/
theorem openTable_repeated {parent first name : Key} (hparent : parent.name = key.name) (hfirst : first.name = key.name)
    (place' : Span) :
    (⟨withTables entries key elements, some ⟨[], parent⟩, true, ⟨.header, []⟩, place⟩ : Draft).openTable
        ⟨[first], name⟩ place'
      = some ⟨withTables entries key (elements ++ [.table .header [] place]), some ⟨[first], name⟩, false,
          ⟨.header, []⟩, some place'⟩ := by
  have hclose : (⟨withTables entries key elements, some ⟨[], parent⟩, true, ⟨.header, []⟩, place⟩ : Draft).close
      = some (withTables entries key (elements ++ [.table .header [] place])) := by
    have hfind := Entries.find?_last hfresh (.tables elements)
    rw [← hparent] at hfind
    simp [Draft.close, Opened.modifyAt, withTables, hfind, Entries.set_last hfresh hparent]
  have hat : (withTables entries key (elements ++ [.table .header [] place])).at? [first] = some ⟨.header, []⟩ := by
    simp [Opened.at?, withTables, hfirst, Entries.find?_last hfresh]
  have hmodify := modifyAt_withTables hfresh hfirst elements [] place
  simp [Draft.openTable, hclose, hmodify, hat, Entries.find?, Entries.erase]

/-- Closing a table inside a repeated one makes it the only entry there. -/
theorem close_repeated {first name : Key} (hfirst : first.name = key.name) {fields : Entries} {span' : Option Span} :
    (⟨withTables entries key (elements ++ [.table .header [] place]), some ⟨[first], name⟩, false,
        ⟨.header, fields⟩, span'⟩ : Draft).close
      = some (withTables entries key
          (elements ++ [.table .header [(name, .table .header fields span')] place])) := by
  have hmodify := modifyAt_withTables hfresh hfirst elements [] place
  simp [Draft.close, hmodify, Entries.insert?, Entries.find?]

end Draft

/-- The text of a block: a repeated table, a table in it, and lines that enter values there. -/
def blockText (tables name : List Char) (fields : List (List Char × String × Value)) : List Char :=
  "[[".toList ++ tables ++ "]]\n[".toList ++ tables ++ ['.'] ++ name ++ "]\n".toList
    ++ fields.flatMap (·.1 ++ ['\n'])

/-- A block adds one repeated table, with one table in it. -/
theorem Draft.Holds.block {repeated : List Char} {fields : List (List Char × String × Value)}
    (h : draft.Holds before (String.ofList repeated) values)
    (hfresh : String.ofList repeated ∉ before.map Prod.fst) (hrepeated : BareKey repeated) (hname : BareKey name)
    (hfields : ∀ field ∈ fields, Enters field.1 field.2.1 field.2.2) (hnames : (fields.map (·.2.1)).Nodup) :
    ∃ draft' : Draft, Leads draft (blockText repeated name fields ++ rest) draft' rest
      ∧ draft'.Holds before (String.ofList repeated)
          (values ++ [.table [(String.ofList name, .table (fields.map Prod.snd))]]) := by
  generalize hbody : fields.flatMap (·.1 ++ ['\n']) ++ rest = body
  have htext : blockText repeated name fields ++ rest = '[' :: '[' :: (repeated ++ ']' :: ']' :: '\n' ::
      '[' :: (repeated ++ '.' :: (name ++ ']' :: '\n' :: body))) := by
    unfold blockText
    simp [← hbody]
  -- The two headers open an empty table inside a new repeated one.
  obtain ⟨parent, place, hparent, hrepeatedLine⟩ :=
    leads_repeated draft hrepeated ('[' :: (repeated ++ '.' :: (name ++ ']' :: '\n' :: body)))
  obtain ⟨entries, key, elements, hentries, hkey, rfl, hopen⟩ := h.openRepeated hfresh hparent
  have hfind : entries.find? key.name = none := by
    rwa [Entries.find?_eq_none_iff, hentries, hkey]
  obtain ⟨first, last, place', hfirst, hlast, htableLine⟩ := leads_innerTable
    ⟨withTables entries key elements, some ⟨[], parent⟩, true, ⟨.header, []⟩, some place⟩ hrepeated hname body
  have hopened := htableLine _ (Draft.openTable_repeated hfind (hparent.trans hkey.symm) (hfirst.trans hkey.symm) place')
  -- The other lines fill it, and whatever closes it leaves it in the repeated one.
  obtain ⟨entered, span, hentered, hlines⟩ := Leads.fields
    ⟨withTables entries key (elements ++ [.table .header [] (some place)]), some ⟨[first], last⟩, false,
      ⟨.header, []⟩, some place'⟩ hfields rfl (by simpa [entryValues] using hnames) rest
  rw [hbody] at hlines
  refine ⟨_, htext ▸ (hrepeatedLine _ (hopen place)).trans (hopened.trans hlines), ?_⟩
  have hvalues : valuesOf elements ++ [.table [(String.ofList name, .table (fields.map Prod.snd))]]
      = valuesOf (elements ++ [.table .header [(last, .table .header entered span)] (some place)]) := by
    simp [valuesOf_append, valuesOf, Node.value, entryValues, hentered, hlast]
  rw [hvalues]
  exact .filled entries key _ hentries hkey (by simp) (Draft.close_repeated hfind (hfirst.trans hkey.symm))

end Repeated

end ModPackager.Toml
