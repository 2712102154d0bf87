import ModPackager.Proofs.Toml.Document

/-!
# Documents name nothing twice

However the tables of a document are spelt (by headers, dotted keys or inline tables), an entry is only ever added
under a name that is free, and a table that is changed keeps its name. So no table of a document that is read holds two
entries of one name (`parse_distinct`), and what a name stands for does not depend on the order of entries
(`valueOf_reverse`).
-/

namespace ModPackager.Toml

variable {entries entries' : Entries} {key : Key} {node node' : Node} {kind : TableKind} {span : Option Span}
  {name : String} {table table' : Opened} {draft draft' : Draft} {text rest : List Char}

/-! ### Nodes without repeated names -/

/-- No table in a node names anything twice. -/
inductive Node.Distinct : Node → Prop
  | scalar (value : Scalar) (span : Span) : Distinct (.scalar value span)
  | array {items : List Node} (span : Span) : (∀ item ∈ items, Distinct item) → Distinct (.array items span)
  | tables {elements : List Node} : (∀ element ∈ elements, Distinct element) → Distinct (.tables elements)
  | table (kind : TableKind) {entries : Entries} (span : Option Span) : (entries.map (·.1.name)).Nodup →
      (∀ entry ∈ entries, Distinct entry.2) → Distinct (.table kind entries span)

/-- Entries name nothing twice, and neither do the tables in them. -/
structure Entries.Distinct (entries : Entries) : Prop where
  names : (entries.map (·.1.name)).Nodup
  nodes : ∀ entry ∈ entries, entry.2.Distinct

theorem Node.distinct_table_iff : (Node.table kind entries span).Distinct ↔ Entries.Distinct entries := by
  constructor
  · rintro (_ | _ | _ | ⟨_, _, hnames, hnodes⟩)
    exact ⟨hnames, hnodes⟩
  · exact fun h => .table kind span h.names h.nodes

namespace Entries

theorem names_eq (entries : Entries) : (entryValues entries).map Prod.fst = entries.map (·.1.name) := by
  induction entries with
  | nil => rfl
  | cons entry entries ih => simp [entryValues, ih]

namespace Distinct

theorem nil : Entries.Distinct [] := ⟨.nil, nofun⟩

theorem find? (h : Entries.Distinct entries) (hfound : entries.find? name = some node) : node.Distinct := by
  obtain ⟨entry, hentry, rfl⟩ := Option.map_eq_some_iff.1 hfound
  exact h.nodes entry (List.mem_of_find?_eq_some hentry)

theorem append (h : Entries.Distinct entries) (hfresh : entries.find? key.name = none) (hnode : node.Distinct) :
    Entries.Distinct (entries ++ [(key, node)]) where
  names := by
    rw [find?_eq_none_iff, names_eq] at hfresh
    rw [List.map_append, List.nodup_append]
    refine ⟨h.names, List.pairwise_singleton _ _, fun name hname last hlast hsame => hfresh ?_⟩
    rw [hsame, List.mem_singleton.1 hlast] at hname
    exact hname
  nodes := by
    intro entry hentry
    rcases List.mem_append.1 hentry with hentry | hlast
    · exact h.nodes entry hentry
    · rwa [List.mem_singleton.1 hlast]

theorem insert? (h : Entries.Distinct entries) (hnode : node.Distinct) (hrun : entries.insert? key node = some entries') :
    Entries.Distinct entries' := by
  unfold Entries.insert? at hrun
  split at hrun
  · cases hrun
  next hfresh =>
      cases hrun
      exact h.append (Option.not_isSome_iff_eq_none.1 hfresh) hnode

theorem set (h : Entries.Distinct entries) (hnode : node.Distinct) : Entries.Distinct (entries.set key node) := by
  unfold Entries.set
  split
  · constructor
    · have hsame : (fun entry : Key × Node => entry.1.name)
          ∘ (fun entry => if entry.1.name == key.name then (entry.1, node) else entry) = (·.1.name) := by
        funext entry
        rw [Function.comp_apply]
        split <;> rfl
      rw [List.map_map, hsame]
      exact h.names
    · intro entry hentry
      obtain ⟨before, hbefore, rfl⟩ := List.mem_map.1 hentry
      split
      · exact hnode
      · exact h.nodes before hbefore
  next hfresh => exact h.append (Option.not_isSome_iff_eq_none.1 hfresh) hnode

theorem erase (h : Entries.Distinct entries) (name : String) : Entries.Distinct (entries.erase name) where
  names := (List.filter_sublist.map _).nodup h.names
  nodes := fun entry hentry => h.nodes entry (List.mem_of_mem_filter hentry)

end Distinct

end Entries

/-! ### Changing tables -/

/-- A change of a table that keeps its names distinct. -/
def KeepsDistinct (change : Opened → Option Opened) : Prop :=
  ∀ {table table' : Opened}, Entries.Distinct table.entries → change table = some table' → Entries.Distinct table'.entries

section Changes

variable {dotted : Bool} {change : Opened → Option Opened} (hchange : KeepsDistinct change)

include hchange

theorem Node.Distinct.modifyTable (h : node.Distinct) (hrun : node.modifyTable dotted change = some node') :
    node'.Distinct := by
  cases h with
  | scalar => cases hrun
  | array => cases hrun
  | tables helements =>
      simp only [Node.modifyTable] at hrun
      split at hrun
      next kind entries span hlast =>
          obtain ⟨changed, hchanged, hnode⟩ := Option.bind_eq_some_iff.1 hrun
          cases hnode
          have hentries := Node.distinct_table_iff.1 (helements _ (List.mem_of_getLast? hlast))
          refine .tables fun element helement => ?_
          rcases List.mem_append.1 helement with hfront | hchangedLast
          · exact helements element (List.dropLast_subset _ hfront)
          · rw [List.mem_singleton.1 hchangedLast]
            exact Node.distinct_table_iff.2 (hchange hentries hchanged)
      · cases hrun
  | table kind span hnames hnodes =>
      simp only [Node.modifyTable] at hrun
      split at hrun
      · cases hrun
      · obtain ⟨changed, hchanged, hnode⟩ := Option.bind_eq_some_iff.1 hrun
        cases hnode
        exact Node.distinct_table_iff.2 (@hchange ⟨kind, _⟩ _ ⟨hnames, hnodes⟩ hchanged)

theorem KeepsDistinct.modifyAt (path : List Key) : KeepsDistinct (Opened.modifyAt dotted change path) := by
  induction path with
  | nil => exact hchange
  | cons key path ih =>
      intro table table' h hrun
      obtain ⟨changed, hchanged, htable⟩ := Option.bind_eq_some_iff.1 hrun
      cases htable
      refine h.set (Node.Distinct.modifyTable ih ?_ hchanged)
      -- A table that is not there yet is made without entries.
      cases hfound : table.entries.find? key.name with
      | none => exact Node.distinct_table_iff.2 .nil
      | some found => exact h.find? hfound

end Changes

theorem keepsDistinct_insertAt (path : List Key) (key : Key) (hnode : node.Distinct) :
    KeepsDistinct (Opened.insertAt path key node) := by
  refine KeepsDistinct.modifyAt (fun {target target'} h hrun => ?_) path
  split at hrun
  · cases hrun
  · obtain ⟨entries, hentries, htarget⟩ := Option.bind_eq_some_iff.1 hrun
    cases htarget
    exact h.insert? hnode hentries

theorem Opened.at?_distinct {path : List Key} (h : Entries.Distinct table.entries)
    (hrun : Opened.at? path table = some table') : Entries.Distinct table'.entries := by
  induction path generalizing table with
  | nil =>
      cases hrun
      exact h
  | cons key path ih =>
      unfold Opened.at? at hrun
      split at hrun
      next hfound => exact ih (Node.distinct_table_iff.1 (h.find? hfound)) hrun
      next hfound =>
          split at hrun
          next hlast =>
              rcases h.find? hfound with _ | _ | helements
              exact ih (Node.distinct_table_iff.1 (helements _ (List.mem_of_getLast? hlast))) hrun
          · cases hrun
      · cases hrun

/-! ### Reading values -/

/-- A reader of values whose tables name nothing twice. -/
def ReadsDistinct (value : ValueReader) : Prop :=
  ∀ {text node rest}, value text = some (node, rest) → node.Distinct

section Reading

variable {value : ValueReader} (hvalue : ReadsDistinct value)

include hvalue

theorem arrayItems_distinct {fuel : Nat} {items : List Node}
    (h : arrayItems value fuel text = some (items, rest)) : ∀ item ∈ items, item.Distinct := by
  induction fuel generalizing text items with
  | zero => cases h
  | succ fuel ih =>
      obtain ⟨start, -, h⟩ := Option.bind_eq_some_iff.1 h
      split at h
      · cases h
        exact nofun
      · obtain ⟨⟨node, after⟩, hnode, h⟩ := Option.bind_eq_some_iff.1 h
        obtain ⟨next, -, h⟩ := Option.bind_eq_some_iff.1 h
        split at h
        · obtain ⟨⟨nodes, left⟩, hnodes, h⟩ := Option.bind_eq_some_iff.1 h
          cases h
          exact List.forall_mem_cons.2 ⟨hvalue hnode, ih hnodes⟩
        · cases h
          exact List.forall_mem_cons.2 ⟨hvalue hnode, nofun⟩
        · cases h

theorem entry?_distinct {key : DottedKey} (h : entry? value text = some (key, node, rest)) : node.Distinct := by
  obtain ⟨⟨dotted, after⟩, -, h⟩ := Option.bind_eq_some_iff.1 h
  obtain ⟨start, -, h⟩ := Option.bind_eq_some_iff.1 h
  obtain ⟨⟨read, left⟩, hread, h⟩ := Option.bind_eq_some_iff.1 h
  cases h
  exact hvalue hread

theorem inlineEntries_distinct {fuel : Nat} (htable : Entries.Distinct table.entries)
    (h : inlineEntries value table fuel text = some (table', rest)) : Entries.Distinct table'.entries := by
  induction fuel generalizing table text with
  | zero => cases h
  | succ fuel ih =>
      obtain ⟨⟨key, node, after⟩, hentry, h⟩ := Option.bind_eq_some_iff.1 h
      obtain ⟨inserted, hinserted, h⟩ := Option.bind_eq_some_iff.1 h
      have hdistinct := keepsDistinct_insertAt key.path key.key (entry?_distinct hvalue hentry) htable hinserted
      split at h
      · exact ih hdistinct h
      · cases h
        exact hdistinct
      · cases h

end Reading

theorem valueWith_distinct {inner : Option ValueReader} (hinner : ∀ value ∈ inner, ReadsDistinct value) :
    ReadsDistinct (valueWith inner) := by
  intro text node rest h
  unfold valueWith at h
  split at h
  · obtain ⟨value, hvalue, h⟩ := Option.bind_eq_some_iff.1 h
    obtain ⟨⟨items, left⟩, hitems, h⟩ := Option.bind_eq_some_iff.1 h
    cases h
    exact .array _ (arrayItems_distinct (hinner value hvalue) hitems)
  · obtain ⟨value, hvalue, h⟩ := Option.bind_eq_some_iff.1 h
    split at h
    · cases h
      exact Node.distinct_table_iff.2 .nil
    · obtain ⟨⟨table, left⟩, htable, h⟩ := Option.bind_eq_some_iff.1 h
      cases h
      exact Node.distinct_table_iff.2 (inlineEntries_distinct (hinner value hvalue) .nil htable)
  · obtain ⟨⟨value, left⟩, -, h⟩ := Option.bind_eq_some_iff.1 h
    cases h
    exact .scalar _ _

theorem value?_distinct (depth : Nat) : ReadsDistinct (value? depth) := by
  induction depth with
  | zero => exact valueWith_distinct (by simp)
  | succ depth ih =>
      refine valueWith_distinct fun value hvalue => ?_
      cases hvalue
      exact ih

/-! ### Reading documents -/

/-- Neither the finished tables nor the open one name anything twice. -/
structure Draft.Distinct (draft : Draft) : Prop where
  root : Entries.Distinct draft.root.entries
  current : Entries.Distinct draft.current.entries

namespace Draft.Distinct

theorem empty : Draft.empty.Distinct := ⟨.nil, .nil⟩

theorem insert {key : DottedKey} (h : draft.Distinct) (hnode : node.Distinct)
    (hrun : draft.insert key node = some draft') : draft'.Distinct := by
  obtain ⟨current, hcurrent, hdraft⟩ := Option.bind_eq_some_iff.1 hrun
  cases hdraft
  exact ⟨h.root, keepsDistinct_insertAt key.path key.key hnode h.current hcurrent⟩

theorem close (h : draft.Distinct) (hrun : draft.close = some table) : Entries.Distinct table.entries := by
  unfold Draft.close at hrun
  split at hrun
  · cases hrun
    exact h.current
  next place _ =>
      have hnode : (Node.table draft.current.kind draft.current.entries draft.span).Distinct :=
        Node.distinct_table_iff.2 h.current
      refine KeepsDistinct.modifyAt (fun {parent parent'} hparent hchange => ?_) place.path h.root hrun
      -- The table is one more element of a list, or the first one, or an entry of its own.
      dsimp only at hchange
      split at hchange
      next elements _ hfound =>
          cases hchange
          rcases hparent.find? hfound with _ | _ | helements
          refine hparent.set (.tables fun element helement => ?_)
          rcases List.mem_append.1 helement with hearlier | hlast
          · exact helements element hearlier
          · rwa [List.mem_singleton.1 hlast]
      · obtain ⟨entries, hentries, hparent'⟩ := Option.bind_eq_some_iff.1 hchange
        cases hparent'
        exact hparent.insert? (.tables (List.forall_mem_singleton.2 hnode)) hentries
      · obtain ⟨entries, hentries, hparent'⟩ := Option.bind_eq_some_iff.1 hchange
        cases hparent'
        exact hparent.insert? hnode hentries

theorem openTable {key : DottedKey} {span : Span} (h : draft.Distinct)
    (hrun : draft.openTable key span = some draft') : draft'.Distinct := by
  obtain ⟨closed, hclosed, hrun⟩ := Option.bind_eq_some_iff.1 hrun
  obtain ⟨root, hroot, hrun⟩ := Option.bind_eq_some_iff.1 hrun
  obtain ⟨parent, hparent, hrun⟩ := Option.bind_eq_some_iff.1 hrun
  have hroot : Entries.Distinct root.entries := by
    refine KeepsDistinct.modifyAt (fun {table table'} htable hsame => ?_) key.path (h.close hclosed) hroot
    cases hsame
    exact htable
  have hparent := Opened.at?_distinct hroot hparent
  -- The entries that the table has so far, if it was implied, are taken out of the finished tables.
  have hopens : ∀ {entries : Entries}, Entries.Distinct entries →
      (root.modifyAt false (fun parent => some { parent with entries := parent.entries.erase key.key.name }) key.path).bind
        (fun root => some (⟨root, some key, false, ⟨.header, entries⟩, some span⟩ : Draft)) = some draft' →
      draft'.Distinct := by
    intro entries hentries hopen
    obtain ⟨erased, herased, hdraft⟩ := Option.bind_eq_some_iff.1 hopen
    cases hdraft
    refine ⟨KeepsDistinct.modifyAt (fun {table table'} htable hchange => ?_) key.path hroot herased, hentries⟩
    cases hchange
    exact htable.erase _
  dsimp only at hrun
  split at hrun
  · exact hopens .nil hrun
  next hfound => exact hopens (Node.distinct_table_iff.1 (hparent.find? hfound)) hrun
  · cases hrun

theorem openRepeated {key : DottedKey} {span : Span} (h : draft.Distinct)
    (hrun : draft.openRepeated key span = some draft') : draft'.Distinct := by
  obtain ⟨closed, hclosed, hrun⟩ := Option.bind_eq_some_iff.1 hrun
  obtain ⟨root, hroot, hrun⟩ := Option.bind_eq_some_iff.1 hrun
  cases hrun
  refine ⟨KeepsDistinct.modifyAt (fun {parent parent'} hparent hchange => ?_) key.path (h.close hclosed) hroot, .nil⟩
  split at hchange
  next hfresh =>
      cases hchange
      exact hparent.append hfresh (.tables nofun)
  · cases hchange
    exact hparent
  · cases hchange

theorem line? (h : draft.Distinct) (hrun : Toml.line? draft text = some (draft', rest)) : draft'.Distinct := by
  unfold Toml.line? at hrun
  split at hrun
  · obtain ⟨left, -, hrun⟩ := Option.bind_eq_some_iff.1 hrun
    cases hrun
    exact h
  · obtain ⟨⟨key, after⟩, -, hrun⟩ := Option.bind_eq_some_iff.1 hrun
    dsimp only at hrun
    split at hrun
    · obtain ⟨opened, hopened, hrun⟩ := Option.bind_eq_some_iff.1 hrun
      obtain ⟨left, -, hrun⟩ := Option.bind_eq_some_iff.1 hrun
      cases hrun
      exact h.openRepeated hopened
    · cases hrun
  · obtain ⟨⟨key, after⟩, -, hrun⟩ := Option.bind_eq_some_iff.1 hrun
    obtain ⟨left, -, hrun⟩ := Option.bind_eq_some_iff.1 hrun
    obtain ⟨opened, hopened, hrun⟩ := Option.bind_eq_some_iff.1 hrun
    obtain ⟨last, -, hrun⟩ := Option.bind_eq_some_iff.1 hrun
    cases hrun
    exact h.openTable hopened
  · split at hrun
    · cases hrun
      exact h
    · obtain ⟨⟨key, node, after⟩, hentry, hrun⟩ := Option.bind_eq_some_iff.1 hrun
      obtain ⟨inserted, hinserted, hrun⟩ := Option.bind_eq_some_iff.1 hrun
      obtain ⟨left, -, hrun⟩ := Option.bind_eq_some_iff.1 hrun
      cases hrun
      exact h.insert (entry?_distinct (value?_distinct _) hentry) hinserted

theorem lines {fuel : Nat} (h : draft.Distinct) (hrun : Toml.lines draft fuel text = some draft') :
    draft'.Distinct := by
  induction fuel generalizing draft text with
  | zero => cases hrun
  | succ fuel ih =>
      unfold Toml.lines at hrun
      split at hrun
      · cases hrun
        exact h
      · obtain ⟨⟨next, left⟩, hnext, hrun⟩ := Option.bind_eq_some_iff.1 hrun
        exact ih (h.line? hnext) hrun

end Draft.Distinct

/-- A document that is read names nothing twice. -/
theorem parse_distinct (h : parse text = some entries) : Entries.Distinct entries := by
  obtain ⟨draft, hdraft, h⟩ := Option.bind_eq_some_iff.1 h
  obtain ⟨closed, hclosed, h⟩ := Option.bind_eq_some_iff.1 h
  cases h
  exact (Draft.Distinct.empty.lines hdraft).close hclosed

/-! ### Looking names up -/

/-- What a name stands for in entries. -/
def valueOf (values : List (String × Value)) (name : String) : Option Value := values.lookup name

/-- Where no name is repeated, the last entry of a name is the only one. -/
theorem valueOf_reverse {values : List (String × Value)} (h : (values.map Prod.fst).Nodup) :
    valueOf values.reverse = valueOf values := by
  funext name
  unfold valueOf
  induction values with
  | nil => rfl
  | cons entry values ih =>
      obtain ⟨first, value⟩ := entry
      rw [List.map_cons, List.nodup_cons] at h
      rw [List.reverse_cons, List.lookup_append, ih h.2, List.lookup_cons]
      by_cases hname : name = first
      · have hnone : values.lookup first = none := by
          rw [List.lookup_eq_none_iff]
          rintro ⟨other, value⟩ hother
          simpa using fun hsame : first = other => h.1 (List.mem_map.2 ⟨_, hother, hsame.symm⟩)
        simp [hname, hnone]
      · have hother : (name == first) = false := beq_false_of_ne hname
        simp [List.lookup_cons, hother]

end ModPackager.Toml
