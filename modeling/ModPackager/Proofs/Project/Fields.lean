import Mathlib.Data.List.DropRight
import Mathlib.Data.Option.Basic
import ModPackager.Project.Package
import ModPackager.Proofs.Json.Values

/-!
# The fields of a package document

A document in its object form gives values for some of the known fields (`given?`). Each field has its own meaning for
a value (`Field.decode`), and a package is read exactly when every given value has a meaning and no field is given
twice; its fields are then what the given values mean (`parse_given`).
-/

namespace ModPackager.Package

open Json Reader

/-! ### What a document gives -/

/-- Reads the members that are left of an object, at most `fuel` of them, and keeps the known fields with their
values. -/
def fieldsFrom (first : Bool) : Nat → Reader (List (Field × Json))
  | 0 => return []
  | fuel + 1 => do
    if ← moreMembers first then
      match Field.ofKey? (← key) with
      | some field =>
        colon
        let found ← value fieldDepth
        return (field, found) :: (← fieldsFrom false fuel)
      | none =>
        colon
        skipValue
        fieldsFrom false fuel
    else return []

/-- Reads a document in its object form. -/
def readGiven : Reader (List (Field × Json)) := do
  let _ ← peekValue
  skip
  let fuel := (← get).length + 1
  let given ← enclosed (fieldsFrom true fuel) objectEnd
  documentEnd
  return given

/-- The known fields of a document in its object form, with their values and in their order. -/
def given? (text : String) : Option (List (Field × Json)) :=
  match readGiven text.toList with
  | .ok given _ => some given
  | .error _ _ => none

/-- What a draft holds for a field. -/
def Field.Slot : Field → Type
  | .name => String
  | .displayName => Option String
  | .author => Option Author
  | .description => Option String
  | .version => Option String
  | .dependencies => Option Json
  | .main => String

/-- The string that a value is. -/
def string? : Json → Option String
  | .string text => some text
  | _ => none

/-- What a value means that may be null. -/
def orNull {α : Type} (decode : Json → Option α) : Json → Option (Option α)
  | .null => some none
  | v => some <$> decode v

/-- What a value means for a field. -/
def Field.decode : (field : Field) → Json → Option field.Slot
  | .name => string?
  | .displayName => orNull string?
  | .author => orNull authorOf?
  | .description => orNull string?
  | .version => orNull string?
  | .dependencies => orNull fun v => some v.settle
  | .main => string?

namespace Draft

/-- What was read for a field. -/
def slot (draft : Draft) : (field : Field) → Option field.Slot
  | .name => draft.name
  | .displayName => draft.displayName
  | .author => draft.author
  | .description => draft.description
  | .version => draft.version
  | .dependencies => draft.dependencies
  | .main => draft.main

/-- The draft with one more field. -/
def put (draft : Draft) : (field : Field) → field.Slot → Draft
  | .name, s => { draft with name := some s }
  | .displayName, s => { draft with displayName := some s }
  | .author, s => { draft with author := some s }
  | .description, s => { draft with description := some s }
  | .version, s => { draft with version := some s }
  | .dependencies, s => { draft with dependencies := some s }
  | .main, s => { draft with main := some s }

variable {draft last : Draft} {field : Field}

theorem has_eq_isSome (draft : Draft) (field : Field) : draft.has field = (draft.slot field).isSome := by
  cases field <;> rfl

@[simp]
theorem slot_put (draft : Draft) (field : Field) (s : field.Slot) : (draft.put field s).slot field = some s := by
  cases field <;> rfl

theorem slot_put_of_ne (draft : Draft) {field other : Field} (h : other ≠ field) (s : field.Slot) :
    (draft.put field s).slot other = draft.slot other := by
  cases field <;> cases other <;> first | rfl | exact absurd rfl h

/-- A draft takes values one by one, each for a field that is still free. -/
inductive Takes : Draft → List (Field × Json) → Draft → Prop
  | nil {draft : Draft} : Takes draft [] draft
  | cons {draft last : Draft} {field : Field} {v : Json} {s : field.Slot} {given : List (Field × Json)}
      (hfree : draft.slot field = none) (hdecode : field.decode v = some s) (hrest : Takes (draft.put field s) given last) :
      Takes draft ((field, v) :: given) last

/-- What a draft has is kept. -/
theorem Takes.keeps {given : List (Field × Json)} (h : Takes draft given last) {s : field.Slot}
    (hslot : draft.slot field = some s) : last.slot field = some s := by
  induction h with
  | nil => exact hslot
  | cons hfree _ _ ih =>
      refine ih ?_
      rw [slot_put_of_ne]
      · exact hslot
      · rintro rfl
        rw [hfree] at hslot
        cases hslot

/-- In the end a draft holds what its values mean. -/
theorem Takes.slots {given : List (Field × Json)} (h : Takes draft given last) (field : Field)
    (hfree : draft.slot field = none) :
    Option.Rel (fun v s => field.decode v = some s) (given.lookup field) (last.slot field) := by
  induction h with
  | nil => exact hfree ▸ .none
  | @cons draft last known v s given _ hdecode hrest ih =>
      by_cases heq : field = known
      · subst heq
        rw [List.lookup_cons_self, hrest.keeps (slot_put draft field s)]
        exact .some hdecode
      · rw [List.lookup_cons, beq_false_of_ne heq]
        exact ih (by rw [slot_put_of_ne draft heq, hfree])

end Draft

/-! ### Reading values -/

section Values

variable {α β : Type} {text rest : List Char}

theorem peekValue_bind_dropWhile (next : Option Char → Reader α) (text : List Char) :
    (peekValue >>= next) (text.dropWhile isSpace) = (peekValue >>= next) text := by
  simp only [run_bind, run_peekValue, List.dropWhile_idempotent]

theorem value_dropWhile (depth : Nat) (text : List Char) : value depth (text.dropWhile isSpace) = value depth text := by
  cases depth <;> exact peekValue_bind_dropWhile _ text

theorem located_eq_ok {reader : Reader α} {result : α} :
    located reader text = .ok result rest ↔ reader text = .ok result rest := by
  rw [located]
  cases reader text <;> simp

theorem gives_located {reader : Reader α} {P : α → Prop} (h : Gives reader P) : Gives (located reader) P :=
  fun text result rest hrun => h text result rest (located_eq_ok.1 hrun)

/-- A value of a wrong form is never accepted. -/
theorem wrongType_ne_ok (expected : String) (result : α) : wrongType expected text ≠ .ok result rest := by
  have hnever : Gives (wrongType expected : Reader α) fun _ => False := by
    refine gives_located (.last fun c => ?_)
    split
    next => exact .last fun _ => .last fun _ => gives_fail _
    next => exact .last fun _ => .last fun _ => gives_fail _
    next => exact .last fun _ => .last fun _ => gives_fail _
    next => exact .last fun _ => .last fun _ => gives_fail _
    next => exact .last fun _ => .last fun _ => gives_fail _
    next => exact gives_fail _
    next => exact gives_fail _
    next => exact .ite (fun _ => .last fun _ => gives_fail _) fun _ => gives_failAhead _
    next => exact gives_failAhead _
  exact fun h => hnever _ _ _ h

/-- A text that goes on with a string is a value. -/
theorem value_of_string (depth : Nat) {left : List Char} {s : String} (htext : text.dropWhile isSpace = '"' :: left)
    (h : string left = .ok s rest) : value depth text = .ok (.string s) rest := by
  cases depth <;> simp [value, valueWith, htext, h]

/-- So is one that goes on with a null. -/
theorem value_of_null (depth : Nat) {left : List Char} (htext : text.dropWhile isSpace = 'n' :: left)
    (h : word "ull".toList left = .ok () rest) : value depth text = .ok .null rest := by
  have hletters : "ull".toList = ['u', 'l', 'l'] := by decide
  rw [hletters] at h
  cases depth <;> simp [value, valueWith, htext, h]

/-- A reader for values of a form reads any value and decodes it. -/
def Decodes (reader : Reader α) (decode : Json → Option α) : Prop :=
  ∀ text result rest, reader text = .ok result rest →
    ∃ v, value fieldDepth text = .ok v rest ∧ decode v = some result

theorem stringValue_decodes : Decodes stringValue string? := by
  intro text s rest h
  refine ⟨.string s, ?_, rfl⟩
  rw [stringValue, run_bind, run_peekValue] at h
  cases htext : text.dropWhile isSpace with
  | nil =>
      rw [htext] at h
      cases h
  | cons c left =>
      rw [htext] at h
      by_cases hquote : c = '"'
      · subst hquote
        have hread : string left = .ok s rest := by simpa using h
        exact value_of_string fieldDepth htext hread
      · have hread : wrongType "a string" (c :: left) = .ok s rest := by simpa [hquote] using h
        exact absurd hread (wrongType_ne_ok _ _)

theorem readAuthor_decodes : Decodes readAuthor authorOf? := by
  intro text author rest h
  obtain ⟨v, between, hv, h⟩ := bind_eq_ok.1 h
  refine ⟨v, ?_⟩
  cases hauthor : authorOf? v with
  | some found =>
      simp only [hauthor] at h
      cases h
      exact ⟨hv, rfl⟩
  | none =>
      simp only [hauthor] at h
      cases h

theorem readDependencies_decodes : Decodes readDependencies fun v => some v.settle := by
  intro text settled rest h
  obtain ⟨v, hv, rfl⟩ := map_eq_ok.1 h
  exact ⟨v, hv, rfl⟩

/-- A value that may be null is null or of its form, and only a null begins like one. -/
theorem Decodes.optional {reader : Reader α} {decode : Json → Option α} (h : Decodes reader decode) :
    Decodes (optional reader) (orNull decode) := by
  intro text result rest hread
  rw [Reader.optional, run_bind, run_peekValue] at hread
  by_cases hnull : (text.dropWhile isSpace).head? = some 'n'
  · obtain ⟨left, htext⟩ : ∃ left, text.dropWhile isSpace = 'n' :: left := List.head?_eq_some_iff.1 hnull
    simp only [htext, List.head?_cons, beq_self_eq_true, if_true] at hread
    obtain ⟨_, between, hskip, hread⟩ := bind_eq_ok.1 hread
    cases hskip
    obtain ⟨_, between, hword, hread⟩ := bind_eq_ok.1 hread
    cases hread
    exact ⟨.null, value_of_null fieldDepth htext hword, rfl⟩
  · have hne : ((text.dropWhile isSpace).head? == some 'n') = false := beq_false_of_ne hnull
    simp only [hne, Bool.false_eq_true, if_false] at hread
    obtain ⟨a, ha, rfl⟩ := map_eq_ok.1 hread
    obtain ⟨v, hv, hdecode⟩ := h _ _ _ ha
    rw [value_dropWhile] at hv
    refine ⟨v, hv, ?_⟩
    have hvalue : v ≠ .null := by
      rintro rfl
      cases valueWith_origin hv with
      | null hhead => exact hnull hhead
    rw [orNull, hdecode]
    · rfl
    · exact hvalue

theorem readField_eq_ok {draft last : Draft} {field : Field} (h : draft.readField field text = .ok last rest) :
    ∃ v s, value fieldDepth text = .ok v rest ∧ field.decode v = some s ∧ last = draft.put field s := by
  have hput : ∀ {reader : Reader field.Slot}, Decodes reader field.decode →
      (do return draft.put field (← reader)) text = .ok last rest →
      ∃ v s, value fieldDepth text = .ok v rest ∧ field.decode v = some s ∧ last = draft.put field s := by
    intro reader hreader h
    obtain ⟨s, between, hs, hlast⟩ := bind_eq_ok.1 h
    cases hlast
    obtain ⟨v, hv, hdecode⟩ := hreader _ _ _ hs
    exact ⟨v, s, hv, hdecode, rfl⟩
  cases field with
  | name => exact hput stringValue_decodes h
  | displayName => exact hput stringValue_decodes.optional h
  | author => exact hput readAuthor_decodes.optional h
  | description => exact hput stringValue_decodes.optional h
  | version => exact hput stringValue_decodes.optional h
  | dependencies => exact hput readDependencies_decodes.optional h
  | main => exact hput stringValue_decodes h

/-- Members are read field by field. -/
theorem readMembers_takes {draft last : Draft} {first : Bool} {fuel : Nat}
    (h : readMembers draft first fuel text = .ok last rest) :
    ∃ given, fieldsFrom first fuel text = .ok given rest ∧ draft.Takes given last := by
  induction fuel generalizing draft first text with
  | zero =>
      cases h
      exact ⟨[], rfl, .nil⟩
  | succ fuel ih =>
      rw [readMembers] at h
      rw [fieldsFrom]
      obtain ⟨more, between, hmore, h⟩ := bind_eq_ok.1 h
      cases more with
      | false =>
          cases h
          exact ⟨[], by rw [run_bind, hmore]; rfl, .nil⟩
      | true =>
          obtain ⟨name, behind, hkey, h⟩ := bind_eq_ok.1 h
          cases hfield : Field.ofKey? name with
          | some field =>
              simp only [hfield] at h
              split at h
              next => cases h
              next hfree =>
                  obtain ⟨_, start, hcolon, h⟩ := bind_eq_ok.1 h
                  obtain ⟨next, after, hnext, h⟩ := bind_eq_ok.1 h
                  obtain ⟨v, s, hv, hdecode, rfl⟩ := readField_eq_ok hnext
                  obtain ⟨given, hgiven, htakes⟩ := ih h
                  refine ⟨(field, v) :: given, ?_, .cons ?_ hdecode htakes⟩
                  · simp [hmore, hkey, hfield, hcolon, hv, hgiven]
                  · simpa [Draft.has_eq_isSome] using hfree
          | none =>
              simp only [hfield] at h
              obtain ⟨_, start, hcolon, h⟩ := bind_eq_ok.1 h
              obtain ⟨_, after, hskip, h⟩ := bind_eq_ok.1 h
              obtain ⟨given, hgiven, htakes⟩ := ih h
              refine ⟨given, ?_, htakes⟩
              simp [hmore, hkey, hfield, hcolon, hskip, hgiven]

/-- The values of fields are regular. -/
theorem gives_fieldsFrom (first : Bool) (fuel : Nat) :
    Gives (fieldsFrom first fuel) fun given => ∀ entry ∈ given, Regular fieldDepth entry.2 := by
  induction fuel generalizing first with
  | zero => exact .pure fun entry hentry => nomatch hentry
  | succ fuel ih =>
      refine .last fun more => .ite (fun _ => .last fun name => ?_) fun _ => .pure fun entry hentry => nomatch hentry
      cases Field.ofKey? name with
      | none => exact .last fun _ => .last fun _ => ih false
      | some field =>
          refine .last fun _ => fun before given after hread => ?_
          obtain ⟨v, between, hv, hread⟩ := bind_eq_ok.1 hread
          obtain ⟨others, _, hothers, hgiven⟩ := bind_eq_ok.1 hread
          cases hgiven
          exact List.forall_mem_cons.2 ⟨gives_value fieldDepth _ _ _ hv, ih false _ _ _ hothers⟩

end Values

/-! ### Documents -/

/-- What a field that may be missing or null stands for. -/
inductive Means {α : Type} (decode : Json → Option α) : Option Json → Option α → Prop
  | absent : Means decode none none
  | null : Means decode (some .null) none
  | given {v : Json} {a : α} (hvalue : v ≠ .null) (hdecode : decode v = some a) : Means decode (some v) (some a)

theorem means_of_slot {α : Type} {decode : Json → Option α} {v : Option Json} {slot : Option (Option α)}
    (h : Option.Rel (fun v s => orNull decode v = some s) v slot) : Means decode v slot.join := by
  cases h with
  | none => exact .absent
  | @some v s h =>
      by_cases hvalue : v = .null
      · subst hvalue
        cases h
        exact .null
      · rw [orNull.eq_2 decode v hvalue] at h
        obtain ⟨a, ha, rfl⟩ := Option.map_eq_some_iff.1 h
        exact .given hvalue ha

/-- A package is what the fields of its document mean. -/
structure Matches (package : Package) (given : List (Field × Json)) : Prop where
  name : given.lookup .name = some (.string package.name)
  displayName : Means string? (given.lookup .displayName) package.displayName
  author : Means authorOf? (given.lookup .author) package.author
  description : Means string? (given.lookup .description) package.description
  version : Means string? (given.lookup .version) package.version
  dependencies : Means (fun v => some v.settle) (given.lookup .dependencies) package.dependencies
  main : given.lookup .main = some (.string package.main)

theorem string_of_slot {v : Option Json} {s : String} (h : Option.Rel (fun v s => string? v = some s) v (some s)) :
    v = some (.string s) := by
  cases h with
  | @some v _ h =>
      cases v <;> cases h
      rfl

theorem Draft.Takes.matches {given : List (Field × Json)} {draft : Draft} (h : Draft.Takes {} given draft)
    {name main : String} (hname : draft.name = some name) (hmain : draft.main = some main) :
    Matches {
      name, main
      displayName := draft.displayName.join
      author := draft.author.join
      description := draft.description.join
      version := draft.version.join
      dependencies := draft.dependencies.join } given where
  name := string_of_slot (hname ▸ h.slots .name rfl)
  displayName := means_of_slot (h.slots .displayName rfl)
  author := means_of_slot (h.slots .author rfl)
  description := means_of_slot (h.slots .description rfl)
  version := means_of_slot (h.slots .version rfl)
  dependencies := means_of_slot (h.slots .dependencies rfl)
  main := string_of_slot (hmain ▸ h.slots .main rfl)

theorem finish_eq_ok {draft : Draft} {missing : Field → Fault} {package : Package} {text rest : List Char}
    (h : draft.finish (fun field => fail (missing field)) text = .ok package rest) :
    rest = text ∧ ∀ {given}, Draft.Takes {} given draft → Matches package given := by
  rw [Draft.finish] at h
  cases hname : draft.name with
  | none =>
      rw [hname] at h
      cases h
  | some name =>
      cases hmain : draft.main with
      | none =>
          rw [hname, hmain] at h
          cases h
      | some main =>
          rw [hname, hmain] at h
          cases h
          exact ⟨rfl, fun htakes => htakes.matches hname hmain⟩

/-- A package that was read from an object is what the fields of the object mean. -/
theorem parse_given {text : String} {package : Package} (h : parse text = .ok package)
    (hobject : (text.toList.dropWhile isSpace).head? = some '\x7b') :
    ∃ given, given? text = some given ∧ Matches package given := by
  simp only [parse] at h
  split at h
  next found rest hread =>
      cases h
      obtain ⟨found, behind, hdocument, hread⟩ := bind_eq_ok.1 hread
      obtain ⟨_, last, hend, hread⟩ := bind_eq_ok.1 hread
      cases hread
      obtain ⟨left, hleft⟩ := List.head?_eq_some_iff.1 hobject
      rw [readDocument, located_eq_ok, run_bind, run_peekValue, hleft] at hdocument
      obtain ⟨_, start, hskip, hdocument⟩ := bind_eq_ok.1 hdocument
      cases hskip
      obtain ⟨_, _, hget, hdocument⟩ := bind_eq_ok.1 hdocument
      cases hget
      obtain ⟨between, hbody, hclose⟩ := enclosed_eq_ok.1 hdocument
      obtain ⟨draft, after, hmembers, hfinish⟩ := bind_eq_ok.1 hbody
      obtain ⟨rfl, hmatches⟩ := finish_eq_ok hfinish
      obtain ⟨given, hgiven, htakes⟩ := readMembers_takes hmembers
      refine ⟨given, ?_, hmatches htakes⟩
      have hfields : enclosed (fieldsFrom true (left.length + 1)) objectEnd left = .ok given behind :=
        run_enclosed hgiven hclose
      simp [given?, readGiven, hleft, hfields, hend]
  next => cases h

/-- The values that a document gives are regular. -/
theorem regular_of_given {text : String} {given : List (Field × Json)} (h : given? text = some given) {field : Field}
    {v : Json} (hfield : given.lookup field = some v) : Regular fieldDepth v := by
  have hgives : Gives readGiven fun given => ∀ entry ∈ given, Regular fieldDepth entry.2 := by
    refine .last fun _ => .last fun _ => .last fun left => fun text given rest hread => ?_
    obtain ⟨fields, between, hfields, hread⟩ := bind_eq_ok.1 hread
    obtain ⟨_, _, _, hread⟩ := bind_eq_ok.1 hread
    cases hread
    obtain ⟨_, hfields, -⟩ := enclosed_eq_ok.1 hfields
    exact gives_fieldsFrom true _ _ _ _ hfields
  rw [given?] at h
  split at h
  next given' rest hread =>
      cases h
      obtain ⟨before, behind, rfl, -⟩ := List.lookup_eq_some_iff.1 hfield
      exact hgives _ _ _ hread (field, v) (List.mem_append_right _ List.mem_cons_self)
  next => cases h

end ModPackager.Package
