import Mathlib.Data.List.Infix
import ModPackager.Toml.Document

/-!
# Strings and keys that are written without escapes

A text without quotes, backslashes and control characters is read back from between two quotes as it is
(`string?_quoted`). Between three quotes a text may hold line feeds, and quotes as long as no three of them
meet (`string?_block`): the reader looks for three quotes at every character and takes up to five of them at
once, so one or two quotes at the end of the text belong to it, and at its start they cannot be mistaken for
the end.
-/

namespace ModPackager.Toml

variable {text rest name : List Char}

/-! ### Texts that need no escapes -/

/-- A control character, which may not stand in a string as it is. The tab is one of them. -/
def IsControl (c : Char) : Prop := c.toNat < 32 ∨ c.toNat = 127

instance (c : Char) : Decidable (IsControl c) := inferInstanceAs (Decidable (_ ∨ _))

/-- A text that may stand between two quotes as it is. -/
structure Quotable (text : List Char) : Prop where
  quote : '"' ∉ text
  backslash : '\\' ∉ text
  control : ∀ c ∈ text, IsControl c → c = '\t'

/-- A text that may stand between three quotes as it is, except for a line feed at its start. -/
structure Blockable (text : List Char) : Prop where
  quotes : ¬ ['"', '"', '"'] <:+: text
  backslash : '\\' ∉ text
  control : ∀ c ∈ text, IsControl c → c = '\t' ∨ c = '\n'

/-- A name that may stand as a key without quotes. -/
structure BareKey (name : List Char) : Prop where
  nonempty : name ≠ []
  bare : ∀ c ∈ name, isBare c = true

theorem isPlain_iff {c : Char} : isPlain c = true ↔ (IsControl c → c = '\t') := by
  simp only [isPlain, IsControl, Bool.or_eq_true, Bool.and_eq_true, beq_iff_eq, decide_eq_true_eq, bne_iff_ne]
  by_cases htab : c = '\t'
  · simp [htab]
  · simp only [htab, false_or, imp_false, not_or]
    omega

theorem isPlain_or_iff {c : Char} : (isPlain c || c == '\n') = true ↔ (IsControl c → c = '\t' ∨ c = '\n') := by
  rw [Bool.or_eq_true, isPlain_iff, beq_iff_eq]
  by_cases hfeed : c = '\n' <;> simp [hfeed]

instance (text : List Char) : Decidable (Quotable text) :=
  decidable_of_iff ('"' ∉ text ∧ '\\' ∉ text ∧ text.all isPlain = true)
    ⟨fun h => ⟨h.1, h.2.1, fun c hc => isPlain_iff.1 (List.all_eq_true.1 h.2.2 c hc)⟩,
      fun h => ⟨h.quote, h.backslash, List.all_eq_true.2 fun c hc => isPlain_iff.2 (h.control c hc)⟩⟩

instance (text : List Char) : Decidable (Blockable text) :=
  decidable_of_iff (¬ ['"', '"', '"'] <:+: text ∧ '\\' ∉ text ∧ text.all (fun c => isPlain c || c == '\n') = true)
    ⟨fun h => ⟨h.1, h.2.1, fun c hc => isPlain_or_iff.1 (List.all_eq_true.1 h.2.2 c hc)⟩,
      fun h => ⟨h.quotes, h.backslash, List.all_eq_true.2 fun c hc => isPlain_or_iff.2 (h.control c hc)⟩⟩

instance (name : List Char) : Decidable (BareKey name) :=
  decidable_of_iff (name ≠ [] ∧ name.all isBare = true)
    ⟨fun h => ⟨h.1, List.all_eq_true.1 h.2⟩, fun h => ⟨h.nonempty, List.all_eq_true.2 h.bare⟩⟩

namespace Quotable

variable {c : Char}

theorem head (h : Quotable (c :: text)) : c ≠ '"' ∧ c ≠ '\\' ∧ isPlain c = true :=
  ⟨fun hc => h.quote (by simp [hc]), fun hc => h.backslash (by simp [hc]),
    isPlain_iff.2 (h.control c List.mem_cons_self)⟩

theorem tail (h : Quotable (c :: text)) : Quotable text where
  quote := fun hmem => h.quote (List.mem_cons_of_mem _ hmem)
  backslash := fun hmem => h.backslash (List.mem_cons_of_mem _ hmem)
  control := fun d hd => h.control d (List.mem_cons_of_mem _ hd)

theorem append {more : List Char} (htext : Quotable text) (hmore : Quotable more) : Quotable (text ++ more) where
  quote := by simp [htext.quote, hmore.quote]
  backslash := by simp [htext.backslash, hmore.backslash]
  control := fun c hc => (List.mem_append.1 hc).elim (htext.control c) (hmore.control c)

end Quotable

namespace Blockable

variable {c : Char}

theorem head (h : Blockable (c :: text)) : c ≠ '\\' ∧ c ≠ '\r' ∧ (isPlain c = true ∨ c = '\n') := by
  have hcontrol := h.control c List.mem_cons_self
  refine ⟨fun hc => h.backslash (by simp [hc]), ?_, ?_⟩
  · rintro rfl
    exact absurd (hcontrol (by decide)) (by decide)
  · by_cases hfeed : c = '\n'
    · exact .inr hfeed
    · exact .inl (isPlain_iff.2 fun hc => (hcontrol hc).resolve_right hfeed)

theorem tail (h : Blockable (c :: text)) : Blockable text where
  quotes := fun hquotes => h.quotes (List.infix_cons hquotes)
  backslash := fun hmem => h.backslash (List.mem_cons_of_mem _ hmem)
  control := fun d hd => h.control d (List.mem_cons_of_mem _ hd)

end Blockable

/-! ### Strings -/

/-- A character without a meaning of its own stands for itself in a string. -/
theorem basicText_cons {c : Char} (hquote : c ≠ '"') (hbackslash : c ≠ '\\') (hplain : isPlain c = true) :
    basicText (c :: text) = cons c (basicText text) := by
  rw [basicText] <;> simp_all

theorem basicText_append (h : Quotable text) : basicText (text ++ '"' :: rest) = some (text, rest) := by
  induction text with
  | nil => rw [List.nil_append, basicText] <;> simp
  | cons c text ih =>
      obtain ⟨hquote, hbackslash, hplain⟩ := h.head
      rw [List.cons_append, basicText_cons hquote hbackslash hplain, ih h.tail]
      rfl

/-- A character stands for itself in a string of several lines, unless three quotes begin with it. -/
theorem basicBlock_cons {c : Char} (hquotes : ¬ ['"', '"', '"'] <+: c :: text) (hbackslash : c ≠ '\\')
    (hreturn : c ≠ '\r') (hplain : isPlain c = true ∨ c = '\n') :
    basicBlock false (c :: text) = cons c (basicBlock false text) := by
  rw [basicBlock]
  · simp [hplain]
  all_goals intros
  all_goals simp_all

/-- Three quotes behind a text that holds no three end it where the text ends. -/
theorem quotes_prefix_append (h : ¬ ['"', '"', '"'] <:+: text) (hne : text ≠ [])
    (hthree : ['"', '"', '"'] <+: text ++ '"' :: '"' :: '"' :: rest) : text = ['"'] ∨ text = ['"', '"'] := by
  match text with
  | [] => exact absurd rfl hne
  | [a] =>
      obtain ⟨rfl, -⟩ := List.cons_prefix_cons.1 hthree
      exact .inl rfl
  | [a, b] =>
      have hfirst := List.cons_prefix_cons.1 hthree
      have hsecond := List.cons_prefix_cons.1 hfirst.2
      exact .inr (by rw [← hfirst.1, ← hsecond.1])
  | a :: b :: c :: text =>
      simp only [List.cons_append, List.cons_prefix_cons] at hthree
      obtain ⟨rfl, rfl, rfl, -⟩ := hthree
      exact absurd ⟨[], text, by simp⟩ h

theorem basicBlock_append (h : Blockable text) (hrest : rest.head? ≠ some '"') :
    basicBlock false (text ++ '"' :: '"' :: '"' :: rest) = some (text, rest) := by
  induction text with
  | nil =>
      rw [List.nil_append, basicBlock]
      all_goals rintro rest' rfl
      all_goals simp at hrest
  | cons c text ih =>
      by_cases hprefix : ['"', '"', '"'] <+: (c :: text) ++ '"' :: '"' :: '"' :: rest
      · -- The text is one or two quotes, which the reader takes together with the three that end it.
        rcases quotes_prefix_append h.quotes (by simp) hprefix with hone | htwo
        · rw [hone, List.cons_append, List.nil_append, basicBlock]
          rintro rest' hrest'
          simp_all
        · rw [htwo, List.cons_append, List.cons_append, List.nil_append, basicBlock]
      · obtain ⟨hbackslash, hreturn, hplain⟩ := h.head
        rw [List.cons_append] at hprefix ⊢
        rw [basicBlock_cons hprefix hbackslash hreturn hplain, ih h.tail]
        rfl

/-- A text between two quotes is read as it is. -/
theorem string?_quoted (h : Quotable text) (hrest : rest.head? ≠ some '"') :
    string? ('"' :: (text ++ '"' :: rest)) = some (text, rest) := by
  rw [string?, basicText_append h]
  rintro rest' htriple
  cases text with
  | nil => simp_all
  | cons c text => exact h.head.1 (List.cons_eq_cons.1 htriple).1

/-- A text between three quotes is read as it is, unless it begins with a line feed. -/
theorem string?_block (h : Blockable text) (hfeed : text.head? ≠ some '\n') (hrest : rest.head? ≠ some '"') :
    string? ('"' :: '"' :: '"' :: (text ++ '"' :: '"' :: '"' :: rest)) = some (text, rest) := by
  have hkept : lineEnd? (text ++ '"' :: '"' :: '"' :: rest) = none := by
    cases text with
    | nil => rfl
    | cons c text =>
        have hreturn := h.head.2.1
        rw [List.cons_append, lineEnd?] <;> simp_all
  rw [string?, dropFirstLineEnd, hkept, Option.getD_none, basicBlock_append h hrest]

/-! ### Keys -/

theorem isGap_of_isBare {c : Char} (h : isBare c = true) : isGap c = false := by
  rw [Bool.eq_false_iff]
  intro hgap
  simp only [isGap, Bool.or_eq_true, beq_iff_eq] at hgap
  rcases hgap with rfl | rfl <;> exact absurd h (by decide)

theorem BareKey.head {c : Char} (h : BareKey (c :: name)) : isBare c = true :=
  h.bare c List.mem_cons_self

/-- What begins with a key does not begin with a gap. -/
theorem BareKey.dropGaps (h : BareKey name) (rest : List Char) : dropGaps (name ++ rest) = name ++ rest := by
  cases name with
  | nil => exact absurd rfl h.nonempty
  | cons c name => simp [Toml.dropGaps, isGap_of_isBare h.head]

/-- A key is read up to the first character that cannot stand in it. -/
theorem BareKey.keyPart? (h : BareKey name) (hrest : ∀ c ∈ rest.head?, isBare c = false) :
    keyPart? (name ++ rest) = some (name, rest) := by
  have htake : (name ++ rest).takeWhile isBare = name := by
    rw [List.takeWhile_append_of_pos h.bare]
    cases rest <;> simp_all
  have hdrop : (name ++ rest).dropWhile isBare = rest := by
    rw [List.dropWhile_append_of_pos h.bare]
    cases rest <;> simp_all
  cases name with
  | nil => exact absurd rfl h.nonempty
  | cons c name =>
      have hquotes : c ≠ '"' ∧ c ≠ '\x27' := by
        constructor <;> (rintro rfl; exact absurd h.head (by decide))
      rw [List.cons_append] at htake hdrop ⊢
      rw [Toml.keyPart?, htake, hdrop] <;> simp_all

/-- A key that a dot does not follow is the last part of a dotted key. -/
theorem BareKey.keyParts_last (h : BareKey name) (fuel : Nat) (hrest : ∀ c ∈ rest.head?, isBare c = false)
    (hdot : (Toml.dropGaps rest).head? ≠ some '.') :
    ∃ span, keyParts (fuel + 1) (name ++ rest) = some ([⟨String.ofList name, span⟩], Toml.dropGaps rest) := by
  refine ⟨⟨(name ++ rest).length, rest.length⟩, ?_⟩
  simp only [keyParts, h.dropGaps, h.keyPart? hrest, Option.bind_eq_bind, Option.bind_some]
  split
  next more hmore => simp [hmore] at hdot
  next => rfl

/-- A key that a dot follows leads to what is read behind the dot. -/
theorem BareKey.keyParts_dot (h : BareKey name) (fuel : Nat) (rest : List Char) :
    ∃ span, keyParts (fuel + 1) (name ++ '.' :: rest)
      = (keyParts fuel rest).map (Prod.map (⟨String.ofList name, span⟩ :: ·) id) := by
  have hdot : ∀ c ∈ ('.' :: rest).head?, isBare c = false := by
    rintro c ⟨⟩
    decide
  refine ⟨⟨(name ++ '.' :: rest).length, ('.' :: rest).length⟩, ?_⟩
  have hgaps : Toml.dropGaps ('.' :: rest) = '.' :: rest := rfl
  simp only [keyParts, h.dropGaps, h.keyPart? hdot, hgaps, Option.bind_eq_bind, Option.bind_some]
  cases keyParts fuel rest <;> rfl

end ModPackager.Toml
