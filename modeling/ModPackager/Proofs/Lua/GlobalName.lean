import Mathlib
import ModPackager.Project.Metadata
import ModPackager.Proofs.AuxScript.Discovery

/-!
# The globals of embedded scripts

A chunk that embeds a script begins with the name of the global that it assigns (`firstWord_embed`). The name is made
of two texts, character by character: letters become upper case, and whatever is no letter and no digit becomes an
underscore. So all of it may stand in a name of Lua, and it is one unless the name of the mod begins with a digit
(`isName_globalName`). What the two texts differ in may be lost on the way: two scripts of a mod have one global just
if their stems are alike, character by character (`globalName_eq_iff`).
-/

namespace ModPackager

open FileSystem FileAction

namespace Lua

variable {modPrefix stem other : String} {c d : Char}

/-! ### Names -/

/-- Whether a character may stand in a name. -/
def isWordChar (c : Char) : Bool := c.isAlphanum || c == '_'

/-- A text that is read as one name: a letter or an underscore, and then letters, digits and underscores. -/
def IsName : List Char → Prop
  | [] => False
  | first :: more => (first.isAlpha = true ∨ first = '_') ∧ ∀ c ∈ more, isWordChar c = true

instance : DecidablePred IsName
  | [] => inferInstanceAs (Decidable False)
  | _ :: _ => inferInstanceAs (Decidable (_ ∧ _))

/-- The word that a chunk begins with. -/
def firstWord (chunk : String) : List Char := chunk.toList.takeWhile isWordChar

/-- Characters that names do not tell apart: the two cases of a letter, and whatever is no letter and no digit. -/
def Alike (c d : Char) : Prop :=
  c = d ∨ c.isAlpha = true ∧ d.isAlpha = true ∧ c.toLower = d.toLower ∨ c.isAlphanum = false ∧ d.isAlphanum = false

/-! ### Single characters -/

/-- What a character becomes in a name. -/
def nameChar (c : Char) : Char := if isWordChar c then c.toUpper else '_'

theorem nameChar_of_isAlpha (h : c.isAlpha = true) : nameChar c = c.toUpper := by
  simp [nameChar, isWordChar, Char.isAlphanum, h]

theorem not_isAlpha_of_isDigit (h : c.isDigit = true) : c.isAlpha = false := by
  simp only [Char.isDigit, Char.isAlpha, Char.isUpper, Char.isLower, UInt32.le_iff_toNat_le] at h ⊢
  grind

theorem nameChar_of_isDigit (h : c.isDigit = true) : nameChar c = c := by
  have hlower : ¬ c.isLower = true := fun hlower => by
    have halpha := not_isAlpha_of_isDigit h
    simp [Char.isAlpha, hlower] at halpha
  simp [nameChar, isWordChar, Char.isAlphanum, h, Char.toUpper_eq_of_not_isLower hlower]

theorem nameChar_of_not_isAlphanum (h : c.isAlphanum = false) : nameChar c = '_' := by
  by_cases hc : c = '_'
  · subst hc
    rfl
  · simp [nameChar, isWordChar, h, hc]

/-- A character is a letter, or a digit, or neither. -/
theorem char_cases (c : Char) : c.isAlpha = true ∨ c.isDigit = true ∨ c.isAlphanum = false := by
  cases halpha : c.isAlpha <;> cases hdigit : c.isDigit <;> simp [Char.isAlphanum, halpha, hdigit]

theorem isAlpha_nameChar (h : c.isAlpha = true) : (nameChar c).isAlpha = true := by
  rw [nameChar_of_isAlpha h, Char.isAlpha_toUpper_eq_isAlpha, h]

theorem isWordChar_nameChar (c : Char) : isWordChar (nameChar c) = true := by
  rcases char_cases c with h | h | h
  · simp [isWordChar, Char.isAlphanum, isAlpha_nameChar h]
  · simp [isWordChar, Char.isAlphanum, nameChar_of_isDigit h, h]
  · rw [nameChar_of_not_isAlphanum h]
    rfl

/-- Two characters become the same just if they are alike. -/
theorem nameChar_eq_iff : nameChar c = nameChar d ↔ Alike c d := by
  constructor
  · intro h
    -- A letter becomes a letter, a digit stays and all else becomes an underscore, so both are of one of these sorts.
    rcases char_cases c with hc | hc | hc <;> rcases char_cases d with hd | hd | hd
    · rw [nameChar_of_isAlpha hc, nameChar_of_isAlpha hd] at h
      exact .inr (.inl ⟨hc, hd, by simpa using congrArg Char.toLower h⟩)
    · have halpha := isAlpha_nameChar hc
      rw [h, nameChar_of_isDigit hd, not_isAlpha_of_isDigit hd] at halpha
      cases halpha
    · have halpha := isAlpha_nameChar hc
      rw [h, nameChar_of_not_isAlphanum hd] at halpha
      cases halpha
    · have halpha := isAlpha_nameChar hd
      rw [← h, nameChar_of_isDigit hc, not_isAlpha_of_isDigit hc] at halpha
      cases halpha
    · exact .inl (by rwa [nameChar_of_isDigit hc, nameChar_of_isDigit hd] at h)
    · rw [nameChar_of_isDigit hc, nameChar_of_not_isAlphanum hd] at h
      subst h
      cases hc
    · have halpha := isAlpha_nameChar hd
      rw [← h, nameChar_of_not_isAlphanum hc] at halpha
      cases halpha
    · rw [nameChar_of_not_isAlphanum hc, nameChar_of_isDigit hd] at h
      subst h
      cases hd
    · exact .inr (.inr ⟨hc, hd⟩)
  · rintro (rfl | ⟨hc, hd, hlower⟩ | ⟨hc, hd⟩)
    · rfl
    · rw [nameChar_of_isAlpha hc, nameChar_of_isAlpha hd, ← Char.toUpper_toLower_eq_toUpper c, hlower,
        Char.toUpper_toLower_eq_toUpper]
    · rw [nameChar_of_not_isAlphanum hc, nameChar_of_not_isAlphanum hd]

/-! ### Whole names -/

theorem toList_identifierOf (name : String) : (identifierOf name).toList = name.toList.map nameChar := by
  simp [identifierOf, nameChar, isWordChar]

theorem toList_globalName (modPrefix stem : String) : (globalName modPrefix stem).toList
    = modPrefix.toList.map nameChar ++ '_' :: (stem.toList.map nameChar ++ "_CODE_STR".toList) := by
  simp [globalName, toList_identifierOf]

theorem isWordChar_of_mem_globalName (h : c ∈ (globalName modPrefix stem).toList) : isWordChar c = true := by
  have hending : ∀ c ∈ "_CODE_STR".toList, isWordChar c = true := List.all_eq_true.1 (by rfl)
  have hnames : ∀ text : List Char, ∀ c ∈ text.map nameChar, isWordChar c = true := fun text c hmem => by
    obtain ⟨d, -, rfl⟩ := List.mem_map.1 hmem
    exact isWordChar_nameChar d
  rw [toList_globalName] at h
  rcases List.mem_append.1 h with h | h
  · exact hnames _ c h
  · rcases List.mem_cons.1 h with rfl | h
    · rfl
    · exact (List.mem_append.1 h).elim (hnames _ c) (hending c)

/-- A chunk that embeds a script begins with the name of its global. -/
theorem firstWord_embed (modPrefix stem body : String) :
    firstWord (embed modPrefix stem body) = (globalName modPrefix stem).toList := by
  have htext : ∃ rest, (embed modPrefix stem body).toList = (globalName modPrefix stem).toList ++ ' ' :: rest :=
    ⟨_, by simp only [embed, String.toList_append, List.append_assoc]; rfl⟩
  obtain ⟨rest, htext⟩ := htext
  rw [firstWord, htext, List.takeWhile_append_of_pos fun c hc => isWordChar_of_mem_globalName hc,
    List.takeWhile_cons_of_neg (by decide), List.append_nil]

/-- The name of a global may be read as one, unless that of the mod begins with a digit. -/
theorem isName_globalName (h : ∀ c, modPrefix.toList.head? = some c → c.isDigit = false) :
    IsName (globalName modPrefix stem).toList := by
  have hword : ∀ c ∈ (globalName modPrefix stem).toList, isWordChar c = true := fun c =>
    isWordChar_of_mem_globalName
  rw [toList_globalName] at hword ⊢
  cases htext : modPrefix.toList with
  | nil =>
      rw [htext] at hword
      exact ⟨.inr rfl, fun c hc => hword c (List.mem_cons_of_mem _ hc)⟩
  | cons first more =>
      rw [htext] at hword
      refine ⟨?_, fun c hc => hword c (List.mem_cons_of_mem _ hc)⟩
      rcases char_cases first with hfirst | hfirst | hfirst
      · exact .inl (isAlpha_nameChar hfirst)
      · rw [h first (by rw [htext]; rfl)] at hfirst
        cases hfirst
      · exact .inr (nameChar_of_not_isAlphanum hfirst)

/-- Two scripts of a mod have one global just if their stems are alike. -/
theorem globalName_eq_iff : globalName modPrefix stem = globalName modPrefix other
    ↔ List.Forall₂ Alike stem.toList other.toList := by
  rw [← String.toList_inj, toList_globalName, toList_globalName, List.append_cancel_left_eq, List.cons.injEq,
    List.append_cancel_right_eq, ← List.forall₂_eq_eq_eq, List.forall₂_map_left_iff, List.forall₂_map_right_iff]
  simp only [true_and, nameChar_eq_iff]

end Lua

/-! ### The scripts of a directory -/

/-- The prefix of a mod begins with a digit just if its name does. -/
theorem head?_modPrefixOf (name : String) (h : ∀ c, name.toList.head? = some c → c.isDigit = false) (c : Char)
    (hc : (modPrefixOf name).toList.head? = some c) : c.isDigit = false := by
  rw [modPrefixOf, String.toList_map, List.head?_map] at hc
  obtain ⟨first, hfirst, rfl⟩ := Option.map_eq_some_iff.1 hc
  split
  · rfl
  · exact h first hfirst

/-- What two scripts of a directory are embedded as begins with names of Lua, unless the name of the package begins
with a digit. The scripts have different stems, and the two names are the same just if these are alike. -/
theorem embed_discoverJobs {fs : FileSystem} {auxDir root : Path} {job job' : Job} {jobs : List Job} (package : Package)
    (hname : ∀ c, package.name.toList.head? = some c → c.isDigit = false)
    (hjobs : discoverJobs fs auxDir root = .ok jobs) (hjob : job ∈ jobs) (hjob' : job' ∈ jobs) (hne : job ≠ job')
    (body body' : String) :
    let word := Lua.firstWord (Lua.embed (Metadata.ofPackage package).modPrefix job.stem body)
    let word' := Lua.firstWord (Lua.embed (Metadata.ofPackage package).modPrefix job'.stem body')
    Lua.IsName word ∧ Lua.IsName word' ∧ job.stem ≠ job'.stem
      ∧ (word = word' ↔ List.Forall₂ Lua.Alike job.stem.toList job'.stem.toList) := by
  have hprefix := head?_modPrefixOf package.name hname
  dsimp only
  rw [Lua.firstWord_embed, Lua.firstWord_embed, String.toList_inj]
  exact ⟨Lua.isName_globalName hprefix, Lua.isName_globalName hprefix, stem_ne_of_discoverJobs hjobs hjob hjob' hne,
    Lua.globalName_eq_iff⟩

/-- A project with two scripts whose names differ in a hyphen and an underscore, and one whose name differs from both. -/
def hyphenProject : FileSystem :=
  ofEntries ⟨"/w"⟩ [(["w"], .directory), (["w", "extra_lua"], .directory),
    (["w", "extra_lua", "a-b.ts"], .file "".toUTF8), (["w", "extra_lua", "a_b.ts"], .file "".toUTF8),
    (["w", "extra_lua", "é.ts"], .file "".toUTF8)]

/-- The jobs of that project. -/
def hyphenJobs : List Job := ["a-b.ts", "a_b.ts", "é.ts"].map (.ofName ⟨"/w/extra_lua"⟩ ⟨"/w/deploy/extra_lua"⟩)

theorem discoverJobs_hyphenProject : discoverJobs hyphenProject ⟨"/w/extra_lua"⟩ ⟨"/w/deploy"⟩ = .ok hyphenJobs := by
  have haux : hyphenProject.resolve true ⟨"/w/extra_lua"⟩ = .ok (.found ["w", "extra_lua"] .directory) :=
    resolve_of_canonical? (by decide +kernel) (by decide +kernel)
  exact discoverJobs_of_perm haux (by decide +kernel) (by decide +kernel) _

/-- A package that is named by a text alone. -/
def namedPackage (name : String) : Package where
  name := name
  main := "main.ts"

/-- Two scripts whose stems are not alike, embedded for a mod whose name begins with a hyphen. -/
theorem embed_discoverJobs_hyphenProject :
    let first := Job.ofName ⟨"/w/extra_lua"⟩ ⟨"/w/deploy/extra_lua"⟩ "a_b.ts"
    let second := Job.ofName ⟨"/w/extra_lua"⟩ ⟨"/w/deploy/extra_lua"⟩ "é.ts"
    (∀ c, (namedPackage "-mod").name.toList.head? = some c → c.isDigit = false)
      ∧ discoverJobs hyphenProject ⟨"/w/extra_lua"⟩ ⟨"/w/deploy"⟩ = .ok hyphenJobs
      ∧ first ∈ hyphenJobs ∧ second ∈ hyphenJobs ∧ first ≠ second
      ∧ Lua.IsName (Lua.firstWord (Lua.embed (Metadata.ofPackage (namedPackage "-mod")).modPrefix second.stem "x"))
      ∧ Lua.firstWord (Lua.embed (Metadata.ofPackage (namedPackage "-mod")).modPrefix first.stem "x")
        ≠ Lua.firstWord (Lua.embed (Metadata.ofPackage (namedPackage "-mod")).modPrefix second.stem "x") := by
  have hname : ∀ c, (namedPackage "-mod").name.toList.head? = some c → c.isDigit = false := by
    rintro c hc
    obtain rfl : '-' = c := Option.some.inj hc
    rfl
  have hne : Job.ofName ⟨"/w/extra_lua"⟩ ⟨"/w/deploy/extra_lua"⟩ "a_b.ts"
      ≠ Job.ofName ⟨"/w/extra_lua"⟩ ⟨"/w/deploy/extra_lua"⟩ "é.ts" := by decide +kernel
  obtain ⟨-, hvalid, -, hsame⟩ := embed_discoverJobs (namedPackage "-mod") hname discoverJobs_hyphenProject
    (by simp [hyphenJobs]) (by simp [hyphenJobs]) hne "x" "x"
  refine ⟨hname, discoverJobs_hyphenProject, by simp [hyphenJobs], by simp [hyphenJobs], hne, hvalid, ?_⟩
  -- The stems do not have the same length.
  intro heq
  exact absurd (hsame.1 heq).length_eq (by decide +kernel)

/-- Two scripts of one directory have the same global, so that one overwrites the string of the other; and the global of
a mod whose name begins with a digit is no name. -/
theorem embed_discoverJobs_alike :
    let first := Job.ofName ⟨"/w/extra_lua"⟩ ⟨"/w/deploy/extra_lua"⟩ "a-b.ts"
    let second := Job.ofName ⟨"/w/extra_lua"⟩ ⟨"/w/deploy/extra_lua"⟩ "a_b.ts"
    discoverJobs hyphenProject ⟨"/w/extra_lua"⟩ ⟨"/w/deploy"⟩ = .ok hyphenJobs
      ∧ first ∈ hyphenJobs ∧ second ∈ hyphenJobs ∧ first ≠ second
      ∧ Lua.firstWord (Lua.embed (Metadata.ofPackage (namedPackage "m")).modPrefix first.stem "x")
        = Lua.firstWord (Lua.embed (Metadata.ofPackage (namedPackage "m")).modPrefix second.stem "y")
      ∧ ¬ Lua.IsName (Lua.firstWord (Lua.embed (Metadata.ofPackage (namedPackage "1m")).modPrefix first.stem "x")) :=
  ⟨discoverJobs_hyphenProject, by simp [hyphenJobs], by simp [hyphenJobs], by decide +kernel, by decide +kernel,
    by decide +kernel⟩

end ModPackager
