import Mathlib.Data.List.Infix
import Mathlib.Order.Bounds.Defs
import ModPackager.Lua.LongString

/-!
# Reading embedded scripts back

A long bracket is read by the rules of Lua: the opening bracket tells its level, one line break right behind
it is dropped, and the first closing bracket of the same level ends the string. Every line break inside is
read as a line feed.

The level that a script is embedded at is the least one whose closing bracket does not occur in the script
(`bracketLevel_least`). The search for it ends, since closing brackets of different levels that all occur need
a script that is longer than the last one of them. So the bracket behind an embedded script is the first one
that closes it, and the string is read back as the script and a line feed (`embed_reads_back`).
-/

namespace ModPackager.Lua

open Text

variable {body text rest : List Char} {level fuel : Nat}

/-! ### Long brackets -/

/-- Reads an opening long bracket: its level, and what follows. -/
def opening? : List Char → Option (Nat × List Char)
  | '[' :: rest =>
    match rest.dropWhile (· == '=') with
    | '[' :: inside => some ((rest.takeWhile (· == '=')).length, inside)
    | _ => none
  | _ => none

/-- Drops a line break, if one is there. Two different characters of a break in a row are one break. -/
def dropBreak : List Char → List Char
  | '\r' :: '\n' :: rest => rest
  | '\n' :: '\r' :: rest => rest
  | '\r' :: rest => rest
  | '\n' :: rest => rest
  | text => text

/-- Reads what a long bracket of a level encloses, up to the first closing bracket of that level, and gives
what follows. A bracket that is not closed encloses nothing. -/
def enclosed? (level : Nat) : List Char → Option (List Char × List Char)
  | [] => none
  | '\r' :: '\n' :: rest => (enclosed? level rest).map (Prod.map ('\n' :: ·) id)
  | '\n' :: '\r' :: rest => (enclosed? level rest).map (Prod.map ('\n' :: ·) id)
  | '\r' :: rest => (enclosed? level rest).map (Prod.map ('\n' :: ·) id)
  | c :: rest =>
    if closing level <+: c :: rest then some ([], (c :: rest).drop (closing level).length)
    else (enclosed? level rest).map (Prod.map (c :: ·) id)

/-- Reads a long bracket: its level, the string that it stands for, and what follows. -/
def longString? (text : List Char) : Option (Nat × List Char × List Char) := do
  let (level, inside) ← opening? text
  let (contents, rest) ← enclosed? level (dropBreak inside)
  some (level, contents, rest)

/-! ### The search for a level -/

/-- Raising a level while its closing bracket occurs ends at some level. -/
inductive RaisesTo (body : List Char) : Nat → Nat → Prop
  | stop {level : Nat} : ¬ closing level <:+: body → RaisesTo body level level
  | raise {level last : Nat} : closing level <:+: body → RaisesTo body (level + 1) last →
      RaisesTo body level last

theorem occurs_iff {needle : List Char} : occurs needle text = true ↔ needle <:+: text := by
  induction text with
  | nil => simp [occurs]
  | cons c rest ih => simp [occurs, ih, List.infix_cons_iff]

theorem length_closing : (closing level).length = level + 2 := by
  simp [closing]

/-- With enough fuel the search raises the level to its end. -/
theorem raisesTo_searchLevel (h : body.length < level + fuel + 2) :
    RaisesTo body level (searchLevel body fuel level) := by
  induction fuel generalizing level with
  | zero =>
      refine .stop fun hoccurs => ?_
      have hlength := hoccurs.length_le
      rw [length_closing] at hlength
      omega
  | succ fuel ih =>
      unfold searchLevel
      split
      next hoccurs => exact .raise (occurs_iff.1 hoccurs) (ih (by omega))
      next hoccurs => exact .stop fun h => hoccurs (occurs_iff.2 h)

theorem raisesTo_bracketLevel (body : List Char) : RaisesTo body 1 (bracketLevel body) :=
  raisesTo_searchLevel (by omega)

namespace RaisesTo

variable {first last : Nat} (h : RaisesTo body first last)

include h

theorem le : first ≤ last := by
  induction h with
  | stop _ => exact le_rfl
  | raise _ _ ih => omega

theorem not_occurs : ¬ closing last <:+: body := by
  induction h with
  | stop hlast => exact hlast
  | raise _ _ ih => exact ih

theorem occurs_below (hfirst : first ≤ level) (hlast : level < last) : closing level <:+: body := by
  induction h with
  | stop _ => omega
  | @raise first _ hoccurs _ ih =>
      rcases Nat.eq_or_lt_of_le hfirst with rfl | hlevel
      · exact hoccurs
      · exact ih hlevel hlast

end RaisesTo

/-! ### The level of a script -/

theorem bracketLevel_least (body : List Char) :
    IsLeast {level | 1 ≤ level ∧ ¬ closing level <:+: body} (bracketLevel body) := by
  have hsearch := raisesTo_bracketLevel body
  refine ⟨⟨hsearch.le, hsearch.not_occurs⟩, fun level hlevel => ?_⟩
  by_contra hless
  exact hlevel.2 (hsearch.occurs_below hlevel.1 (Nat.lt_of_not_le hless))

theorem bracketLevel_le (body : List Char) : bracketLevel body ≤ max 1 body.length := by
  by_contra hlarge
  have hbelow : closing (bracketLevel body - 1) <:+: body :=
    (raisesTo_bracketLevel body).occurs_below (by omega) (by omega)
  have hlength := hbelow.length_le
  rw [length_closing] at hlength
  omega

/-! ### What is read back -/

theorem not_mem_closing : '\n' ∉ closing level := by
  simp [closing]

theorem opening?_append (level : Nat) (inside : List Char) :
    opening? (opening level ++ inside) = some (level, inside) := by
  have hequals : ∀ c ∈ List.replicate level '=', (c == '=') = true := by simp
  have hafter : opening level ++ inside = '[' :: (List.replicate level '=' ++ '[' :: inside) := by simp [opening]
  rw [hafter, opening?, List.dropWhile_append_of_pos hequals, List.takeWhile_append_of_pos hequals]
  simp

/-- A bracket that does not occur in a text does not begin in it either, if a line feed follows the text. -/
theorem not_closing_prefix (h : ¬ closing level <:+: text) :
    ¬ closing level <+: text ++ '\n' :: rest := by
  intro hprefix
  rcases List.prefix_or_prefix_of_prefix hprefix (List.prefix_append text _) with hinside | ⟨more, hmore⟩
  · exact h hinside.isInfix
  · rw [← hmore, List.prefix_append_right_inj] at hprefix
    cases more with
    | nil => exact h ⟨[], [], by simpa using hmore.symm⟩
    | cons c more =>
        obtain ⟨rfl, -⟩ := List.cons_prefix_cons.1 hprefix
        have hfree : '\n' ∉ closing level := not_mem_closing
        exact hfree (hmore ▸ by simp)

theorem enclosed?_closing (level : Nat) (rest : List Char) :
    enclosed? level (closing level ++ rest) = some ([], rest) := by
  have hcons : closing level ++ rest = ']' :: (List.replicate level '=' ++ [']'] ++ rest) := rfl
  have hprefix : closing level <+: closing level ++ rest := List.prefix_append _ _
  rw [hcons] at hprefix
  rw [hcons, enclosed?, if_pos hprefix, ← hcons, List.drop_left]
  all_goals simp

/-- A character that is no line break and does not begin the closing bracket stands for itself. -/
theorem enclosed?_cons {c : Char} (hreturn : c ≠ '\r') (hbreak : c = '\n' → text.head? ≠ some '\r')
    (hcloses : ¬ closing level <+: c :: text) :
    enclosed? level (c :: text) = (enclosed? level text).map (Prod.map (c :: ·) id) := by
  rw [enclosed?, if_neg hcloses]
  all_goals grind

/-- A line feed that no carriage return follows is dropped alone. -/
theorem dropBreak_lineFeed (h : text.head? ≠ some '\r') : dropBreak ('\n' :: text) = text := by
  rw [dropBreak]
  rintro rest rfl
  simp at h

theorem head?_append_ne (h : '\r' ∉ text) : (text ++ '\n' :: rest).head? ≠ some '\r' := by
  cases text with
  | nil => simp
  | cons c text => simpa using (List.ne_and_not_mem_of_not_mem_cons h).1.symm

/-- A text in which no carriage return and no closing bracket occurs is read up to the bracket behind it. -/
theorem enclosed?_append (hreturn : '\r' ∉ body) (hcloses : ¬ closing level <:+: body) :
    enclosed? level (body ++ '\n' :: (closing level ++ rest)) = some (body ++ ['\n'], rest) := by
  induction body with
  | nil =>
      have hlast : ¬ closing level <+: '\n' :: (closing level ++ rest) := by simp [closing]
      rw [List.nil_append, enclosed?_cons (by decide) (by simp [closing]) hlast, enclosed?_closing]
      rfl
  | cons c body ih =>
      have hhere : ¬ closing level <+: (c :: body) ++ '\n' :: (closing level ++ rest) := not_closing_prefix hcloses
      have hbehind : ¬ closing level <:+: body := fun hoccurs => hcloses (List.infix_cons hoccurs)
      obtain ⟨hc, hbody⟩ := List.ne_and_not_mem_of_not_mem_cons hreturn
      rw [List.cons_append, enclosed?_cons (Ne.symm hc) (fun _ => head?_append_ne hbody) hhere, ih hbody hbehind]
      rfl

/-- An embedded script is assigned at the least level whose closing bracket does not occur in it, which the
search reaches, and without carriage returns it is read back with a line feed at its end. -/
theorem embed_reads_back (modPrefix stem body : String) :
    RaisesTo body.toList 1 (bracketLevel body.toList)
      ∧ IsLeast {level | 1 ≤ level ∧ ¬ closing level <:+: body.toList} (bracketLevel body.toList)
      ∧ bracketLevel body.toList ≤ max 1 body.toList.length
      ∧ ∃ bracket, embed modPrefix stem body = globalName modPrefix stem ++ " = " ++ String.ofList bracket
        ∧ opening (bracketLevel body.toList) <+: bracket
        ∧ ('\r' ∉ body.toList →
          longString? bracket = some (bracketLevel body.toList, body.toList ++ ['\n'], ['\n'])) := by
  have hleast := bracketLevel_least body.toList
  refine ⟨raisesTo_bracketLevel _, hleast, bracketLevel_le _, ?_⟩
  generalize hlevel : bracketLevel body.toList = level at hleast ⊢
  refine ⟨opening level ++ '\n' :: (body.toList ++ '\n' :: (closing level ++ ['\n'])), ?_,
    List.prefix_append _ _, fun hreturn => ?_⟩
  · apply String.toList_injective
    simp [embed, hlevel]
  · have hread : enclosed? level (body.toList ++ '\n' :: (closing level ++ ['\n']))
        = some (body.toList ++ ['\n'], ['\n']) := enclosed?_append hreturn hleast.1.2
    simp only [longString?, opening?_append, dropBreak_lineFeed (head?_append_ne hreturn), hread,
      Option.bind_eq_bind, Option.bind_some]

/-- A script that holds a long string itself is embedded one level higher. -/
theorem embed_reads_back_nested :
    '\r' ∉ "x = [=[a]=]".toList ∧ bracketLevel "x = [=[a]=]".toList = 2
      ∧ ∃ bracket, embed "m" "s" "x = [=[a]=]" = globalName "m" "s" ++ " = " ++ String.ofList bracket
        ∧ longString? bracket = some (2, "x = [=[a]=]\n".toList, ['\n']) := by
  have hlevel : bracketLevel "x = [=[a]=]".toList = 2 := by decide
  obtain ⟨-, -, -, bracket, hbracket, -, hread⟩ := embed_reads_back "m" "s" "x = [=[a]=]"
  rw [hlevel] at hread
  exact ⟨by decide, hlevel, bracket, hbracket, hread (by decide)⟩

end ModPackager.Lua
