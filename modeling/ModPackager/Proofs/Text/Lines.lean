import Mathlib.Data.List.DropRight
import ModPackager.Text.Lines

/-!
# What cutting, joining and trimming do to a text

A text that is put together from lines is cut into the same lines again (`lines_append`, `piecesAt_join`), as
long as no line holds a line feed and none ends with a carriage return. Trimming a text that is joined from
trimmed lines drops its empty first and last lines and keeps the others as they are (`trim_join`). Trimming at
the end is trimming the reversed text at the start, so only one end needs an induction.
-/

namespace ModPackager.Text

variable {text line rest : List Char} {parts : List (List Char)} {separator : Char}

/-! ### Trimming -/

theorem trimEnd_eq_rdropWhile (text : List Char) : trimEnd text = text.rdropWhile isBlank := rfl

theorem suffix_trimStart (text : List Char) : trimStart text <:+ text :=
  List.dropWhile_suffix _

theorem prefix_trimEnd (text : List Char) : trimEnd text <+: text :=
  List.rdropWhile_prefix _ _

theorem infix_trim (text : List Char) : trim text <:+: text :=
  (prefix_trimEnd _).isInfix.trans (suffix_trimStart _).isInfix

theorem trimStart_idem (text : List Char) : trimStart (trimStart text) = trimStart text :=
  List.dropWhile_idempotent _ _

theorem trimEnd_idem (text : List Char) : trimEnd (trimEnd text) = trimEnd text :=
  List.rdropWhile_idempotent _ _

@[simp]
theorem trimStart_blank {c : Char} (h : isBlank c = true) : trimStart (c :: text) = trimStart text := by
  simp [trimStart, h]

@[simp]
theorem trimStart_cons {c : Char} (h : isBlank c = false) : trimStart (c :: text) = c :: text := by
  simp [trimStart, h]

theorem trim_blank {c : Char} (h : isBlank c = true) : trim (c :: text) = trim text := by
  rw [trim, trimStart_blank h, trim]

theorem trimStart_append (text more : List Char) :
    trimStart (text ++ more) = if trimStart text = [] then trimStart more else trimStart text ++ more := by
  simp [trimStart, List.dropWhile_append]

theorem trim_concat {c : Char} (h : isBlank c = true) : trim (text ++ [c]) = trim text := by
  rw [trim, trimStart_append, trim]
  split
  next hempty =>
    rw [hempty, trimStart_blank h]
    rfl
  next => rw [trimEnd_eq_rdropWhile, List.rdropWhile_concat_pos _ _ _ h, trimEnd_eq_rdropWhile]

theorem trimStart_eq_self_iff : trimStart text = text ↔ ∀ c, text.head? = some c → isBlank c = false := by
  cases text with
  | nil => simp [trimStart]
  | cons c text =>
      cases hc : isBlank c with
      | false => simp [hc]
      | true =>
          have hshort := (suffix_trimStart text).length_le
          rw [trimStart_blank hc]
          refine ⟨fun h => ?_, fun h => ?_⟩
          · rw [h, List.length_cons] at hshort
            omega
          · simp [hc] at h

theorem trimEnd_eq_self_iff : trimEnd text = text ↔ ∀ c, text.getLast? = some c → isBlank c = false := by
  rw [trimEnd_eq_rdropWhile, List.rdropWhile_eq_self_iff]
  cases text using List.reverseRecOn <;> simp

/-- A text is trimmed if its first and its last character are. -/
theorem trim_eq_self_iff : trim text = text ↔ trimStart text = text ∧ trimEnd text = text := by
  refine ⟨fun h => ?_, fun h => by rw [trim, h.1, h.2]⟩
  have hlength : text.length ≤ (trimStart text).length := by
    have htrim := (prefix_trimEnd (trimStart text)).length_le
    rwa [← trim, h] at htrim
  have hstart := (suffix_trimStart text).eq_of_length_le hlength
  rw [trim, hstart] at h
  exact ⟨hstart, h⟩

/-- What is left after trimming at the start stays trimmed there when its end is trimmed too. -/
theorem trimStart_trimEnd (h : trimStart text = text) : trimStart (trimEnd text) = trimEnd text := by
  rw [trimStart_eq_self_iff] at h ⊢
  obtain ⟨tail, htail⟩ := prefix_trimEnd text
  cases hend : trimEnd text with
  | nil => simp
  | cons c kept =>
      rw [hend] at htail
      simpa [← htail] using h

theorem trim_idem (text : List Char) : trim (trim text) = trim text := by
  rw [trim_eq_self_iff]
  exact ⟨trimStart_trimEnd (trimStart_idem _), trimEnd_idem _⟩

theorem getLast?_ne_of_trimEnd {c : Char} (h : trimEnd text = text) (hc : isBlank c = true) :
    text.getLast? ≠ some c := by
  intro hlast
  rw [trimEnd_eq_self_iff.1 h c hlast] at hc
  exact Bool.false_ne_true hc

/-! ### Joined texts -/

@[simp]
theorem join_nil : join [separator] [] = [] := rfl

@[simp]
theorem join_singleton (part : List Char) : join [separator] [part] = part := rfl

theorem join_cons {part : List Char} (h : parts ≠ []) :
    join [separator] (part :: parts) = part ++ separator :: join [separator] parts := by
  cases parts with
  | nil => exact absurd rfl h
  | cons next more => simp [join]

theorem join_concat {part : List Char} (h : parts ≠ []) :
    join [separator] (parts ++ [part]) = join [separator] parts ++ separator :: part := by
  induction parts with
  | nil => exact absurd rfl h
  | cons first more ih =>
      cases hmore : more with
      | nil => simp [join]
      | cons next last =>
          rw [← hmore, List.cons_append, join_cons (by simp), ih (by simp [hmore]), join_cons (by simp [hmore])]
          simp

theorem reverse_join (parts : List (List Char)) :
    (join [separator] parts).reverse = join [separator] (parts.map List.reverse).reverse := by
  induction parts with
  | nil => rfl
  | cons part more ih =>
      cases hmore : more with
      | nil => simp
      | cons next last =>
          rw [← hmore, join_cons (by simp [hmore]), List.map_cons, List.reverse_cons,
            join_concat (by simp [hmore]), ← ih]
          simp

/-- The first piece of a text stands at its front. -/
theorem exists_piecesAt (separator : Char) (text : List Char) :
    ∃ piece more, piecesAt separator text = piece :: more ∧ piece <+: text := by
  induction text with
  | nil => exact ⟨[], [], rfl, List.nil_prefix⟩
  | cons c text ih =>
      obtain ⟨piece, more, hpieces, hprefix⟩ := ih
      by_cases hc : c = separator
      · exact ⟨[], piecesAt separator text, by simp [piecesAt, hc], List.nil_prefix⟩
      · exact ⟨c :: piece, more, by simp [piecesAt, hc, hpieces], List.cons_prefix_cons.2 ⟨rfl, hprefix⟩⟩

/-- What is put in front goes to the first piece. -/
theorem piecesAt_prepend {front piece : List Char} {more : List (List Char)} (hfront : separator ∉ front)
    (hpieces : piecesAt separator text = piece :: more) :
    piecesAt separator (front ++ text) = (front ++ piece) :: more := by
  induction front with
  | nil => exact hpieces
  | cons c front ih =>
      obtain ⟨hc, hrest⟩ := List.ne_and_not_mem_of_not_mem_cons hfront
      simp [piecesAt, Ne.symm hc, ih hrest]

/-- Texts with a separator between them are cut one by one. -/
theorem piecesAt_between (text rest : List Char) :
    piecesAt separator (text ++ separator :: rest) = piecesAt separator text ++ piecesAt separator rest := by
  induction text with
  | nil => simp [piecesAt]
  | cons c text ih =>
      by_cases hc : c = separator
      · simp [piecesAt, hc, ih]
      · obtain ⟨piece, more, hpieces, -⟩ := exists_piecesAt separator text
        simp [piecesAt, hc, ih, hpieces]

theorem piecesAt_self (h : separator ∉ text) : piecesAt separator text = [text] := by
  have hempty : piecesAt separator [] = [[]] := rfl
  simpa using piecesAt_prepend h hempty

theorem piecesAt_append (h : separator ∉ text) :
    piecesAt separator (text ++ separator :: rest) = text :: piecesAt separator rest := by
  rw [piecesAt_between, piecesAt_self h, List.singleton_append]

/-- A joined text is cut at its separators into the parts again. -/
theorem piecesAt_join (hparts : parts ≠ []) (h : ∀ part ∈ parts, separator ∉ part) :
    piecesAt separator (join [separator] parts) = parts := by
  induction parts with
  | nil => exact absurd rfl hparts
  | cons part more ih =>
      obtain ⟨hpart, hrest⟩ := List.forall_mem_cons.1 h
      cases hmore : more with
      | nil => exact piecesAt_self hpart
      | cons next last =>
          rw [← hmore, join_cons (by simp [hmore]), piecesAt_append hpart, ih (by simp [hmore]) hrest]

/-- Trimming a text of trimmed lines at its start drops the empty lines there. -/
theorem trimStart_join (h : ∀ part ∈ parts, trimStart part = part) :
    trimStart (join ['\n'] parts) = join ['\n'] (parts.dropWhile List.isEmpty) := by
  induction parts with
  | nil => rfl
  | cons part more ih =>
      obtain ⟨hpart, hrest⟩ := List.forall_mem_cons.1 h
      cases part with
      | nil =>
          rw [List.dropWhile_cons_of_pos rfl, ← ih hrest]
          cases more with
          | nil => rfl
          | cons next last => exact trimStart_blank (by decide)
      | cons c part =>
          have hc : isBlank c = false := trimStart_eq_self_iff.1 hpart c rfl
          rw [List.dropWhile_cons_of_neg (by simp)]
          cases more with
          | nil => exact hpart
          | cons next last => exact trimStart_cons hc

theorem reverse_trimEnd (text : List Char) : (trimEnd text).reverse = trimStart text.reverse := by
  simp [trimEnd, trimStart]

theorem trimEnd_join (h : ∀ part ∈ parts, trimEnd part = part) :
    trimEnd (join ['\n'] parts) = join ['\n'] (parts.rdropWhile List.isEmpty) := by
  have hreversed : ∀ part ∈ (parts.map List.reverse).reverse, trimStart part = part := by
    intro part hpart
    obtain ⟨original, horiginal, rfl⟩ := List.mem_map.1 (List.mem_reverse.1 hpart)
    rw [← reverse_trimEnd, h original horiginal]
  have hempty : (List.isEmpty ∘ List.reverse : List Char → Bool) = List.isEmpty := by
    funext part
    simp
  apply List.reverse_injective
  rw [reverse_trimEnd, reverse_join, trimStart_join hreversed, reverse_join, ← List.map_reverse,
    List.dropWhile_map, hempty, List.rdropWhile, List.map_reverse, List.reverse_reverse]

/-- Trimming a text of trimmed lines drops the empty lines at both ends. -/
theorem trim_join (h : ∀ part ∈ parts, trim part = part) :
    trim (join ['\n'] parts) = join ['\n'] ((parts.dropWhile List.isEmpty).rdropWhile List.isEmpty) := by
  have hstart : ∀ part ∈ parts, trimStart part = part := fun part hpart => (trim_eq_self_iff.1 (h part hpart)).1
  have hend : ∀ part ∈ parts.dropWhile List.isEmpty, trimEnd part = part := fun part hpart =>
    (trim_eq_self_iff.1 (h part ((List.dropWhile_sublist _).subset hpart))).2
  rw [trim, trimStart_join hstart, trimEnd_join hend]

/-! ### Lines -/

/-- A line and its line feed are cut off at the start of a text. -/
theorem linesFrom_append {start : List Char} (hfeed : '\n' ∉ line) (hreturn : line.getLast? ≠ some '\r') :
    linesFrom start (line ++ '\n' :: rest) = (start ++ line) :: lines rest := by
  induction line generalizing start with
  | nil => simp [linesFrom, lines]
  | cons c line ih =>
      obtain ⟨hc, hrest⟩ := List.ne_and_not_mem_of_not_mem_cons hfeed
      have hnext : linesFrom start (c :: (line ++ '\n' :: rest)) = linesFrom (start ++ [c]) (line ++ '\n' :: rest) := by
        rw [linesFrom]
        · rintro tail rfl htail
          cases line with
          | nil => simp at hreturn
          | cons next line => simp_all
        · exact fun h => hc h.symm
      have hlast : line.getLast? ≠ some '\r' := by
        intro hlast
        rw [List.getLast?_cons, hlast] at hreturn
        exact hreturn rfl
      rw [List.cons_append, hnext, ih hrest hlast, List.append_assoc]
      rfl

theorem lines_append (hfeed : '\n' ∉ line) (hreturn : line.getLast? ≠ some '\r') :
    lines (line ++ '\n' :: rest) = line :: lines rest :=
  linesFrom_append hfeed hreturn

/-- A text that is put together from ended lines is cut into these lines. -/
theorem lines_flatMap {ended : List (List Char)} (hfeed : ∀ line ∈ ended, '\n' ∉ line)
    (hreturn : ∀ line ∈ ended, line.getLast? ≠ some '\r') (rest : List Char) :
    lines (ended.flatMap (· ++ ['\n']) ++ rest) = ended ++ lines rest := by
  induction ended with
  | nil => rfl
  | cons line more ih =>
      obtain ⟨hline, hfeed⟩ := List.forall_mem_cons.1 hfeed
      obtain ⟨hlast, hreturn⟩ := List.forall_mem_cons.1 hreturn
      have hsplit : (line :: more).flatMap (· ++ ['\n']) ++ rest
          = line ++ '\n' :: (more.flatMap (· ++ ['\n']) ++ rest) := by simp
      rw [hsplit, lines_append hline hlast, ih hfeed hreturn, List.cons_append]

theorem lineFeed_not_mem_linesFrom (h : '\n' ∉ line) : ∀ found ∈ linesFrom line text, '\n' ∉ found := by
  induction line, text using linesFrom.induct with
  | case1 line hempty => simp [linesFrom, hempty]
  | case2 line hline => simpa [linesFrom, hline] using h
  | case3 line rest ih => simpa [linesFrom, h] using ih
  | case4 line rest ih => simpa [linesFrom, h] using ih
  | case5 line c rest hreturn hfeed ih =>
      rw [linesFrom]
      · exact ih (by simpa [h] using fun hc : '\n' = c => hfeed hc.symm)
      · exact hreturn
      · exact hfeed

/-- No line of a text holds a line feed. -/
theorem lineFeed_not_mem_lines : ∀ found ∈ lines text, '\n' ∉ found :=
  lineFeed_not_mem_linesFrom (by simp)

/-! ### Endings -/

theorem dropEnding?_eq_some_iff {text ending stem : String} :
    dropEnding? text ending = some stem ↔ text = stem ++ ending := by
  unfold dropEnding?
  simp only [List.isSuffixOf_iff_suffix]
  constructor
  · intro h
    split at h
    next hsuffix =>
        obtain ⟨front, hfront⟩ := hsuffix
        cases h
        rw [String.ext_iff, String.toList_append, String.toList_ofList, ← hfront]
        simp
    · cases h
  · rintro rfl
    rw [if_pos (by simp)]
    simp

end ModPackager.Text
