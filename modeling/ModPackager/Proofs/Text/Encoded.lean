import ModPackager.Proofs.Text.Bytes
import ModPackager.Proofs.Text.Lines

/-!
# Texts cut at byte offsets

A text is held here as its bytes, and places in it are byte offsets. A slice between two offsets is there only if both
are character boundaries, which is read off the bytes: the first byte of a character tells itself from the others
(`exists_utf8EncodeChar`). So the boundaries of a written text are the places between its characters
(`isBoundary_encode_iff`), and its slices are runs of whole characters (`slice_encode`).

What is found and trimmed by offsets is what is found and trimmed in the list of characters, and lines may be cut at
single bytes, since no other character is written with a byte that stands for one by itself (`toNat_of_mem`).
-/

namespace ModPackager.Text

/-- The bytes that characters are written with. -/
def encode (chars : List Char) : List UInt8 := chars.flatMap String.utf8EncodeChar

variable {c : Char} {byte : UInt8} {chars front middle back rest : List Char} {text : List UInt8} {offset : Nat}
  {p : Char → Bool}

@[simp] theorem encode_nil : encode [] = [] := rfl

@[simp] theorem encode_cons (c : Char) (rest : List Char) : encode (c :: rest) = String.utf8EncodeChar c ++ encode rest :=
  List.flatMap_cons

@[simp] theorem encode_append (front back : List Char) : encode (front ++ back) = encode front ++ encode back :=
  List.flatMap_append

@[simp] theorem encode_eq_nil_iff : encode chars = [] ↔ chars = [] := by
  cases chars <;> simp

theorem bytes_ofList (chars : List Char) : bytes (String.ofList chars) = encode chars := by
  rw [bytes_eq, String.toList_ofList, encode]

/-- The first number that a code is written with is told from the others by its range. -/
theorem units_marked (code : Nat) : ∃ first more, units code = first :: more
    ∧ (first < 128 ∨ 192 ≤ first) ∧ ∀ unit ∈ more, 128 ≤ unit ∧ unit < 192 := by
  unfold units
  split_ifs <;> refine ⟨_, _, rfl, by omega, ?_⟩ <;>
    simp only [List.mem_cons, List.not_mem_nil, or_false, forall_eq_or_imp, forall_eq, false_imp_iff, implies_true] <;>
    omega

namespace Encoded

/-! ### Characters and their bytes -/

/-- Whether a byte begins a character. -/
def beginsChar (byte : UInt8) : Bool := byte < 0x80 || 0xC0 ≤ byte

theorem beginsChar_ofNat {unit : Nat} (h : unit < 256) :
    beginsChar (UInt8.ofNat unit) = true ↔ unit < 128 ∨ 192 ≤ unit := by
  simp [beginsChar, UInt8.lt_iff_toNat_lt, UInt8.le_iff_toNat_le, Nat.mod_eq_of_lt h]

/-- The first byte of a character begins it, and no other one does. -/
theorem exists_utf8EncodeChar (c : Char) : ∃ first more, String.utf8EncodeChar c = first :: more
    ∧ beginsChar first = true ∧ ∀ byte ∈ more, beginsChar byte = false := by
  obtain ⟨first, more, hunits, hfirst, hmore⟩ := units_marked c.toNat
  have hlt := units_lt c.toNat
  rw [hunits, List.forall_mem_cons] at hlt
  rw [utf8EncodeChar_eq, hunits]
  refine ⟨_, _, rfl, (beginsChar_ofNat hlt.1).2 hfirst, ?_⟩
  rw [List.forall_mem_map]
  intro unit hunit
  obtain ⟨hlow, hhigh⟩ := hmore unit hunit
  rw [Bool.eq_false_iff, Ne, beginsChar_ofNat (hlt.2 unit hunit)]
  omega

/-- A byte that stands for a character by itself is written for that character only. -/
theorem toNat_of_mem (hmem : byte ∈ String.utf8EncodeChar c) (hbyte : byte.toNat < 128) : c.toNat = byte.toNat := by
  have hlt := units_lt c.toNat
  rw [utf8EncodeChar_eq] at hmem
  obtain ⟨unit, hunit, rfl⟩ := List.mem_map.1 hmem
  rw [UInt8.toNat_ofNat', Nat.mod_eq_of_lt (hlt unit hunit)] at hbyte ⊢
  unfold units at hunit
  split_ifs at hunit <;> simp only [List.mem_cons, List.not_mem_nil, or_false] at hunit <;> omega

theorem utf8EncodeChar_of_lt (h : c.toNat < 128) : String.utf8EncodeChar c = [UInt8.ofNat c.toNat] := by
  rw [utf8EncodeChar_eq, units, if_pos (Nat.le_of_lt_succ h), List.map_singleton]

/-- A text that begins with such a byte begins with its character. -/
theorem exists_of_encode_eq_cons {more : List UInt8} (h : encode chars = byte :: more) (hbyte : byte.toNat < 128) :
    ∃ rest, chars = Char.ofNat byte.toNat :: rest ∧ more = encode rest := by
  cases chars with
  | nil => cases h
  | cons c rest =>
      obtain ⟨first, behind, hchar, -, -⟩ := exists_utf8EncodeChar c
      obtain ⟨rfl, -⟩ : first = byte ∧ behind ++ encode rest = more := by simpa [hchar] using h
      have hcode := toNat_of_mem (hchar ▸ List.mem_cons_self) hbyte
      rw [encode_cons, utf8EncodeChar_of_lt (hcode ▸ hbyte), hcode, List.singleton_append, UInt8.ofNat_toNat] at h
      exact ⟨rest, by rw [← hcode, Char.ofNat_toNat], (List.cons.inj h).2.symm⟩

section Ascii

variable (hc : c.toNat < 128)

include hc

/-- A character that is written with one byte stands where that byte stands: at the start of a text, -/
theorem head?_encode_iff : (encode chars).head? = some (UInt8.ofNat c.toNat) ↔ chars.head? = some c := by
  rw [List.head?_eq_some_iff, List.head?_eq_some_iff]
  constructor
  · rintro ⟨more, hbytes⟩
    have hbyte : (UInt8.ofNat c.toNat).toNat = c.toNat := by
      rw [UInt8.toNat_ofNat', Nat.mod_eq_of_lt (Nat.lt_trans hc (by decide))]
    obtain ⟨rest, hchars, -⟩ := exists_of_encode_eq_cons hbytes (hbyte.symm ▸ hc)
    exact ⟨rest, by rw [hchars, hbyte, Char.ofNat_toNat]⟩
  · rintro ⟨rest, rfl⟩
    exact ⟨encode rest, by rw [encode_cons, utf8EncodeChar_of_lt hc, List.singleton_append]⟩

/-- and at the end of one. -/
theorem getLast?_encode_iff : (encode chars).getLast? = some (UInt8.ofNat c.toNat) ↔ chars.getLast? = some c := by
  rcases List.eq_nil_or_concat chars with rfl | ⟨front, last, rfl⟩
  · simp
  · rw [List.concat_eq_append, encode_append, encode_cons, encode_nil, List.append_nil, List.getLast?_concat,
      List.getLast?_append_of_ne_nil _ String.utf8EncodeChar_ne_nil, Option.some_inj]
    constructor
    · intro hlast
      have hbyte : (UInt8.ofNat c.toNat).toNat = c.toNat := by
        rw [UInt8.toNat_ofNat', Nat.mod_eq_of_lt (Nat.lt_trans hc (by decide))]
      have hcode := toNat_of_mem (List.mem_of_getLast? hlast) (hbyte.symm ▸ hc)
      exact Char.toNat_inj.1 (hcode.trans hbyte)
    · rintro rfl
      rw [utf8EncodeChar_of_lt hc, List.getLast?_singleton]

end Ascii

/-! ### Boundaries and slices -/

/-- Whether an offset stands at the start or the end of a text, or in front of a character. -/
def isBoundary (text : List UInt8) (offset : Nat) : Bool :=
  offset == 0 || match text[offset]? with
    | some byte => beginsChar byte
    | none => offset == text.length

/-- A slice that a text does not have: it is not in range, or begins or ends inside a character. -/
structure SliceFault where
  text : List UInt8
  start : Nat
  stop : Nat
deriving DecidableEq

/-- The part of a text between two offsets. -/
def slice (text : List UInt8) (start stop : Nat) : Except SliceFault (List UInt8) :=
  if start ≤ stop && isBoundary text start && isBoundary text stop then .ok ((text.take stop).drop start)
  else .error ⟨text, start, stop⟩

/-- Behind a character the boundaries are those of what follows. -/
theorem isBoundary_behind (c : Char) (rest : List Char) (offset : Nat) :
    isBoundary (encode (c :: rest)) ((String.utf8EncodeChar c).length + offset) = isBoundary (encode rest) offset := by
  obtain ⟨first, more, hchar, -, -⟩ := exists_utf8EncodeChar c
  have hbehind : isBoundary (encode (c :: rest)) ((String.utf8EncodeChar c).length + offset)
      = match (encode rest)[offset]? with
        | some byte => beginsChar byte
        | none => offset == (encode rest).length := by
    have hstart : ((String.utf8EncodeChar c).length + offset == 0) = false := by simp [hchar]
    have hend : ((String.utf8EncodeChar c).length + offset == (encode (c :: rest)).length)
        = (offset == (encode rest).length) := by
      rw [encode_cons, List.length_append, Bool.eq_iff_iff, beq_iff_eq, beq_iff_eq, Nat.add_left_cancel_iff]
    rw [isBoundary, hstart, hend, Bool.false_or, encode_cons, List.getElem?_append_right (Nat.le_add_right _ _),
      Nat.add_sub_cancel_left]
  rw [hbehind, isBoundary]
  cases offset with
  | succ offset => rfl
  | zero =>
      cases rest with
      | nil => rfl
      | cons next rest =>
          obtain ⟨first, more, hnext, hbegins, -⟩ := exists_utf8EncodeChar next
          simp [hnext, hbegins]

/-- Inside a character there are no boundaries. -/
theorem isBoundary_inside (hstart : offset ≠ 0) (hend : offset < (String.utf8EncodeChar c).length) (rest : List Char) :
    isBoundary (encode (c :: rest)) offset = false := by
  obtain ⟨first, more, hchar, -, hmore⟩ := exists_utf8EncodeChar c
  obtain ⟨offset, rfl⟩ := Nat.exists_eq_succ_of_ne_zero hstart
  rw [isBoundary, encode_cons, List.getElem?_append_left hend]
  simp only [hchar, List.length_cons, Nat.succ_lt_succ_iff] at hend ⊢
  simp [hmore _ (List.getElem_mem hend), hend]

/-- The boundaries of a text are the places between its characters. -/
theorem isBoundary_encode_iff : isBoundary (encode chars) offset = true
    ↔ ∃ front back, chars = front ++ back ∧ offset = (encode front).length := by
  induction chars generalizing offset with
  | nil =>
      rw [encode_nil, isBoundary]
      simp
  | cons c rest ih =>
      -- A place is at the start, inside the first character, or behind it, where the rest of the text decides.
      by_cases hstart : offset = 0
      · exact iff_of_true (by simp [isBoundary, hstart]) ⟨[], c :: rest, rfl, hstart⟩
      rcases Nat.lt_or_ge offset (String.utf8EncodeChar c).length with hinside | hbehind
      · refine iff_of_false (by rw [isBoundary_inside hstart hinside]; simp) ?_
        rintro ⟨front, back, hchars, rfl⟩
        cases front with
        | nil => exact hstart rfl
        | cons first front =>
            obtain rfl := (List.cons.inj hchars).1
            simp only [encode_cons, List.length_append] at hinside
            omega
      · obtain ⟨offset, rfl⟩ := Nat.exists_eq_add_of_le hbehind
        rw [isBoundary_behind, ih]
        constructor
        · rintro ⟨front, back, rfl, rfl⟩
          exact ⟨c :: front, back, rfl, by simp⟩
        · rintro ⟨front, back, hchars, hoffset⟩
          cases front with
          | nil => exact absurd hoffset hstart
          | cons first front =>
              obtain ⟨rfl, rfl⟩ := List.cons.inj hchars
              exact ⟨front, back, rfl, by simpa using hoffset⟩

/-- A slice of a text between two places is what is written between them. -/
theorem slice_encode (front middle back : List Char) :
    slice (encode (front ++ middle ++ back)) (encode front).length (encode (front ++ middle)).length
      = .ok (encode middle) := by
  have hle : (encode front).length ≤ (encode (front ++ middle)).length := by simp
  have hstart : isBoundary (encode (front ++ middle ++ back)) (encode front).length = true :=
    isBoundary_encode_iff.2 ⟨front, middle ++ back, List.append_assoc .., rfl⟩
  have hstop : isBoundary (encode (front ++ middle ++ back)) (encode (front ++ middle)).length = true :=
    isBoundary_encode_iff.2 ⟨front ++ middle, back, rfl, rfl⟩
  rw [slice, hstart, hstop, decide_eq_true hle, encode_append (front ++ middle), List.take_left, encode_append,
    List.drop_left]
  rfl

/-- The slices of a text are what is written between two places, none of them inside a character. -/
theorem slice_eq_ok_iff {start stop : Nat} {part : List UInt8} : slice (encode chars) start stop = .ok part
    ↔ ∃ front middle back, chars = front ++ middle ++ back ∧ start = (encode front).length
      ∧ stop = (encode (front ++ middle)).length ∧ part = encode middle := by
  constructor
  · intro h
    obtain ⟨⟨hle, hstart⟩, hstop⟩ : (start ≤ stop ∧ isBoundary (encode chars) start = true)
        ∧ isBoundary (encode chars) stop = true := by
      by_contra hcut
      rw [slice, if_neg (by simpa using hcut)] at h
      cases h
    obtain ⟨front, behind, hfront, rfl⟩ := isBoundary_encode_iff.1 hstart
    obtain ⟨before, back, rfl, rfl⟩ := isBoundary_encode_iff.1 hstop
    obtain ⟨middle, rfl⟩ : front <+: before := by
      rcases List.prefix_or_prefix_of_prefix ⟨behind, hfront.symm⟩ (List.prefix_append before back) with hpre | ⟨more, rfl⟩
      · exact hpre
      · -- What is behind the later place is written with no bytes.
        have hmore : more = [] := by
          rw [encode_append, List.length_append] at hle
          rw [← encode_eq_nil_iff, ← List.length_eq_zero_iff]
          omega
        simp [hmore]
    exact ⟨front, middle, back, rfl, rfl, rfl, Except.ok.inj (h.symm.trans (slice_encode front middle back))⟩
  · rintro ⟨front, middle, back, rfl, rfl, rfl, rfl⟩
    exact slice_encode front middle back

/-- All that is written behind a place. -/
theorem slice_behind (front back : List Char) :
    slice (encode (front ++ back)) (encode front).length (encode (front ++ back)).length = .ok (encode back) := by
  simpa using slice_encode front back []

/-- All that is written in front of a place. -/
theorem slice_before (front back : List Char) :
    slice (encode (front ++ back)) 0 (encode front).length = .ok (encode front) := by
  simpa using slice_encode [] front back

theorem length_of_slice {start stop : Nat} {part : List UInt8} (h : slice text start stop = .ok part) :
    start ≤ stop ∧ part.length ≤ text.length - start := by
  unfold slice at h
  split at h
  next hcut =>
      obtain rfl := Except.ok.inj h
      simp only [Bool.and_eq_true, decide_eq_true_eq] at hcut
      refine ⟨hcut.1.1, ?_⟩
      rw [List.length_drop, List.length_take]
      omega
  · cases h

example : slice (encode ['é']) 0 1 = .error ⟨encode ['é'], 0, 1⟩ := by decide +kernel

/-! ### Finding characters -/

/-- The character that a text begins with. -/
def firstChar? (text : List UInt8) : Option Char := text.toByteArray.utf8DecodeChar? 0

theorem firstChar?_nil : firstChar? [] = none := by decide +kernel

theorem firstChar?_append (c : Char) (text : List UInt8) : firstChar? (String.utf8EncodeChar c ++ text) = some c := by
  rw [firstChar?, List.toByteArray_append]
  exact ByteArray.utf8DecodeChar?_utf8EncodeChar_append

theorem length_drop_of_firstChar? (h : firstChar? text = some c) : (text.drop c.utf8Size).length < text.length := by
  have hsize := ByteArray.le_size_of_utf8DecodeChar?_eq_some h
  have hpos := c.utf8Size_pos
  rw [List.length_drop]
  simp only [List.size_toByteArray] at hsize
  omega

/-- The characters of a text, each with the offset of its first byte, which is counted from the given offset. -/
def charOffsets (offset : Nat) (text : List UInt8) : List (Nat × Char) :=
  match _first : firstChar? text with
  | none => []
  | some c => (offset, c) :: charOffsets (offset + c.utf8Size) (text.drop c.utf8Size)
termination_by text.length
decreasing_by exact length_drop_of_firstChar? (by assumption)

@[simp] theorem charOffsets_nil (offset : Nat) : charOffsets offset [] = [] := by
  rw [charOffsets]
  split
  · rfl
  next c hfirst => simp [firstChar?_nil] at hfirst

@[simp] theorem charOffsets_cons (offset : Nat) (c : Char) (text : List UInt8) :
    charOffsets offset (String.utf8EncodeChar c ++ text) = (offset, c) :: charOffsets (offset + c.utf8Size) text := by
  rw [charOffsets]
  split
  next hfirst => simp [firstChar?_append] at hfirst
  next other hfirst =>
      obtain rfl : c = other := Option.some.inj ((firstChar?_append c _).symm.trans hfirst)
      rw [← String.length_utf8EncodeChar, List.drop_left]

theorem charOffsets_append (offset : Nat) (front back : List Char) : charOffsets offset (encode (front ++ back))
    = charOffsets offset (encode front) ++ charOffsets (offset + (encode front).length) (encode back) := by
  induction front generalizing offset with
  | nil => simp
  | cons c front ih =>
      rw [List.cons_append, encode_cons, encode_cons, charOffsets_cons, charOffsets_cons, ih, List.cons_append,
        List.length_append, String.length_utf8EncodeChar, Nat.add_assoc]

/-- The offset of the first character with a property. -/
def find? (p : Char → Bool) (text : List UInt8) : Option Nat :=
  ((charOffsets 0 text).find? fun (_, c) => p c).map (·.1)

/-- The first character with a property stands behind those that do not have it. -/
theorem find?_encode (p : Char → Bool) (chars : List Char) : (find? p (encode chars)).getD (encode chars).length
    = (encode (chars.takeWhile (!p ·))).length := by
  -- The search counts on from where it is, so the offset that it starts at varies.
  have hfrom : ∀ offset, (((charOffsets offset (encode chars)).find? fun (_, c) => p c).map (·.1)).getD
      (offset + (encode chars).length) = offset + (encode (chars.takeWhile (!p ·))).length := by
    induction chars with
    | nil => simp
    | cons c rest ih =>
        intro offset
        cases hc : p c with
        | true => simp [hc]
        | false =>
            have hrest := ih (offset + c.utf8Size)
            simpa [hc, Nat.add_assoc] using hrest
  simpa [find?] using hfrom 0

/-! ### Trimming -/

/-- Drops whitespace at the start. -/
def trimStart (text : List UInt8) : List UInt8 := text.drop ((find? (!isBlank ·) text).getD text.length)

/-- The offset behind the last character that is not whitespace. -/
def contentEnd (text : List UInt8) : Nat :=
  ((charOffsets 0 text).reverse.find? fun (_, c) => !isBlank c).elim 0 fun (offset, c) => offset + c.utf8Size

/-- Drops whitespace at the end. -/
def trimEnd (text : List UInt8) : List UInt8 := text.take (contentEnd text)

/-- Drops whitespace at both ends. -/
def trim (text : List UInt8) : List UInt8 := trimEnd (trimStart text)

theorem trimStart_encode (chars : List Char) : trimStart (encode chars) = encode (Text.trimStart chars) := by
  rw [trimStart, find?_encode]
  simp only [Bool.not_not]
  nth_rewrite 2 [← List.takeWhile_append_dropWhile (p := isBlank) (l := chars)]
  rw [encode_append, List.drop_left, Text.trimStart]

theorem contentEnd_encode (chars : List Char) : contentEnd (encode chars) = (encode (Text.trimEnd chars)).length := by
  induction chars using List.reverseRecOn with
  | nil => simp [contentEnd, Text.trimEnd]
  | append_singleton front c ih =>
      rw [contentEnd, charOffsets_append, encode_cons, charOffsets_cons, encode_nil, charOffsets_nil, List.reverse_append,
        List.reverse_singleton, List.singleton_append]
      rw [trimEnd_eq_rdropWhile] at ih ⊢
      cases hc : isBlank c with
      | true =>
          rw [List.find?_cons_of_neg (by simp [hc]), List.rdropWhile_concat_pos _ _ _ hc, ← ih]
          rfl
      | false =>
          rw [List.find?_cons_of_pos (by simp [hc]), List.rdropWhile_concat_neg _ _ _ (by simp [hc])]
          simp

theorem trimEnd_encode (chars : List Char) : trimEnd (encode chars) = encode (Text.trimEnd chars) := by
  obtain ⟨dropped, hchars⟩ := prefix_trimEnd chars
  rw [trimEnd, contentEnd_encode]
  nth_rewrite 2 [← hchars]
  rw [encode_append, List.take_left]

theorem trim_encode (chars : List Char) : trim (encode chars) = encode (Text.trim chars) := by
  rw [trim, trimStart_encode, trimEnd_encode, Text.trim]

/-! ### Lines -/

/-- The lines of a text, where `line` holds the bytes of the unfinished line. A line feed is written as 10 and a carriage
return as 13. -/
def linesFrom (line : List UInt8) : List UInt8 → List (List UInt8)
  | [] => if line.isEmpty then [] else [line]
  | 13 :: 10 :: rest => line :: linesFrom [] rest
  | 10 :: rest => line :: linesFrom [] rest
  | byte :: rest => linesFrom (line ++ [byte]) rest

/-- The lines of a text without their endings. -/
def lines (text : List UInt8) : List (List UInt8) := linesFrom [] text

/-- Bytes that end no line go to the unfinished one. -/
theorem linesFrom_append {line part : List UInt8} (hpart : ∀ byte ∈ part, byte ≠ 10 ∧ byte ≠ 13) (text : List UInt8) :
    linesFrom line (part ++ text) = linesFrom (line ++ part) text := by
  induction part generalizing line with
  | nil => simp
  | cons byte part ih =>
      rw [List.forall_mem_cons] at hpart
      obtain ⟨⟨hfeed, hreturn⟩, hmore⟩ := hpart
      rw [List.cons_append, linesFrom, ih hmore, List.append_assoc, List.singleton_append]
      · rintro rest rfl
        exact absurd rfl hreturn
      · rintro rfl
        exact absurd rfl hfeed

/-- A text is cut into lines at its bytes as it is at its characters. -/
theorem linesFrom_encode (line chars : List Char) :
    linesFrom (encode line) (encode chars) = (Text.linesFrom line chars).map encode := by
  fun_induction Text.linesFrom line chars with
  | case1 line hline => simp [linesFrom, List.isEmpty_iff.1 hline]
  | case2 line hline =>
      have hbytes : encode line ≠ [] := by simpa using hline
      simp [linesFrom, hbytes]
  | case3 line rest ih =>
      have hreturn : String.utf8EncodeChar '\r' = [13] := rfl
      have hfeed : String.utf8EncodeChar '\n' = [10] := rfl
      rw [encode_cons, encode_cons, hreturn, hfeed, List.singleton_append, List.singleton_append, linesFrom, ← encode_nil,
        ih, List.map_cons]
  | case4 line rest ih =>
      have hfeed : String.utf8EncodeChar '\n' = [10] := rfl
      rw [encode_cons, hfeed, List.singleton_append, linesFrom, ← encode_nil, ih, List.map_cons]
  | case5 line c rest hbreak hfeed ih =>
      rw [← ih, encode_append, encode_cons, encode_cons, encode_nil, List.append_nil]
      by_cases hreturn : c = '\r'
      · -- A carriage return that no line feed follows stays in its line.
        subst hreturn
        have hbyte : String.utf8EncodeChar '\r' = [13] := rfl
        rw [hbyte, List.singleton_append, linesFrom]
        · intro more _ hmore
          obtain ⟨behind, hrest, -⟩ := exists_of_encode_eq_cons hmore (by decide)
          exact hbreak behind rfl hrest
        · simp
      · refine linesFrom_append (fun byte hmem => ⟨?_, ?_⟩) _
        · rintro rfl
          exact hfeed (Char.toNat_inj.1 (toNat_of_mem hmem (by decide)))
        · rintro rfl
          exact hreturn (Char.toNat_inj.1 (toNat_of_mem hmem (by decide)))

theorem join_encode (parts : List (List Char)) :
    [10].intercalate (parts.map encode) = encode (Text.join ['\n'] parts) := by
  fun_induction Text.join ['\n'] parts with
  | case1 => rfl
  | case2 part => simp
  | case3 part rest hrest ih =>
      obtain ⟨next, more, rfl⟩ := List.exists_cons_of_ne_nil hrest
      have hfeed : String.utf8EncodeChar '\n' = [10] := rfl
      rw [List.map_cons, List.map_cons, List.intercalate_cons_cons, ← List.map_cons, ih]
      simp [hfeed]

end Encoded

end ModPackager.Text
