import ModPackager.Json.Reader
import ModPackager.Proofs.Actions

/-!
# Documents read back

The text of a value is read as that value (`value_renderAt`), and so a document is read as what it was made of
(`parse_render`). This holds for values that can come of reading: numbers are integers in the form in which a reader
gives them, brackets nest only as deep as a reader goes, and objects have each member once.

Each part of a text is read by its own reader, whatever follows it: a string by the characters up to its quote, a
number by its digits, and a list or object by one step for each item or member behind the first. Only a number asks
what follows it, which must not look like more of the number.
-/

namespace ModPackager.Json

/-! ### Values that come of reading -/

/-- Whether a number is an integer. -/
def Number.isInteger : Number → Bool
  | .nonnegative _ => true
  | .negative _ => true
  | .double _ => false

/-- The form in which a reader gives a number: what stands behind a sign is positive and has 63 bits, or is the
smallest integer. -/
def Number.Proper : Number → Prop
  | .negative n => 0 < n.toNat ∧ n.toNat ≤ UInt64.size / 2
  | _ => True

mutual

/-- The numbers of a value, from the left. -/
def numbers : Json → List Number
  | .number n => [n]
  | .array items => itemNumbers items
  | .object members => memberNumbers members
  | _ => []

/-- The numbers of a list's items. -/
def itemNumbers : List Json → List Number
  | [] => []
  | item :: rest => numbers item ++ itemNumbers rest

/-- The numbers of an object's members. -/
def memberNumbers : List (String × Json) → List Number
  | [] => []
  | (_, value) :: rest => numbers value ++ memberNumbers rest

end

theorem numbers_array (items : List Json) : numbers (.array items) = items.flatMap numbers := by
  rw [numbers]
  induction items with
  | nil => rfl
  | cons item rest ih => rw [itemNumbers, List.flatMap_cons, ih]

theorem numbers_object (members : List (String × Json)) :
    numbers (.object members) = members.flatMap fun member => member.2.numbers := by
  rw [numbers]
  induction members with
  | nil => rfl
  | cons member rest ih => rw [memberNumbers, List.flatMap_cons, ih]

/-- A value with at most so many brackets inside each other. -/
inductive Nests : Nat → Json → Prop
  | null {depth : Nat} : Nests depth .null
  | bool {depth : Nat} (value : Bool) : Nests depth (.bool value)
  | number {depth : Nat} (n : Number) : Nests depth (.number n)
  | string {depth : Nat} (value : String) : Nests depth (.string value)
  | array {depth : Nat} {items : List Json} (h : ∀ item ∈ items, Nests depth item) :
      Nests (depth + 1) (.array items)
  | object {depth : Nat} {members : List (String × Json)} (h : ∀ member ∈ members, Nests depth member.2) :
      Nests (depth + 1) (.object members)

namespace Reader

variable {α β : Type} {text rest : List Char} {c : Char}

/-! ### Single steps -/

@[simp]
theorem run_bind (reader : Reader α) (next : α → Reader β) (text : List Char) :
    (reader >>= next) text = match reader text with
      | .ok value rest => next value rest
      | .error problem rest => .error problem rest := by
  rw [ModPackager.run_bind]
  cases reader text <;> rfl

@[simp]
theorem run_pure (value : α) (text : List Char) : (pure value : Reader α) text = .ok value text := rfl

@[simp]
theorem run_map (f : α → β) (reader : Reader α) (text : List Char) :
    (f <$> reader) text = match reader text with
      | .ok value rest => .ok (f value) rest
      | .error problem rest => .error problem rest := by
  rw [ModPackager.run_map]
  cases reader text <;> rfl

@[simp]
theorem run_get (text : List Char) : (get : Reader (List Char)) text = .ok text text := rfl

@[simp]
theorem run_set (text left : List Char) : (set left : Reader PUnit) text = .ok ⟨⟩ left := rfl

@[simp]
theorem run_modify (step : List Char → List Char) (text : List Char) :
    (modify step : Reader PUnit) text = .ok ⟨⟩ (step text) := rfl

@[simp]
theorem run_peek (text : List Char) : peek text = .ok text.head? text := rfl

@[simp]
theorem run_skip (text : List Char) : skip text = .ok ⟨⟩ (text.drop 1) := rfl

@[simp]
theorem run_next (text : List Char) : next text = .ok text.head? (text.drop 1) := rfl

@[simp]
theorem run_peekValue (text : List Char) :
    peekValue text = .ok (text.dropWhile isSpace).head? (text.dropWhile isSpace) := rfl

@[simp]
theorem run_atDigit (text : List Char) : atDigit text = .ok (text.head?.any Char.isDigit) text := rfl

theorem run_enclosed {body : Reader α} {closing : Reader Unit} {value : α} {between : List Char}
    (hbody : body text = .ok value between) (hclosing : closing between = .ok () rest) :
    enclosed body closing text = .ok value rest := by
  simp only [enclosed, hbody, hclosing]

/-! ### Strings -/

theorem hexValue?_hexDigit (n : Nat) : hexValue? (hexDigit n) = some (n % 16) := by
  have hdigits : ∀ d : Fin 16, hexValue? (Nat.digitChar d) = some d.val := by decide
  exact hdigits ⟨n % 16, Nat.mod_lt _ (by decide)⟩

/-- A character has a short escape, or is a control character and is escaped by its number, or stands for
itself. -/
theorem escapeChar_cases (c : Char) :
    (∃ letter, escapedChar? letter = some c ∧ letter ≠ 'u' ∧ escapeChar c = ['\\', letter])
      ∨ c.toNat < 32 ∧ escapeChar c = ['\\', 'u', '0', '0', hexDigit (c.toNat / 16), hexDigit c.toNat]
      ∨ c ≠ '"' ∧ c ≠ '\\' ∧ 32 ≤ c.toNat ∧ escapeChar c = [c] := by
  by_cases hshort : c ∈ ['"', '\\', '\n', '\r', '\t', '\x08', '\x0c']
  · simp only [List.mem_cons, List.not_mem_nil, or_false] at hshort
    rcases hshort with rfl | rfl | rfl | rfl | rfl | rfl | rfl
    · exact .inl ⟨'"', rfl, by decide, rfl⟩
    · exact .inl ⟨'\\', rfl, by decide, rfl⟩
    · exact .inl ⟨'n', rfl, by decide, rfl⟩
    · exact .inl ⟨'r', rfl, by decide, rfl⟩
    · exact .inl ⟨'t', rfl, by decide, rfl⟩
    · exact .inl ⟨'b', rfl, by decide, rfl⟩
    · exact .inl ⟨'f', rfl, by decide, rfl⟩
  · simp only [List.mem_cons, List.not_mem_nil, or_false, not_or] at hshort
    obtain ⟨hquote, hslash, hfeed, hreturn, htab, hback, hform⟩ := hshort
    by_cases hcontrol : c.toNat < 32
    · exact .inr (.inl ⟨hcontrol, by simp [escapeChar, *]⟩)
    · exact .inr (.inr ⟨hquote, hslash, by omega, by simp [escapeChar, *]⟩)

/-- The number of a control character is read as the character. -/
theorem numericEscape_control {c : Char} (h : c.toNat < 32) (rest : List Char) :
    numericEscape ('0' :: '0' :: hexDigit (c.toNat / 16) :: hexDigit c.toNat :: rest) = .ok c rest := by
  have hunit : 16 * (c.toNat / 16 % 16) + c.toNat % 16 = c.toNat := by omega
  have hzero : hexValue? '0' = some 0 := by decide
  have hsmall : c.toNat < 55296 := by omega
  simp [numericEscape, hexUnit, hexUnit?, hexValue?_hexDigit, hzero, hunit]
  rw [if_neg (by omega), if_pos (.inl hsmall)]
  rfl

/-- An escaped character is read as the character. -/
theorem stringFrom_escapeChar (passed : List Char) (c : Char) (rest : List Char) (fuel : Nat) :
    stringFrom passed (fuel + 1) (escapeChar c ++ rest) = stringFrom (c :: passed) fuel rest := by
  rcases escapeChar_cases c with ⟨letter, hletter, hne, heq⟩ | ⟨hcontrol, heq⟩ | ⟨hquote, hslash, hplain, heq⟩
  · simp [heq, stringFrom, escape, hletter]
  · simp [heq, stringFrom, escape, numericEscape_control hcontrol]
  · simp [heq, stringFrom, Nat.not_lt.2 hplain]

/-- The characters between quotes are read as a string. -/
theorem stringFrom_escaped (letters rest : List Char) {passed : List Char} {fuel : Nat} (h : letters.length < fuel) :
    stringFrom passed fuel (letters.flatMap escapeChar ++ '"' :: rest)
      = .ok (String.ofList (passed.reverse ++ letters)) rest := by
  induction letters generalizing passed fuel with
  | nil =>
      obtain ⟨fuel, rfl⟩ := Nat.exists_eq_add_one_of_ne_zero (Nat.ne_of_gt h)
      simp [stringFrom]
  | cons c letters ih =>
      obtain ⟨fuel, rfl⟩ := Nat.exists_eq_add_one_of_ne_zero (Nat.ne_of_gt (Nat.zero_lt_of_lt h))
      rw [List.flatMap_cons, List.append_assoc, stringFrom_escapeChar, ih (Nat.lt_of_succ_lt_succ h)]
      simp

theorem length_le_escaped (letters : List Char) : letters.length ≤ (letters.flatMap escapeChar).length := by
  induction letters with
  | nil => exact Nat.le_refl _
  | cons c letters ih =>
      have hpos : 1 ≤ (escapeChar c).length := by
        rcases escapeChar_cases c with ⟨_, -, -, heq⟩ | ⟨-, heq⟩ | ⟨-, -, -, heq⟩ <;> simp [heq]
      rw [List.flatMap_cons, List.length_append, List.length_cons, Nat.add_comm]
      exact Nat.add_le_add hpos ih

/-- A quoted text is read behind its first quote. -/
theorem string_quoted (value : String) (rest : List Char) :
    string ((quote value).toList.drop 1 ++ rest) = .ok value rest := by
  have hletters := length_le_escaped value.toList
  have htext : (quote value).toList.drop 1 ++ rest = value.toList.flatMap escapeChar ++ '"' :: rest := by
    simp [quote]
  rw [htext, string, run_bind, run_get]
  simp only
  rw [stringFrom_escaped]
  · simp only [List.reverse_nil, List.nil_append, String.ofList_toList]
  · rw [List.length_append]
    omega

/-! ### Numbers -/

/-- What may follow a number: nothing that looks like more of it. -/
def Closes (rest : List Char) : Prop := ∀ c ∈ rest.head?, c.isDigit = false ∧ c ≠ '.' ∧ c ≠ 'e' ∧ c ≠ 'E'

theorem Closes.atDigit (h : Closes rest) : rest.head?.any Char.isDigit = false := by
  cases rest with
  | nil => rfl
  | cons c rest => exact (h c rfl).1

theorem le_ofDigitChars (digits : List Char) (n : Nat) : n ≤ Nat.ofDigitChars 10 digits n := by
  induction digits generalizing n with
  | nil => exact Nat.le_refl n
  | cons c digits ih =>
      rw [Nat.ofDigitChars_cons]
      exact Nat.le_trans (by omega) (ih _)

/-- The digits of a number do not begin with a zero. -/
theorem head?_toDigits {n : Nat} (h : 0 < n) : (Nat.toDigits 10 n).head? ≠ some '0' := by
  induction n using Nat.strongRecOn with
  | ind n ih =>
      by_cases hsmall : n < 10
      · rw [Nat.toDigits_of_lt_base hsmall]
        intro hhead
        have hzero := Nat.digitChar_eq_zero.1 (Option.some.inj hhead)
        omega
      · have hhead := ih (n / 10) (by omega) (by omega)
        obtain ⟨c, digits, heq⟩ := List.exists_cons_of_ne_nil (Nat.toDigits_ne_nil (b := 10) (n := n / 10))
        rw [heq] at hhead
        rw [Nat.toDigits_of_base_le (by decide) (Nat.not_lt.1 hsmall), heq]
        exact hhead

/-- Digits that fit are all taken. -/
theorem takeDigits_append {digits : List Char} {n : Nat} (hdigits : ∀ c ∈ digits, c.isDigit = true)
    (hrest : rest.head?.any Char.isDigit = false) (hfits : Nat.ofDigitChars 10 digits n ≤ maxUnsigned) :
    takeDigits n (digits ++ rest) = (Nat.ofDigitChars 10 digits n, digits.length, rest) := by
  induction digits generalizing n with
  | nil =>
      cases rest with
      | nil => rfl
      | cons c rest =>
          have hc : c.isDigit = false := hrest
          simp [takeDigits, hc]
  | cons c digits ih =>
      have hc := hdigits c List.mem_cons_self
      rw [Nat.ofDigitChars_cons] at hfits ⊢
      have hgrown : n * 10 + digitValue c = 10 * n + (c.toNat - '0'.toNat) := by
        rw [digitValue, Nat.mul_comm]
      have hstep := Nat.le_trans (le_ofDigitChars digits _) hfits
      rw [List.cons_append, takeDigits, hgrown, hc, decide_eq_true hstep,
        ih (fun d hd => hdigits d (List.mem_cons_of_mem c hd)) hfits]
      rfl

/-- The digits of an integer are read to their end, and then the number's form is settled. -/
theorem number_digits {n : Nat} (hfits : n ≤ maxUnsigned) (hrest : Closes rest) (positive : Bool) :
    number positive (Nat.toDigits 10 n ++ rest) = numberRest positive n rest := by
  by_cases hzero : n = 0
  · subst hzero
    simp [number, hrest.atDigit]
  · have hhead := head?_toDigits (Nat.pos_of_ne_zero hzero)
    have hdigits : ∀ c ∈ Nat.toDigits 10 n, c.isDigit = true := fun c hc =>
      Nat.isDigit_of_mem_toDigits (by decide) (by decide) hc
    have hvalue : Nat.ofDigitChars 10 (Nat.toDigits 10 n) 0 = n := Nat.ofDigitChars_toDigits (by decide) (by decide)
    obtain ⟨c, digits, heq⟩ := List.exists_cons_of_ne_nil (Nat.toDigits_ne_nil (b := 10) (n := n))
    rw [heq] at hhead hdigits hvalue ⊢
    have hc := hdigits c List.mem_cons_self
    have hne : c ≠ '0' := fun h => hhead (congrArg some h)
    rw [Nat.ofDigitChars_cons, Nat.mul_zero, Nat.zero_add, ← digitValue] at hvalue
    have htaken := takeDigits_append (fun d hd => hdigits d (List.mem_cons_of_mem c hd)) hrest.atDigit
      (hvalue.symm ▸ hfits)
    simp [number, hc, hne, htaken, hvalue, hrest.atDigit]

/-- The form of an integer that nothing continues. -/
theorem numberRest_closes (positive : Bool) (n : Nat) (hrest : Closes rest) :
    numberRest positive n rest = .ok (if positive then .nonnegative n.toUInt64
      else if n = 0 ∨ UInt64.size / 2 < n then .double (-n.toUInt64.toFloat) else .negative n.toUInt64) rest := by
  cases rest with
  | nil => cases positive <;> simp [numberRest] <;> split <;> rfl
  | cons c rest =>
      obtain ⟨-, hpoint, hlower, hupper⟩ := hrest c rfl
      cases positive <;> simp [numberRest, hpoint, hlower, hupper] <;> split <;> rfl

/-- The digits of a text are no whitespace. -/
theorem isSpace_digit {c : Char} (h : c.isDigit = true) : isSpace c = false := by
  cases hspace : isSpace c with
  | false => rfl
  | true =>
      simp only [isSpace, Bool.or_eq_true, beq_iff_eq] at hspace
      rcases hspace with ((rfl | rfl) | rfl) | rfl <;> exact absurd h (by decide)

/-- A number's text begins with its sign or a digit. -/
theorem text_begins {n : Number} (h : n.isInteger = true) :
    ∃ c rest, n.text.toList = c :: rest ∧ isSpace c = false ∧ c ≠ ']' := by
  cases n with
  | nonnegative n =>
      obtain ⟨c, digits, heq⟩ := List.exists_cons_of_ne_nil (Nat.toDigits_ne_nil (b := 10) (n := n.toNat))
      have hc : c.isDigit = true :=
        Nat.isDigit_of_mem_toDigits (by decide) (by decide) (heq ▸ List.mem_cons_self)
      refine ⟨c, digits, by rw [Number.text, Nat.toList_repr, heq], isSpace_digit hc, ?_⟩
      rintro rfl
      exact absurd hc (by decide)
  | negative n => exact ⟨'-', n.toNat.repr.toList, by simp [Number.text], by decide, by decide⟩
  | double x => cases h

/-- A value that begins with a digit is a number. -/
theorem valueWith_digit (inner : Option (Reader Json)) (hc : c.isDigit = true) (text : List Char) :
    valueWith inner (c :: text) = (Json.number <$> number true) (c :: text) := by
  have hspace := isSpace_digit hc
  have hne : ∀ d : Char, d.isDigit = false → c ≠ d := fun d hd h => by simp [h, hd] at hc
  simp [valueWith, hspace, hc, hne _ (by decide : 'n'.isDigit = false),
    hne _ (by decide : 't'.isDigit = false), hne _ (by decide : 'f'.isDigit = false),
    hne _ (by decide : '"'.isDigit = false), hne _ (by decide : '-'.isDigit = false),
    hne _ (by decide : '['.isDigit = false), hne _ (by decide : '\x7b'.isDigit = false)]

/-- The text of an integer is read as the integer. -/
theorem valueWith_number (inner : Option (Reader Json)) {n : Number} (hinteger : n.isInteger = true) (hproper : n.Proper)
    (hrest : Closes rest) : valueWith inner (n.text.toList ++ rest) = .ok (.number n) rest := by
  cases n with
  | nonnegative n =>
      have hfits : n.toNat ≤ maxUnsigned := Nat.le_of_lt_succ n.toNat_lt
      obtain ⟨c, digits, heq⟩ := List.exists_cons_of_ne_nil (Nat.toDigits_ne_nil (b := 10) (n := n.toNat))
      have hc : c.isDigit = true :=
        Nat.isDigit_of_mem_toDigits (by decide) (by decide) (heq ▸ List.mem_cons_self)
      have hread := number_digits hfits hrest true
      rw [heq] at hread
      rw [Number.text, Nat.toList_repr, heq, List.cons_append, valueWith_digit inner hc, run_map,
        ← List.cons_append, hread, numberRest_closes true _ hrest]
      simp
  | negative n =>
      obtain ⟨hpos, hle⟩ := hproper
      have hfits : n.toNat ≤ maxUnsigned := Nat.le_of_lt_succ n.toNat_lt
      have hread := number_digits hfits hrest false
      rw [numberRest_closes false _ hrest] at hread
      have hform : ¬ (n.toNat = 0 ∨ UInt64.size / 2 < n.toNat) := by omega
      simp [Number.text, Nat.toList_repr, valueWith, isSpace, hread, hform]
  | double x => cases hinteger

/-! ### Breaks between values -/

theorem toList_newline (level : Nat) : (newline level).toList = '\n' :: List.replicate (2 * level) ' ' := by
  simp [newline]

theorem dropWhile_newline (level : Nat) (text : List Char) :
    ((newline level).toList ++ text).dropWhile isSpace = text.dropWhile isSpace := by
  have hspace : ∀ c ∈ (newline level).toList, isSpace c = true := by
    intro c hc
    rw [toList_newline, List.mem_cons, List.mem_replicate] at hc
    rcases hc with rfl | ⟨-, rfl⟩ <;> rfl
  rw [List.dropWhile_append_of_pos hspace]

/-- A line break closes a number. -/
theorem closes_newline (level : Nat) (text : List Char) : Closes ((newline level).toList ++ text) := by
  intro c hc
  rw [toList_newline] at hc
  obtain rfl := Option.some.inj hc
  decide

/-- So does a comma. -/
theorem closes_comma (text : List Char) : Closes (',' :: text) := by
  intro c hc
  obtain rfl := Option.some.inj hc
  decide

theorem moreItems_first (level : Nat) (hspace : isSpace c = false) (hne : c ≠ ']') (text : List Char) :
    moreItems true ((newline level).toList ++ c :: text) = .ok true (c :: text) := by
  simp [moreItems, dropWhile_newline, hspace]

theorem moreItems_next (level : Nat) (hspace : isSpace c = false) (hne : c ≠ ']') (text : List Char) :
    moreItems false (',' :: ((newline level).toList ++ c :: text)) = .ok true (c :: text) := by
  have hcomma : isSpace ',' = false := rfl
  simp [moreItems, dropWhile_newline, hspace, hcomma]

theorem moreItems_end (first : Bool) (level : Nat) (text : List Char) :
    moreItems first ((newline level).toList ++ ']' :: text) = .ok false (']' :: text) := by
  have hbracket : isSpace ']' = false := rfl
  simp [moreItems, dropWhile_newline, hbracket]

theorem moreMembers_first (level : Nat) (text : List Char) :
    moreMembers true ((newline level).toList ++ '"' :: text) = .ok true ('"' :: text) := by
  have hquote : isSpace '"' = false := rfl
  simp [moreMembers, dropWhile_newline, hquote]

theorem moreMembers_next (level : Nat) (text : List Char) :
    moreMembers false (',' :: ((newline level).toList ++ '"' :: text)) = .ok true ('"' :: text) := by
  have hcomma : isSpace ',' = false := rfl
  have hquote : isSpace '"' = false := rfl
  simp [moreMembers, dropWhile_newline, hquote, hcomma]

theorem moreMembers_end (first : Bool) (level : Nat) (text : List Char) :
    moreMembers first ((newline level).toList ++ '\x7d' :: text) = .ok false ('\x7d' :: text) := by
  have hbracket : isSpace '\x7d' = false := rfl
  simp [moreMembers, dropWhile_newline, hbracket]

/-- A space in front of a value is passed. -/
theorem value_space (depth : Nat) (text : List Char) : value depth (' ' :: text) = value depth text := by
  have hspace : isSpace ' ' = true := rfl
  cases depth <;> simp [value, valueWith, hspace]

/-! ### Lists -/

/-- A reader reads a value from its text, which begins like a value. -/
structure Reads (reader : Reader Json) (level : Nat) (v : Json) : Prop where
  begins : ∃ c text, (renderAt level v).toList = c :: text ∧ isSpace c = false ∧ c ≠ ']'
  read : ∀ rest, Closes rest → reader ((renderAt level v).toList ++ rest) = .ok v rest

section Brackets

variable {reader : Reader Json} {level : Nat}

theorem itemsFrom_item {first : Bool} {fuel : Nat} {text between after : List Char} {item : Json} {items : List Json}
    (hmore : moreItems first text = .ok true between) (hitem : reader between = .ok item after)
    (hitems : itemsFrom reader false fuel after = .ok items rest) :
    itemsFrom reader first (fuel + 1) text = .ok (item :: items) rest := by
  simp [itemsFrom, hmore, hitem, hitems]

/-- What follows an item closes it. -/
theorem closes_renderItems (outer : Nat) (items : List Json) (text : List Char) :
    Closes ((renderItems level items).toList ++ ((newline outer).toList ++ text)) := by
  cases items with
  | nil => simpa [renderItems] using closes_newline outer text
  | cons item items => simpa [renderItems] using closes_comma _

/-- The items behind a list's first one are read one by one up to the bracket. -/
theorem itemsFrom_renderItems {items : List Json} (h : ∀ item ∈ items, Reads reader level item) (outer : Nat)
    {fuel : Nat} (hfuel : items.length < fuel) (rest : List Char) :
    itemsFrom reader false fuel ((renderItems level items).toList ++ ((newline outer).toList ++ ']' :: rest))
      = .ok items (']' :: rest) := by
  induction items generalizing fuel with
  | nil =>
      obtain ⟨fuel, rfl⟩ := Nat.exists_eq_add_one_of_ne_zero (Nat.ne_of_gt hfuel)
      simp [renderItems, itemsFrom, moreItems_end]
  | cons item items ih =>
      obtain ⟨fuel, rfl⟩ := Nat.exists_eq_add_one_of_ne_zero (Nat.ne_of_gt (Nat.zero_lt_of_lt hfuel))
      have hitem := h item List.mem_cons_self
      obtain ⟨c, text, htext, hspace, hne⟩ := hitem.begins
      refine itemsFrom_item ?_ (hitem.read _ (closes_renderItems outer items (']' :: rest)))
        (ih (fun i hi => h i (List.mem_cons_of_mem item hi)) (Nat.lt_of_succ_lt_succ hfuel))
      rw [htext, List.cons_append, ← moreItems_next level hspace hne]
      simp [renderItems, htext]

theorem length_le_renderItems (level : Nat) (items : List Json) :
    items.length ≤ (renderItems level items).toList.length := by
  induction items with
  | nil => exact Nat.zero_le _
  | cons item items ih =>
      have hcomma : (",".toList).length = 1 := rfl
      simp only [renderItems, String.toList_append, List.length_append, List.length_cons]
      omega

theorem listEnd_bracket (text : List Char) : listEnd (']' :: text) = .ok () text := by
  have hbracket : isSpace ']' = false := rfl
  simp [listEnd, hbracket]

/-- A list is read from its text. -/
theorem valueWith_array {items : List Json} (h : ∀ item ∈ items, Reads reader (level + 1) item) (rest : List Char) :
    valueWith (some reader) ((renderAt level (.array items)).toList ++ rest) = .ok (.array items) rest := by
  have hopen : isSpace '[' = false := rfl
  have hclose : isSpace ']' = false := rfl
  cases items with
  | nil => simp [renderAt, valueWith, hopen, enclosed, itemsFrom, moreItems, hclose, listEnd_bracket]
  | cons item items =>
      obtain ⟨text, htext⟩ : ∃ text, text = (newline (level + 1)).toList ++ ((renderAt (level + 1) item).toList
        ++ ((renderItems (level + 1) items).toList ++ ((newline level).toList ++ ']' :: rest))) := ⟨_, rfl⟩
      have hitem := h item List.mem_cons_self
      obtain ⟨c, after, hafter, hspace, hne⟩ := hitem.begins
      have hlength : items.length < text.length := by
        have hle := length_le_renderItems (level + 1) items
        simp only [htext, List.length_append, List.length_cons]
        omega
      have hread : itemsFrom reader true (text.length + 1) text = .ok (item :: items) (']' :: rest) := by
        refine itemsFrom_item ?_ (hitem.read _ (closes_renderItems level items (']' :: rest)))
          (itemsFrom_renderItems (fun i hi => h i (List.mem_cons_of_mem item hi)) level hlength rest)
        rw [htext, hafter]
        exact moreItems_first (level + 1) hspace hne _
      have hwhole : (renderAt level (.array (item :: items))).toList ++ rest = '[' :: text := by
        simp [renderAt, htext]
      rw [hwhole]
      simp [valueWith, hopen, run_enclosed hread (listEnd_bracket rest)]

/-! ### Objects -/

theorem membersFrom_member {first : Bool} {fuel : Nat} {text between after : List Char} {name : String} {value : Json}
    {members : List (String × Json)}
    (hmore : moreMembers first text = .ok true ((quote name).toList ++ ':' :: ' ' :: between))
    (hvalue : reader (' ' :: between) = .ok value after)
    (hmembers : membersFrom reader false fuel after = .ok members rest) :
    membersFrom reader first (fuel + 1) text = .ok ((name, value) :: members) rest := by
  have hkey : key ((quote name).toList ++ ':' :: ' ' :: between) = .ok name (':' :: ' ' :: between) := by
    have hread := string_quoted name (':' :: ' ' :: between)
    simpa [key, quote] using hread
  have hcolon : colon (':' :: ' ' :: between) = .ok () (' ' :: between) := by
    have hspace : isSpace ':' = false := rfl
    simp [colon, hspace]
  simp [membersFrom, hmore, hkey, hcolon, hvalue, hmembers]

/-- What follows a member closes its value. -/
theorem closes_renderMembers (outer : Nat) (members : List (String × Json)) (text : List Char) :
    Closes ((renderMembers level members).toList ++ ((newline outer).toList ++ text)) := by
  cases members with
  | nil => simpa [renderMembers] using closes_newline outer text
  | cons member members => simpa [renderMembers] using closes_comma _

/-- A key's text begins with its quote. -/
theorem quote_begins (name : String) : ∃ text, (quote name).toList = '"' :: text :=
  ⟨name.toList.flatMap escapeChar ++ ['"'], by simp [quote]⟩

/-- The members behind an object's first one are read one by one up to the bracket. -/
theorem membersFrom_renderMembers {members : List (String × Json)}
    (h : ∀ member ∈ members, ∀ rest, Closes rest →
      reader (' ' :: ((renderAt level member.2).toList ++ rest)) = .ok member.2 rest)
    (outer : Nat) {fuel : Nat} (hfuel : members.length < fuel) (rest : List Char) :
    membersFrom reader false fuel ((renderMembers level members).toList ++ ((newline outer).toList ++ '\x7d' :: rest))
      = .ok members ('\x7d' :: rest) := by
  induction members generalizing fuel with
  | nil =>
      obtain ⟨fuel, rfl⟩ := Nat.exists_eq_add_one_of_ne_zero (Nat.ne_of_gt hfuel)
      simp [renderMembers, membersFrom, moreMembers_end]
  | cons member members ih =>
      obtain ⟨name, value⟩ := member
      obtain ⟨fuel, rfl⟩ := Nat.exists_eq_add_one_of_ne_zero (Nat.ne_of_gt (Nat.zero_lt_of_lt hfuel))
      refine membersFrom_member ?_ (h (name, value) List.mem_cons_self _
        (closes_renderMembers outer members ('\x7d' :: rest)))
        (ih (fun m hm => h m (List.mem_cons_of_mem _ hm)) (Nat.lt_of_succ_lt_succ hfuel))
      obtain ⟨text, htext⟩ := quote_begins name
      rw [htext, List.cons_append, ← moreMembers_next level]
      simp [renderMembers, htext]

theorem length_le_renderMembers (level : Nat) (members : List (String × Json)) :
    members.length ≤ (renderMembers level members).toList.length := by
  induction members with
  | nil => exact Nat.zero_le _
  | cons member members ih =>
      have hcomma : (",".toList).length = 1 := rfl
      simp only [renderMembers, String.toList_append, List.length_append, List.length_cons]
      omega

theorem objectEnd_bracket (text : List Char) : objectEnd ('\x7d' :: text) = .ok () text := by
  have hbracket : isSpace '\x7d' = false := rfl
  simp [objectEnd, hbracket]

/-- An object is read from its text. -/
theorem valueWith_object {members : List (String × Json)}
    (h : ∀ member ∈ members, ∀ rest, Closes rest →
      reader (' ' :: ((renderAt (level + 1) member.2).toList ++ rest)) = .ok member.2 rest)
    (rest : List Char) :
    valueWith (some reader) ((renderAt level (.object members)).toList ++ rest) = .ok (.object members) rest := by
  have hopen : isSpace '\x7b' = false := rfl
  have hclose : isSpace '\x7d' = false := rfl
  cases members with
  | nil => simp [renderAt, valueWith, hopen, enclosed, membersFrom, moreMembers, hclose, objectEnd_bracket]
  | cons member members =>
      obtain ⟨name, value⟩ := member
      obtain ⟨text, htext⟩ : ∃ text, text = (newline (level + 1)).toList ++ ((quote name).toList ++ ':' :: ' '
        :: ((renderAt (level + 1) value).toList
          ++ ((renderMembers (level + 1) members).toList ++ ((newline level).toList ++ '\x7d' :: rest)))) := ⟨_, rfl⟩
      have hlength : members.length < text.length := by
        have hle := length_le_renderMembers (level + 1) members
        simp only [htext, List.length_append, List.length_cons]
        omega
      have hread : membersFrom reader true (text.length + 1) text = .ok ((name, value) :: members) ('\x7d' :: rest) := by
        refine membersFrom_member ?_ (h (name, value) List.mem_cons_self _
          (closes_renderMembers level members ('\x7d' :: rest)))
          (membersFrom_renderMembers (fun m hm => h m (List.mem_cons_of_mem _ hm)) level hlength rest)
        obtain ⟨quoted, hquoted⟩ := quote_begins name
        rw [htext, hquoted]
        exact moreMembers_first (level + 1) _
      have hwhole : (renderAt level (.object ((name, value) :: members))).toList ++ rest = '\x7b' :: text := by
        simp [renderAt, htext]
      rw [hwhole]
      simp [valueWith, hopen, run_enclosed hread (objectEnd_bracket rest)]

end Brackets

/-! ### Values -/

/-- A value's text begins with a character of its own. -/
theorem renderAt_begins {v : Json} (h : ∀ n ∈ v.numbers, n.isInteger = true) (level : Nat) :
    ∃ c text, (renderAt level v).toList = c :: text ∧ isSpace c = false ∧ c ≠ ']' := by
  cases v with
  | null => exact ⟨'n', _, by rw [renderAt]; rfl, by decide, by decide⟩
  | bool b => cases b <;> exact ⟨_, _, by rw [renderAt]; rfl, by decide, by decide⟩
  | number n =>
      obtain ⟨c, text, htext, hc⟩ := text_begins (h n (by rw [numbers]; exact List.mem_singleton_self n))
      exact ⟨c, text, by rw [renderAt, htext], hc⟩
  | string text => exact ⟨'"', _, by simp [renderAt, quote]; rfl, by decide, by decide⟩
  | array items => cases items <;> exact ⟨'[', _, by simp [renderAt]; rfl, by decide, by decide⟩
  | object members => cases members <;> exact ⟨'\x7b', _, by simp [renderAt]; rfl, by decide, by decide⟩

/-- The text of a value is read as the value. -/
theorem reads_value {depth : Nat} {v : Json} (hnests : Nests depth v)
    (hnumbers : ∀ n ∈ v.numbers, n.isInteger = true ∧ n.Proper) (level : Nat) : Reads (value depth) level v := by
  refine ⟨renderAt_begins (fun n hn => (hnumbers n hn).1) level, fun rest hrest => ?_⟩
  -- Scalars are read in the same way at any depth.
  have hscalar : ∀ {depth text result}, (∀ inner, valueWith inner text = result) → value depth text = result := by
    intro depth text result h
    cases depth <;> exact h _
  induction hnests generalizing level rest with
  | null => exact hscalar fun inner => by simp [renderAt, valueWith, isSpace, word]
  | bool b =>
      refine hscalar fun inner => ?_
      cases b <;> simp [renderAt, valueWith, isSpace, word]
  | number n =>
      refine hscalar fun inner => ?_
      obtain ⟨hinteger, hproper⟩ := hnumbers n (by rw [numbers]; exact List.mem_singleton_self n)
      rw [renderAt, valueWith_number inner hinteger hproper hrest]
  | string text =>
      refine hscalar fun inner => ?_
      obtain ⟨quoted, hquoted⟩ := quote_begins text
      have hread := string_quoted text rest
      rw [hquoted, List.drop_succ_cons, List.drop_zero] at hread
      simp [renderAt, hquoted, valueWith, isSpace, hread]
  | array _ ih =>
      rw [numbers_array] at hnumbers
      have hitem := fun item hitem n hn => hnumbers n (List.mem_flatMap.2 ⟨item, hitem, hn⟩)
      exact valueWith_array (fun item hmem => ⟨renderAt_begins (fun n hn => (hitem item hmem n hn).1) _,
        fun rest hrest => ih item hmem (hitem item hmem) _ rest hrest⟩) rest
  | object _ ih =>
      rw [numbers_object] at hnumbers
      have hmember := fun member hmember n hn => hnumbers n (List.mem_flatMap.2 ⟨member, hmember, hn⟩)
      refine valueWith_object (fun member hmem rest hrest => ?_) rest
      rw [value_space]
      exact ih member hmem (hmember member hmem) _ rest hrest

end Reader

/-- A document of integers is read as what it was made of. -/
theorem parse_render {v : Json} (hnests : Nests Reader.maxDepth v)
    (hnumbers : ∀ n ∈ v.numbers, n.isInteger = true ∧ n.Proper) (hsettled : v.settle = v) : parse v.render = .ok v := by
  have hread := (Reader.reads_value hnests hnumbers 0).read [] (fun c hc => nomatch hc)
  rw [List.append_nil] at hread
  simp [parse, render, hread, hsettled, Reader.documentEnd]

end ModPackager.Json
