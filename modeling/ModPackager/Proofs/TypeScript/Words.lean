import ModPackager.TypeScript.Cursor

/-!
# Words of a source

A token holds what the grammar asks about, and for words that is how they are spelt. Only names are read as words,
so whoever has found a word has left something of the source behind (`readToken_lt`). A cursor at a word has read
it off the source that begins there (`Cursor.readToken_of_isWord`); so the words that a reader passes stand one
behind the other in the source itself (`Passes`), whatever the cursor has gone through before.
-/

namespace ModPackager.TypeScript

/-! ### What is read as a word -/

theorem scanName_lt {source : List Char} (h : (scanName source).name ≠ []) :
    (scanName source).rest.length < source.length := by
  unfold scanName at h ⊢
  -- An escape has passed its backslash at least, and another character only ends a name that is still empty.
  split
  next rest =>
      have hrest := (suffix_scanBraced 0 false rest).length_le
      simp only [List.length_cons]
      omega
  next rest _ =>
      have hrest := (suffix_scanName rest).length_le
      split <;> simp only [NameScan.rest_cons, List.length_cons] <;> omega
  next rest _ _ => simp
  next c rest _ _ _ =>
      have hrest := (suffix_scanName rest).length_le
      split
      · simp only [NameScan.rest_cons, List.length_cons]
        omega
      next hpart => simp [hpart] at h
  · simp at h

theorem readWord_lt {source : List Char} {name : String} (h : (readWord source).1 = .word name) :
    (readWord source).2.length < source.length := by
  have hname : (scanName source).name ≠ [] := by
    intro hempty
    simp [readWord, hempty] at h
  rw [readWord_rest]
  exact scanName_lt hname

/-- The word that a token is. -/
def Token.word? : Token → Option String
  | .word name => some name
  | _ => none

theorem endNumber_word? {token : Token} (h : token.word? = none) (rest : List Char) :
    (endNumber token rest).1.word? = none := by
  unfold endNumber
  split
  · split
    · rfl
    · exact h
  · exact h

theorem readExponent_word? (source : List Char) : (readExponent source).1.word? = none := by
  unfold readExponent
  split
  · extract_lets digits
    split
    · split
      · exact endNumber_word? rfl _
      · rfl
    · exact endNumber_word? rfl _
  · rfl

theorem readRadix_word? (isDigit : Char → Bool) (source : List Char) : (readRadix isDigit source).1.word? = none := by
  unfold readRadix
  split
  · rfl
  · exact endNumber_word? rfl _
  · exact endNumber_word? rfl _

theorem readNumber_word? (source : List Char) : (readNumber source).1.word? = none := by
  have hdecimal : (readNumber.readDecimal source).1.word? = none := by
    unfold readNumber.readDecimal
    split
    · exact readExponent_word? _
    · split
      · exact endNumber_word? rfl _
      · exact readExponent_word? _
      · exact readExponent_word? _
  unfold readNumber
  split
  · repeat' split
    all_goals first | exact hdecimal | exact readRadix_word? _ _
  · exact hdecimal

mutual

theorem readString_word? (quote : Char) (source : List Char) : (readString quote source).1.word? = none := by
  unfold readString
  split
  · rfl
  next rest =>
      split
      · exact readString_word? quote rest
      · rfl
  · rfl
  next rest => exact readBraced_word? quote 0 false rest
  next rest _ =>
      split
      · exact readString_word? quote rest
      · rfl
  · rfl
  next rest => exact readString_word? quote rest
  next rest _ _ _ _ _ _ => exact readString_word? quote rest
  next rest _ _ _ _ _ _ _ =>
      split
      · rfl
      · split
        · rfl
        · exact readString_word? quote rest

theorem readBraced_word? (quote : Char) (value : Nat) (any : Bool) (source : List Char) :
    (readString.readBraced quote value any source).1.word? = none := by
  unfold readString.readBraced
  split
  next rest =>
      split
      · exact readString_word? quote rest
      · rfl
  next rest _ =>
      split
      · exact readBraced_word? quote _ true rest
      · rfl
  · rfl

end

theorem readPunctuator_word? (source : List Char) : (readPunctuator source).1.word? = none := by
  unfold readPunctuator
  extract_lets optional
  split
  · rfl
  · split
    · rfl
    · split
      · split <;> rfl
      · rfl

/-- Only names are read as words, and reading one takes something off the source. -/
theorem readToken_lt {source rest : List Char} {name : String} (h : readToken source = (.word name, rest)) :
    rest.length < source.length := by
  have hword {read : Token × List Char} (hread : read = (.word name, rest)) (hnone : read.1.word? = none) : False := by
    simp [hread, Token.word?] at hnone
  unfold readToken at h
  split at h
  · cases h
  · split at h
    · exact (hword h (readNumber_word? _)).elim
    · exact (hword h (readPunctuator_word? _)).elim
  · split at h
    · exact (hword h (readNumber_word? _)).elim
    · split at h
      · exact (hword h (readString_word? _ _)).elim
      · split at h
        · have hlt := readWord_lt (congrArg Prod.fst h)
          rwa [h] at hlt
        · exact (hword h (readPunctuator_word? _)).elim

/-! ### Words in a row -/

/-- Words stand at the front of a source, with whitespace and comments behind each. -/
inductive Passes : List Char → List String → List Char → Prop
  | here (source : List Char) : Passes source [] source
  | word {source rest left : List Char} {name : String} {names : List String}
      (hword : readToken source = (.word name, rest))
      (hrest : Passes (skipTrivia (Token.word name).holdsTrailingComment false rest).rest names left) :
      Passes source (name :: names) left

theorem Passes.suffix {source left : List Char} {names : List String} (h : Passes source names left) :
    left <:+ source := by
  induction h with
  | here => exact List.suffix_rfl
  | @word source rest left name names hword _ ih =>
      have hrest := suffix_readToken source
      rw [hword] at hrest
      exact ih.trans ((suffix_skipTrivia _ _ _).trans hrest)

namespace Cursor

variable {cursor : Cursor} {name : String}

theorem token_of_isWord (h : cursor.isWord name = true) : cursor.token = .word name := by simpa [isWord] using h

theorem readToken_of_isWord (h : cursor.isWord name = true) : readToken cursor.start = (.word name, cursor.rest) := by
  have htoken := token_of_isWord h
  rw [cursor.readToken_start name htoken, htoken]

theorem advance_lt_of_isWord (h : cursor.isWord name = true) : cursor.advance.start.length < cursor.start.length := by
  have hword : cursor.rest.length < cursor.start.length := readToken_lt (readToken_of_isWord h)
  have hadvance : cursor.advance.start.length ≤ cursor.rest.length := (cursor.suffix_load _ _).length_le
  omega

theorem passes_of_isWord {names : List String} {left : List Char} (h : cursor.isWord name = true)
    (hrest : Passes cursor.advance.start names left) : Passes cursor.start (name :: names) left := by
  refine .word (readToken_of_isWord h) ?_
  rwa [← token_of_isWord h]

end Cursor

end ModPackager.TypeScript
