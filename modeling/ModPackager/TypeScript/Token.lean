import ModPackager.TypeScript.CharClass

/-!
# Tokens of TypeScript source

A token is read off the front of the remaining source; what it leaves is returned with it. Angle
brackets are always single tokens, because only the grammar knows whether two of them close two type
argument lists or form a shift. Regular expressions, the parts of templates and the text of markup
are read by the grammar where it expects them, so a slash or a back quote is a token of its own.
-/

namespace ModPackager.TypeScript

/-- One token, without its spelling where the grammar does not ask for it. -/
inductive Token
  | endOfFile
  /-- An identifier or a keyword, with its escapes decoded. -/
  | word (name : String)
  | number
  | bigInt
  | string
  /-- A regular expression, template or piece of markup that the grammar has read by itself. -/
  | scanned (trailing : Bool)
  | punctuator (text : String)
  /-- Characters that begin no token. -/
  | malformed
deriving DecidableEq, Repr

/-- Keywords that never name anything in a module. -/
def hardKeywords : List String :=
  ["break", "case", "catch", "continue", "debugger", "default", "do", "else", "finally", "for",
   "function", "if", "return", "switch", "throw", "try", "var", "const", "while", "with", "new",
   "this", "super", "class", "extends", "export", "import", "in", "instanceof", "typeof", "void",
   "delete"]

/-- All keywords, those that some position accepts as a name included. -/
def keywords : List String := "let" :: "yield" :: "await" :: hardKeywords

/-- Words that stand for values. -/
def literalWords : List String := ["null", "true", "false"]

/-- Words that cannot refer to a variable in a module, which is always strict. -/
def reservedWords : List String :=
  keywords ++ literalWords ++
    ["enum", "implements", "package", "protected", "interface", "private", "public"]

/-- The opening brace as a punctuator. -/
def openBrace : String := "\x7b"

/-- The closing brace as a punctuator. -/
def closeBrace : String := "\x7d"

/-- The back quote as a punctuator. -/
def backQuote : String := "\x60"

/-- Whether a comment that begins on the same line after the token belongs to it, and not to the
token that follows the comment. -/
def Token.holdsTrailingComment : Token → Bool
  | .word name => !keywords.contains name && !literalWords.contains name
  | .number | .bigInt | .string => true
  | .scanned trailing => trailing
  | .punctuator text => text == ";" || text == openBrace || text == closeBrace
  | .endOfFile | .malformed => false

/-! ### Names -/

/-- The value of a hexadecimal digit. -/
def hexValue? (c : Char) : Option Nat :=
  if c.isDigit then some (c.toNat - '0'.toNat)
  else if 'a' ≤ c ∧ c ≤ 'f' then some (c.toNat - 'a'.toNat + 10)
  else if 'A' ≤ c ∧ c ≤ 'F' then some (c.toNat - 'A'.toNat + 10)
  else none

/-- The value of hexadecimal digits, if all are such digits. -/
def hexNumber? (digits : List Char) : Option Nat :=
  digits.foldl (fun value c => do return 16 * (← value) + (← hexValue? c)) (some 0)

/-- The character with a given code, if it is a character. -/
def charOfCode? (code : Nat) : Option Char :=
  if code.isValidChar then some (Char.ofNat code) else none

/-- What reading a name gives: its characters with escapes decoded, whether there was an escape,
whether all escapes were well formed, and what follows. -/
structure NameScan where
  name : List Char
  escaped : Bool
  wellFormed : Bool
  rest : List Char

/-- Puts a character in front of a scanned name. -/
def NameScan.cons (c : Option Char) (escaped : Bool) (scan : NameScan) : NameScan :=
  match c with
  | some c => { scan with
      name := c :: scan.name
      escaped := escaped || scan.escaped
      wellFormed := (isIdentPart c) && scan.wellFormed }
  | none => { scan with escaped := true, wellFormed := false }

mutual

/-- Reads the characters of a name. -/
def scanName : List Char → NameScan
  | '\\' :: 'u' :: '{' :: rest => scanBraced 0 false rest
  | '\\' :: 'u' :: a :: b :: c :: d :: rest =>
    match (hexNumber? [a, b, c, d]).bind charOfCode? with
    | some decoded => (scanName rest).cons (some decoded) true
    | none => ⟨[], true, false, rest⟩
  | '\\' :: rest => ⟨[], true, false, rest⟩
  | c :: rest => if isIdentPart c then (scanName rest).cons (some c) false else ⟨[], false, true, c :: rest⟩
  | [] => ⟨[], false, true, []⟩

/-- Reads the digits of a braced escape with the value so far, then the rest of the name. -/
def scanBraced (value : Nat) (any : Bool) : List Char → NameScan
  | '}' :: rest =>
    if any then (scanName rest).cons (charOfCode? value) true else ⟨[], true, false, rest⟩
  | c :: rest =>
    match hexValue? c with
    | some digit => scanBraced (min (16 * value + digit) 0x110000) true rest
    | none => ⟨[], true, false, rest⟩
  | [] => ⟨[], true, false, []⟩

end

/-- Reads a name or a keyword. A keyword must be spelt without escapes. -/
def readWord (source : List Char) : Token × List Char :=
  let scan := scanName source
  let name := String.ofList scan.name
  let startsWell := match scan.name with
    | c :: _ => isIdentStart c
    | [] => false
  if !scan.wellFormed || !startsWell then (.malformed, scan.rest)
  else if scan.escaped && (keywords.contains name || literalWords.contains name) then
    (.malformed, scan.rest)
  else (.word name, scan.rest)

/-! ### Numbers -/

/-- Drops digits of a class and separators between them; also says whether there was a digit. -/
def dropDigits (isDigit : Char → Bool) (source : List Char) : Bool × List Char :=
  let rest := source.dropWhile fun c => isDigit c || c == '_'
  (((source.takeWhile fun c => isDigit c || c == '_').any isDigit), rest)

/-- A number must not run into a name. -/
def endNumber (token : Token) (rest : List Char) : Token × List Char :=
  match rest with
  | c :: _ => if isIdentStart c || c == '\\' then (.malformed, rest) else (token, rest)
  | [] => (token, rest)

/-- Reads an exponent, if there is one. -/
def readExponent (rest : List Char) : Token × List Char :=
  match rest with
  | e :: after =>
    if e == 'e' || e == 'E' then
      let digits := match after with
        | '+' :: more | '-' :: more => more
        | _ => after
      match dropDigits Char.isDigit digits with
      | (true, rest) => endNumber .number rest
      | (false, rest) => (.malformed, rest)
    else endNumber .number rest
  | [] => (.number, [])

/-- Reads the digits of a number with a radix mark. -/
def readRadix (isDigit : Char → Bool) (source : List Char) : Token × List Char :=
  match dropDigits isDigit source with
  | (false, rest) => (.malformed, rest)
  | (true, 'n' :: rest) => endNumber .bigInt rest
  | (true, rest) => endNumber .number rest

/-- A hexadecimal digit. -/
def isHexDigit (c : Char) : Bool := (hexValue? c).isSome

/-- Reads a number that begins with a digit, or with a point and a digit. -/
def readNumber (source : List Char) : Token × List Char :=
  match source with
  | '0' :: mark :: rest =>
    if mark == 'x' || mark == 'X' then readRadix isHexDigit rest
    else if mark == 'o' || mark == 'O' then readRadix (fun c => '0' ≤ c ∧ c ≤ '7') rest
    else if mark == 'b' || mark == 'B' then readRadix (fun c => c == '0' || c == '1') rest
    else readDecimal source
  | _ => readDecimal source
where
  /-- Reads a number without a radix mark. -/
  readDecimal (source : List Char) : Token × List Char :=
    match source with
    | '.' :: fraction => readExponent (dropDigits Char.isDigit fraction).2
    | _ =>
      match (dropDigits Char.isDigit source).2 with
      | 'n' :: rest => endNumber .bigInt rest
      | '.' :: fraction => readExponent (dropDigits Char.isDigit fraction).2
      | rest => readExponent rest

/-! ### Strings -/

/-- Reads a string after its opening quote. A string that ends with its line is taken as it stands;
a hexadecimal or Unicode escape must be complete. -/
def readString (quote : Char) : List Char → Token × List Char
  | [] => (.string, [])
  | '\\' :: 'x' :: a :: b :: rest =>
    if isHexDigit a && isHexDigit b then readString quote rest else (.malformed, rest)
  | '\\' :: 'x' :: rest => (.malformed, rest)
  | '\\' :: 'u' :: '{' :: rest => readBraced quote 0 false rest
  | '\\' :: 'u' :: a :: b :: c :: d :: rest =>
    if [a, b, c, d].all isHexDigit then readString quote rest else (.malformed, rest)
  | '\\' :: 'u' :: rest => (.malformed, rest)
  | '\\' :: '\r' :: '\n' :: rest => readString quote rest
  | '\\' :: _ :: rest => readString quote rest
  | c :: rest =>
    if c == quote then (.string, rest)
    else if c == '\n' || c == '\r' then (.string, c :: rest)
    else readString quote rest
where
  /-- Reads the digits of a braced escape. -/
  readBraced (quote : Char) (value : Nat) (any : Bool) : List Char → Token × List Char
    | '}' :: rest => if any && value < 0x110000 then readString quote rest else (.malformed, rest)
    | c :: rest =>
      match hexValue? c with
      | some digit => readBraced quote (min (16 * value + digit) 0x110000) true rest
      | none => (.malformed, rest)
    | [] => (.malformed, [])

/-! ### Punctuators -/

/-- Punctuators of more than one character, longer ones before their beginnings. Angle brackets are
missing on purpose. -/
def longPunctuators : List String :=
  ["...", "===", "!==", "**=", "&&=", "||=", "??=",
   "==", "!=", "=>", "++", "--", "+=", "-=", "*=", "/=", "%=", "&=", "|=", "^=", "&&", "||", "??",
   "**"]

/-- Characters that are punctuators by themselves. -/
def shortPunctuators : List Char :=
  ['{', '}', '(', ')', '[', ']', ';', ',', '<', '>', '+', '-', '*', '/', '%', '&', '|', '^', '!',
   '~', '?', ':', '=', '.', '@', '#', '\x60']

/-- Reads a punctuator. An optional chain is not one when a digit follows its point. -/
def readPunctuator (source : List Char) : Token × List Char :=
  let optional := match source with
    | '?' :: '.' :: c :: _ => !c.isDigit
    | ['?', '.'] => true
    | _ => false
  if optional then (.punctuator "?.", source.drop 2)
  else
    match longPunctuators.find? (fun text => text.toList.isPrefixOf source) with
    | some text => (.punctuator text, source.drop text.length)
    | none =>
      match source with
      | c :: rest =>
        if shortPunctuators.contains c then (.punctuator (String.singleton c), rest)
        else (.malformed, rest)
      | [] => (.endOfFile, [])

/-- Reads the token at the front of source that begins with neither whitespace nor a comment. -/
def readToken (source : List Char) : Token × List Char :=
  match source with
  | [] => (.endOfFile, [])
  | '.' :: d :: _ => if d.isDigit then readNumber source else readPunctuator source
  | c :: rest =>
    if c.isDigit then readNumber source
    else if c == '"' || c == '\'' then readString c rest
    else if isIdentStart c || c == '\\' then readWord source
    else readPunctuator source

/-- The operator that begins with an angle bracket at the front of the source. -/
def angleOperator (source : List Char) : String :=
  let spellings := [">>>=", ">>>", ">>=", ">>", ">=", ">", "<<=", "<<", "<=", "<"]
  (spellings.find? fun text => text.toList.isPrefixOf source).getD ""

/-! ### Regular expressions, templates and markup text -/

/-- Drops a regular expression after its opening slash, its flags included; `inClass` says whether
a bracketed class is open. A regular expression ends on its line. -/
def dropRegex (inClass : Bool) : List Char → Option (List Char)
  | [] => none
  | '\\' :: c :: rest => if isLineEnd c then none else dropRegex inClass rest
  | c :: rest =>
    if isLineEnd c then none
    else if c == '[' then dropRegex true rest
    else if c == ']' then dropRegex false rest
    else if c == '/' && !inClass then some (rest.dropWhile isIdentPart)
    else dropRegex inClass rest

/-- How a stretch of template text ends. -/
inductive TemplateEnd
  /-- The template's closing quote. -/
  | quote
  /-- A substitution. -/
  | substitution
  /-- The end of the source. -/
  | missing
deriving DecidableEq

/-- A stretch of template text: how it ends, whether its escapes are well formed, what follows. -/
structure TemplateText where
  ending : TemplateEnd
  wellFormed : Bool
  rest : List Char

/-- Marks a stretch of template text as holding a malformed escape. -/
def TemplateText.malformed (text : TemplateText) : TemplateText := { text with wellFormed := false }

/-- Reads template text up to the closing quote or a substitution. -/
def readTemplateText : List Char → TemplateText
  | [] => ⟨.missing, true, []⟩
  | '\\' :: 'x' :: a :: b :: rest =>
    if isHexDigit a && isHexDigit b then readTemplateText rest
    else (readTemplateText (a :: b :: rest)).malformed
  | '\\' :: 'u' :: '{' :: rest =>
    let digits := rest.takeWhile isHexDigit
    let closed := (rest.dropWhile isHexDigit).head? == some '}'
    let valid := !digits.isEmpty && closed && ((hexNumber? digits).getD 0x110000) < 0x110000
    if valid then readTemplateText rest else (readTemplateText rest).malformed
  | '\\' :: 'u' :: a :: b :: c :: d :: rest =>
    if [a, b, c, d].all isHexDigit then readTemplateText rest
    else (readTemplateText (a :: b :: c :: d :: rest)).malformed
  | '\\' :: c :: rest =>
    let octal := '1' ≤ c ∧ c ≤ '9' || (c == '0' && (rest.head?.any Char.isDigit))
    if octal || c == 'x' || c == 'u' then (readTemplateText rest).malformed
    else readTemplateText rest
  | '$' :: '{' :: rest => ⟨.substitution, true, rest⟩
  | c :: rest => if c == '\x60' then ⟨.quote, true, rest⟩ else readTemplateText rest

/-! ### What is left of the source

Whatever is read off the front of a source, what is left is the end of it. -/

@[simp]
theorem NameScan.rest_cons (c : Option Char) (escaped : Bool) (scan : NameScan) :
    (scan.cons c escaped).rest = scan.rest := by
  cases c <;> rfl

mutual

theorem suffix_scanName (source : List Char) : (scanName source).rest <:+ source := by
  unfold scanName
  split
  next rest => simp [List.suffix_cons_iff, suffix_scanBraced 0 false rest]
  next rest _ => split <;> simp [List.suffix_cons_iff, suffix_scanName rest]
  · exact List.suffix_cons _ _
  next rest _ _ _ => split <;> simp [List.suffix_cons_iff, suffix_scanName rest]
  · exact List.suffix_rfl

theorem suffix_scanBraced (value : Nat) (any : Bool) (source : List Char) :
    (scanBraced value any source).rest <:+ source := by
  unfold scanBraced
  split
  next rest => split <;> simp [List.suffix_cons_iff, suffix_scanName rest]
  next rest _ => split <;> simp [List.suffix_cons_iff, suffix_scanBraced _ true rest]
  · exact List.suffix_rfl

end

theorem readWord_rest (source : List Char) : (readWord source).2 = (scanName source).rest := by
  simp only [readWord]
  split <;> split <;> first | rfl | split <;> rfl

@[simp]
theorem endNumber_rest (token : Token) (rest : List Char) : (endNumber token rest).2 = rest := by
  unfold endNumber
  split
  · split <;> rfl
  · rfl

theorem suffix_dropDigits (isDigit : Char → Bool) (source : List Char) :
    (dropDigits isDigit source).2 <:+ source := List.dropWhile_suffix _

theorem suffix_readExponent (source : List Char) : (readExponent source).2 <:+ source := by
  unfold readExponent
  split
  next e after =>
    split
    · extract_lets digits
      have hdigits : digits <:+ e :: after := by
        unfold digits
        split <;> simp [List.suffix_cons_iff]
      have hrest := (suffix_dropDigits Char.isDigit digits).trans hdigits
      split <;> simp_all
    · simp
  · exact List.suffix_rfl

theorem suffix_readRadix (isDigit : Char → Bool) (source : List Char) : (readRadix isDigit source).2 <:+ source := by
  have hrest := suffix_dropDigits isDigit source
  unfold readRadix
  split <;> simp_all
  exact (List.suffix_cons _ _).trans hrest

theorem suffix_readDecimal (source : List Char) : (readNumber.readDecimal source).2 <:+ source := by
  have hfraction (fraction : List Char) : (readExponent (dropDigits Char.isDigit fraction).2).2 <:+ '.' :: fraction :=
    (suffix_readExponent _).trans ((suffix_dropDigits _ fraction).trans (List.suffix_cons _ _))
  unfold readNumber.readDecimal
  split
  · exact hfraction _
  · have hrest := suffix_dropDigits Char.isDigit source
    split
    next heq =>
      rw [heq] at hrest
      rw [endNumber_rest]
      exact (List.suffix_cons _ _).trans hrest
    next fraction heq =>
      rw [heq] at hrest
      exact (hfraction fraction).trans hrest
    · exact (suffix_readExponent _).trans hrest

theorem suffix_readNumber (source : List Char) : (readNumber source).2 <:+ source := by
  unfold readNumber
  split
  next mark rest =>
    have hradix (isDigit : Char → Bool) : (readRadix isDigit rest).2 <:+ '0' :: mark :: rest :=
      (suffix_readRadix isDigit rest).trans (by simp [List.suffix_cons_iff])
    split
    · exact hradix _
    · split
      · exact hradix _
      · split
        · exact hradix _
        · exact suffix_readDecimal _
  · exact suffix_readDecimal source

mutual

theorem suffix_readString (quote : Char) (source : List Char) : (readString quote source).2 <:+ source := by
  unfold readString
  split
  · exact List.suffix_rfl
  next rest => split <;> simp [List.suffix_cons_iff, suffix_readString quote rest]
  · simp [List.suffix_cons_iff]
  next rest => simp [List.suffix_cons_iff, suffix_readBraced quote 0 false rest]
  next rest _ => split <;> simp [List.suffix_cons_iff, suffix_readString quote rest]
  · simp [List.suffix_cons_iff]
  next rest => simp [List.suffix_cons_iff, suffix_readString quote rest]
  next rest _ _ _ _ _ _ => simp [List.suffix_cons_iff, suffix_readString quote rest]
  next rest _ _ _ _ _ _ _ =>
    split
    · exact List.suffix_cons _ _
    · split <;> simp [List.suffix_cons_iff, suffix_readString quote rest]

theorem suffix_readBraced (quote : Char) (value : Nat) (any : Bool) (source : List Char) :
    (readString.readBraced quote value any source).2 <:+ source := by
  unfold readString.readBraced
  split
  next rest => split <;> simp [List.suffix_cons_iff, suffix_readString quote rest]
  next rest _ => split <;> simp [List.suffix_cons_iff, suffix_readBraced quote _ true rest]
  · exact List.suffix_rfl

end

theorem suffix_readPunctuator (source : List Char) : (readPunctuator source).2 <:+ source := by
  unfold readPunctuator
  extract_lets optional
  split
  · exact List.drop_suffix _ _
  · split
    · exact List.drop_suffix _ _
    · split
      · split <;> exact List.suffix_cons _ _
      · exact List.suffix_rfl

theorem suffix_readToken (source : List Char) : (readToken source).2 <:+ source := by
  unfold readToken
  split
  · exact List.suffix_rfl
  · split
    · exact suffix_readNumber _
    · exact suffix_readPunctuator _
  · split
    · exact suffix_readNumber _
    · split
      · exact (suffix_readString _ _).trans (List.suffix_cons _ _)
      · split
        · rw [readWord_rest]
          exact suffix_scanName _
        · exact suffix_readPunctuator _

theorem suffix_of_dropRegex {inClass : Bool} {source rest : List Char} (h : dropRegex inClass source = some rest) :
    rest <:+ source := by
  fun_induction dropRegex inClass source
  case case7 => exact Option.some.inj h ▸ (List.dropWhile_suffix _).trans (List.suffix_cons _ _)
  all_goals simp_all [List.suffix_cons_iff]

@[simp]
theorem TemplateText.rest_malformed (text : TemplateText) : text.malformed.rest = text.rest := rfl

theorem suffix_readTemplateText (source : List Char) : (readTemplateText source).rest <:+ source := by
  fun_induction readTemplateText source <;> simp_all [List.suffix_cons_iff]

end ModPackager.TypeScript
