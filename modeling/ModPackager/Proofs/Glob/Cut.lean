import ModPackager.Proofs.Glob.Once

/-!
# Cutting patterns

The components of a pattern are read from the pieces of its text between slashes, so they are `Cut` (`cut_mapM_parse`).
The pieces of an escaped text are read as patterns that match nothing but the piece (`parse_escape`), and a text is read
behind an escaped one as it is on its own (`toOption_parse_below`).
-/

namespace ModPackager.Glob

open FileSystem Search

variable {position : Nat} {previous : Option Char} {bracket : Option Bracket} {text : List Char} {tokens : List Token}
  {pattern : Pattern} {c : Char}

/-! ### What the tokens of a text are -/

/-- A token in front of others that are read. -/
theorem cons_eq_ok {first : Token} {rest : Except PatternFault (List Token)}
    (h : (do return first :: (← rest) : Except PatternFault (List Token)) = .ok tokens) :
    ∃ others, rest = .ok others ∧ tokens = first :: others := by
  cases rest with
  | error fault => cases h
  | ok others => exact ⟨others, rfl, (Except.ok.inj h).symm⟩

theorem token_ne_char (bracket : Bracket) (c : Char) : bracket.token ≠ .char c := by
  unfold Bracket.token
  split <;> simp

theorem token_ne_anyDepth (bracket : Bracket) : bracket.token ≠ .anyDepth := by
  unfold Bracket.token
  split <;> simp

/-- The characters that a pattern stands for are those of its text. -/
theorem mem_of_char_mem (h : tokensFrom position previous bracket text = .ok tokens) (hc : .char c ∈ tokens) :
    c ∈ text := by
  fun_induction tokensFrom position previous bracket text generalizing tokens with
  | case1 | case6 | case8 | case9 | case11 => cases h
  | case2 position previous bracket d rest _ ih =>
      obtain ⟨others, hothers, rfl⟩ := cons_eq_ok h
      have hmem := (List.mem_cons.1 hc).resolve_left (Ne.symm (token_ne_char bracket c))
      exact List.mem_cons_of_mem _ (ih hothers hmem)
  | case3 _ _ _ _ _ _ _ ih | case4 _ _ _ _ _ _ _ ih => exact List.mem_cons_of_mem _ (ih h hc)
  | case5 =>
      obtain rfl := Except.ok.inj h
      cases hc
  | case7 position previous rest _ ih =>
      obtain ⟨others, hothers, rfl⟩ := cons_eq_ok h
      have hmem := (List.mem_cons.1 hc).resolve_left (by simp)
      simp [ih hothers hmem]
  | case10 =>
      obtain rfl := Except.ok.inj h
      simp at hc
  | case12 _ _ _ _ _ _ _ _ ih => exact List.mem_cons_of_mem _ (ih h hc)
  | case13 position previous d rest _ _ _ _ token =>
      rename_i ih
      obtain ⟨others, hothers, rfl⟩ := cons_eq_ok h
      rcases List.mem_cons.1 hc with hfirst | hmem
      · have htoken : Token.char d = .char c := by
          revert hfirst
          simp only [token]
          split
          · simp
          · split <;> simp [eq_comm]
        simp [(Token.char.inj htoken).symm]
      · exact List.mem_cons_of_mem _ (ih hothers hmem)

/-- Two stars stand alone between slashes. -/
theorem eq_of_anyDepth_mem (h : tokensFrom position previous bracket text = .ok tokens) (hslash : '/' ∉ text)
    (hdepth : .anyDepth ∈ tokens) : tokens = [.anyDepth] ∧ bracket.isNone = true ∧ previous.all (· == '/') = true := by
  fun_induction tokensFrom position previous bracket text generalizing tokens with
  | case1 | case6 | case8 | case9 | case11 => cases h
  | case2 position previous bracket d rest _ ih =>
      -- Behind a bracket stands a character that is no slash.
      obtain ⟨others, hothers, rfl⟩ := cons_eq_ok h
      simp only [List.mem_cons, not_or] at hslash
      have hmem := (List.mem_cons.1 hdepth).resolve_left (Ne.symm (token_ne_anyDepth bracket))
      have hprevious := (ih hothers hslash.2 hmem).2.2
      simp [Ne.symm hslash.1] at hprevious
  | case3 _ _ _ _ _ _ _ ih | case4 _ _ _ _ _ _ _ ih | case12 _ _ _ _ _ _ _ _ ih =>
      have hnone := (ih h (fun hmem => hslash (List.mem_cons_of_mem _ hmem)) hdepth).2.1
      cases hnone
  | case5 =>
      obtain rfl := Except.ok.inj h
      cases hdepth
  | case7 => simp at hslash
  | case10 position previous rest _ _ hprevious =>
      obtain rfl := Except.ok.inj h
      refine ⟨rfl, rfl, ?_⟩
      cases previous with
      | none => rfl
      | some d => simpa using hprevious
  | case13 position previous d rest _ _ _ _ token =>
      rename_i ih
      obtain ⟨others, hothers, rfl⟩ := cons_eq_ok h
      simp only [List.mem_cons, not_or] at hslash
      have htoken : Token.anyDepth ≠ token := by
        simp only [token]
        split
        · simp
        · split <;> simp
      have hmem := (List.mem_cons.1 hdepth).resolve_left htoken
      have hprevious := (ih hothers hslash.2 hmem).2.2
      simp [Ne.symm hslash.1] at hprevious

/-- The components of a pattern are read from pieces between slashes. -/
theorem cut_of_parse {pieces : List (List Char)} {patterns : List Pattern}
    (hslash : ∀ piece ∈ pieces, '/' ∉ piece) (h : pieces.mapM Pattern.parse = .ok patterns) : Cut patterns := by
  have hread : ∀ pattern ∈ patterns, ∃ piece ∈ pieces, Pattern.parse piece = .ok pattern := by
    clear hslash
    induction pieces generalizing patterns with
    | nil =>
        obtain rfl := Except.ok.inj h
        simp
    | cons piece pieces ih =>
        rw [List.mapM_cons] at h
        cases hfirst : Pattern.parse piece with
        | error fault => simp [hfirst, bind, Except.bind] at h
        | ok first =>
            cases hothers : pieces.mapM Pattern.parse with
            | error fault => simp [hfirst, hothers, bind, Except.bind] at h
            | ok others =>
                obtain rfl : first :: others = patterns := by
                  simpa [hfirst, hothers, bind, Except.bind, pure, Except.pure] using h
                simp only [List.forall_mem_cons, List.exists_mem_cons_iff]
                exact ⟨.inl hfirst, fun pattern hpattern => .inr (ih hothers pattern hpattern)⟩
  refine ⟨fun pattern hpattern hrecursive => ?_, fun pattern hpattern name hliteral hmem => ?_⟩
  · obtain ⟨piece, hpiece, hparse⟩ := hread pattern hpattern
    exact (eq_of_anyDepth_mem hparse (hslash piece hpiece) (by simpa [Pattern.isRecursive] using hrecursive)).1
  · obtain ⟨piece, hpiece, hparse⟩ := hread pattern hpattern
    refine hslash piece hpiece (mem_of_char_mem hparse ?_)
    rw [literal?_eq_some_iff.1 hliteral]
    exact List.mem_map_of_mem hmem

/-! ### Reading on -/

/-- A bracket that is opened further on. -/
def Bracket.shift (count : Nat) (bracket : Bracket) : Bracket := { bracket with start := bracket.start + count }

theorem Bracket.behind_shift (bracket : Bracket) (count position : Nat) :
    decide (position + count = (bracket.shift count).start + 1) = decide (position = bracket.start + 1) := by
  rw [decide_eq_decide]
  simp only [shift]
  omega

theorem toOption_cons (first : Token) (rest : Except PatternFault (List Token)) :
    (do return first :: (← rest) : Except PatternFault (List Token)).toOption = rest.toOption.map (first :: ·) := by
  cases rest <;> rfl

/-- Where a text stands does not matter to its tokens, nor what is in front of it but for a slash. -/
theorem tokensFrom_shift (count : Nat) {before : Option Char}
    (hbefore : before.all (· == '/') = previous.all (· == '/')) :
    (tokensFrom (position + count) before (bracket.map (Bracket.shift count)) text).toOption
      = (tokensFrom position previous bracket text).toOption := by
  fun_induction tokensFrom position previous bracket text generalizing before with
  | case1 => rfl
  | case2 position previous bracket d rest hclose ih =>
      have hclose' : (d == ']' && !(bracket.shift count).inside.isEmpty) = true := hclose
      have hrest := @ih (some d) rfl
      rw [Nat.add_right_comm] at hrest
      rw [Option.map_some, tokensFrom, if_pos hclose', toOption_cons, toOption_cons]
      exact congrArg _ hrest
  | case3 position previous bracket d rest hopen hnegate ih =>
      have hopen' : ¬ (d == ']' && !(bracket.shift count).inside.isEmpty) = true := hopen
      have hnegate' : (d == '!' && decide (position + count = (bracket.shift count).start + 1)) = true := by
        rwa [bracket.behind_shift]
      have hread := @ih (some d) rfl
      rw [Nat.add_right_comm] at hread
      rw [Option.map_some, tokensFrom, if_neg hopen', if_pos hnegate']
      exact hread
  | case4 position previous bracket d rest hopen hnegate ih =>
      have hopen' : ¬ (d == ']' && !(bracket.shift count).inside.isEmpty) = true := hopen
      have hnegate' : ¬ (d == '!' && decide (position + count = (bracket.shift count).start + 1)) = true := by
        rwa [bracket.behind_shift]
      have hread := @ih (some d) rfl
      rw [Nat.add_right_comm] at hread
      rw [Option.map_some, tokensFrom, if_neg hopen', if_neg hnegate']
      exact hread
  | case5 => rfl
  | case6 =>
      rw [Option.map_none, tokensFrom]
      rfl
  | case7 position previous rest hprevious ih =>
      have hrest := @ih (some '/') rfl
      rw [Nat.add_right_comm] at hrest
      rw [Option.map_none, tokensFrom, if_pos (hbefore.trans hprevious), toOption_cons, toOption_cons]
      exact congrArg _ hrest
  | case8 position previous rest hprevious =>
      rw [Option.map_none, tokensFrom, if_neg (by rwa [hbefore])]
      rfl
  | case9 position previous rest hstar hslash hprevious =>
      have hbefore' : before.any (· != '/') = true := by
        cases before <;> cases previous <;> simp_all
      rw [Option.map_none, tokensFrom, if_pos hbefore']
      · rfl
      all_goals assumption
  | case10 position previous rest hstar hslash hprevious hempty =>
      obtain rfl := List.isEmpty_iff.1 hempty
      have hbefore' : ¬ before.any (· != '/') = true := by
        cases before <;> cases previous <;> simp_all
      rw [Option.map_none, tokensFrom, if_neg hbefore']
      · rfl
      all_goals assumption
  | case11 position previous rest hstar hslash hprevious hempty =>
      have hbefore' : ¬ before.any (· != '/') = true := by
        cases before <;> cases previous <;> simp_all
      rw [Option.map_none, tokensFrom, if_neg hbefore', if_neg hempty]
      · rfl
      all_goals assumption
  | case12 position previous d rest hstars hslash hstar hopens ih =>
      have hread := @ih (some d) rfl
      rw [Nat.add_right_comm] at hread
      rw [Option.map_none, tokensFrom, if_pos hopens]
      · exact hread
      all_goals assumption
  | case13 position previous d rest hstars hslash hstar hopens token =>
      rename_i ih
      have hrest := @ih (some d) rfl
      rw [Nat.add_right_comm] at hrest
      rw [Option.map_none, tokensFrom, if_neg hopens, toOption_cons, toOption_cons]
      · exact congrArg _ hrest
      all_goals assumption

/-- Characters that are escaped. -/
def isSpecial (c : Char) : Bool := c == '?' || c == '*' || c == '[' || c == ']'

/-- The pattern of an escaped text. -/
def exactly (text : List Char) : Pattern := text.map fun c => if isSpecial c then .within [.single c] else .char c

theorem escape_special (h : isSpecial c = true) : escape (c :: text) = '[' :: c :: ']' :: escape text := by
  rw [escape, List.flatMap_cons]
  exact congrArg (· ++ escape text) (if_pos h)

theorem escape_plain (h : isSpecial c = false) : escape (c :: text) = c :: escape text := by
  rw [escape, List.flatMap_cons]
  exact congrArg (· ++ escape text) (if_neg (Bool.eq_false_iff.1 h))

theorem tokensFrom_bracketed (hbang : c ≠ '!') (rest : List Char) : tokensFrom position previous none ('[' :: c :: ']' :: rest)
    = (Token.within [.single c] :: ·) <$> tokensFrom (position + 3) (some ']') none rest := by
  have hopens : tokensFrom position previous none ('[' :: c :: ']' :: rest)
      = tokensFrom (position + 1) (some '[') (some ⟨position, false, []⟩) (c :: ']' :: rest) := by
    rw [tokensFrom]
    rfl
  have hinside : tokensFrom (position + 1) (some '[') (some ⟨position, false, []⟩) (c :: ']' :: rest)
      = tokensFrom (position + 2) (some c) (some ⟨position, false, [c]⟩) (']' :: rest) := by
    rw [tokensFrom, if_neg (by simp), if_neg (by simp [hbang])]
    rfl
  rw [hopens, hinside, tokensFrom, if_pos (by simp)]
  cases tokensFrom (position + 3) (some ']') none rest <;> rfl

theorem tokensFrom_plain (h : isSpecial c = false) (rest : List Char) : tokensFrom position previous none (c :: rest)
    = (Token.char c :: ·) <$> tokensFrom (position + 1) (some c) none rest := by
  simp only [isSpecial, Bool.or_eq_false_iff, beq_eq_false_iff_ne] at h
  obtain ⟨⟨⟨hquestion, hstar⟩, hopens⟩, -⟩ := h
  rw [tokensFrom, if_neg (by simpa using hopens)]
  · simp only [beq_iff_eq, hquestion, hstar, if_false]
    cases tokensFrom (position + 1) (some c) none rest <;> rfl
  all_goals simp [hstar]

/-- Behind an escaped text a pattern is read on. -/
theorem tokensFrom_escape (position : Nat) (previous : Option Char) (text rest : List Char) : ∃ position' previous',
    tokensFrom position previous none (escape text ++ rest)
      = (exactly text ++ ·) <$> tokensFrom position' previous' none rest := by
  induction text generalizing position previous with
  | nil =>
      refine ⟨position, previous, ?_⟩
      cases h : tokensFrom position previous none rest <;> simp [escape, exactly, h]
  | cons c text ih =>
      cases hspecial : isSpecial c with
      | true =>
          obtain ⟨position', previous', hrest⟩ := ih (position + 3) (some ']')
          have hbang : c ≠ '!' := by
            rintro rfl
            revert hspecial
            decide
          refine ⟨position', previous', ?_⟩
          rw [escape_special hspecial, List.cons_append, List.cons_append, List.cons_append, tokensFrom_bracketed hbang, hrest]
          cases tokensFrom position' previous' none rest with
          | error fault => rfl
          | ok others => simp [exactly, hspecial]
      | false =>
          obtain ⟨position', previous', hrest⟩ := ih (position + 1) (some c)
          refine ⟨position', previous', ?_⟩
          rw [escape_plain hspecial, List.cons_append, tokensFrom_plain hspecial, hrest]
          cases tokensFrom position' previous' none rest with
          | error fault => rfl
          | ok others => simp [exactly, hspecial]

theorem parse_escape (text : List Char) : Pattern.parse (escape text) = .ok (exactly text) := by
  obtain ⟨position, previous, h⟩ := tokensFrom_escape 0 none text []
  rw [List.append_nil] at h
  rw [Pattern.parse, h]
  simp [tokensFrom]

/-- Below an escaped text a pattern is read as it is on its own. -/
theorem toOption_parse_below (text rest : List Char) : (Pattern.parse (escape text ++ '/' :: rest)).toOption
    = (Pattern.parse rest).toOption.map fun tokens => exactly text ++ .char '/' :: tokens := by
  obtain ⟨position, previous, hescape⟩ := tokensFrom_escape 0 none text ('/' :: rest)
  have hbefore : (some '/').all (· == '/') = (none : Option Char).all (· == '/') := rfl
  have hrest : (tokensFrom (0 + (position + 1)) (some '/') (Option.map (Bracket.shift (position + 1)) none) rest).toOption
      = (tokensFrom 0 none none rest).toOption := tokensFrom_shift _ hbefore
  rw [Nat.zero_add, Option.map_none] at hrest
  rw [Pattern.parse, Pattern.parse, hescape, tokensFrom_plain (by decide), ← hrest]
  cases tokensFrom (position + 1) (some '/') none rest <;> rfl

/-- A pattern can be read below an escaped text if it can be read on its own, and only then. -/
theorem parse_below_iff (text : List Char) {rest : List Char} :
    (∃ more, Pattern.parse (escape text ++ '/' :: rest) = .ok more) ↔ ∃ tokens, Pattern.parse rest = .ok tokens := by
  have hsome : ∀ {read : Except PatternFault (List Token)}, (∃ tokens, read = .ok tokens) ↔ read.toOption.isSome = true := by
    intro read
    cases read <;> simp [Except.toOption]
  rw [hsome, hsome, toOption_parse_below, Option.isSome_map]

/-- Escaping keeps the slashes of a text. -/
theorem pieces_escape (text : List Char) : Path.pieces (escape text) = (Path.pieces text).map escape := by
  induction text with
  | nil => rfl
  | cons c text ih =>
      by_cases hc : c = '/'
      · subst hc
        rw [escape_plain (by decide), Path.pieces_slash, Path.pieces_slash, ih]
        rfl
      · obtain ⟨piece, more, hpieces, hcut⟩ := Path.pieces_cons_of_ne hc text
        rw [hpieces, List.map_cons] at ih
        rw [hcut, List.map_cons]
        cases hspecial : isSpecial c with
        | true =>
            have hfront : '/' ∉ ['[', c, ']'] := by simp [Ne.symm hc]
            rw [escape_special hspecial, escape_special hspecial]
            exact Text.piecesAt_prepend hfront ih
        | false =>
            have hfront : '/' ∉ [c] := by simp [Ne.symm hc]
            rw [escape_plain hspecial, escape_plain hspecial]
            exact Text.piecesAt_prepend hfront ih

/-! ### What escaped texts match -/

theorem isRecursive_exactly (text : List Char) : (exactly text).isRecursive = false := by
  rw [Bool.eq_false_iff]
  intro hrecursive
  have hmem : Token.anyDepth ∈ exactly text := by simpa [Pattern.isRecursive] using hrecursive
  obtain ⟨c, -, hc⟩ := List.mem_map.1 hmem
  split at hc <;> cases hc

theorem matches_exactly {other : List Char} : (exactly text).matches other = true ↔ other = text := by
  induction text generalizing other with
  | nil => simp [exactly, Pattern.matches]
  | cons c text ih =>
      cases other with
      | nil => cases hspecial : isSpecial c <;> simp [exactly, hspecial, Pattern.matches]
      | cons d other =>
          rw [exactly] at ih
          cases hspecial : isSpecial c <;>
            simp [exactly, hspecial, Pattern.matches, Token.accepts, CharSet.contains, ih]

theorem eq_of_exactly {chars : List Char} (h : exactly text = chars.map Token.char) : chars = text := by
  induction text generalizing chars with
  | nil =>
      have hnil : chars.map Token.char = [] := h.symm
      simpa using hnil
  | cons c text ih =>
      cases chars with
      | nil => cases h
      | cons d chars =>
          obtain ⟨hfirst, hrest⟩ := List.cons.inj (h : _ :: exactly text = Token.char d :: chars.map Token.char)
          rw [ih hrest]
          dsimp only at hfirst
          split at hfirst
          · cases hfirst
          · rw [Token.char.inj hfirst]

theorem literal?_exactly {name : String} (h : (exactly text).literal? = some name) : name.toList = text :=
  eq_of_exactly (literal?_eq_some_iff.1 h)

theorem matchingDots_exactly (h : (exactly text).literal? = none) : matchingDots (exactly text) = [] := by
  refine List.eq_nil_iff_forall_not_mem.2 fun dots hdots => ?_
  have hname := eq_dots_of_mem hdots
  unfold matchingDots at hdots
  split at hdots
  · obtain rfl : dots.toList = text := matches_exactly.1 (List.mem_filter.1 hdots).2
    rcases hname with rfl | rfl <;> simp [exactly, isSpecial, Pattern.literal?] at h
  · cases hdots

/-- Behind an escaped text the paths below its name fit, if they lead anywhere. -/
theorem fits_exactly {fs : FileSystem} {rest : List Pattern} {path found : Path} (wf : fs.WellFormed) (hcut : Cut rest)
    (hslash : '/' ∉ text) (hpath : path.text ≠ "") (hfound : Resolves fs found) :
    Fits (exactly text :: rest) path found ↔
      (below path (String.ofList text)).text ≠ "" ∧ Fits rest (below path (String.ofList text)) found := by
  cases hliteral : (exactly text).literal? with
  | some name =>
      obtain rfl : String.ofList text = name := by rw [← literal?_exactly hliteral, String.ofList_toList]
      exact fits_literal hliteral
  | none =>
      have hplain : ¬ (exactly text).isRecursive = true := by rw [isRecursive_exactly]; exact Bool.false_ne_true
      constructor
      · intro h
        cases h with
        | literal hname => simp [hliteral] at hname
        | dots _ hmem => rw [matchingDots_exactly hliteral] at hmem; cases hmem
        | @entry _ _ _ _ name _ _ hname hmatches hrest =>
            obtain rfl : String.ofList text = name := by rw [← matches_exactly.1 hmatches, String.ofList_toList]
            exact ⟨text_below_ne path hname.1 hname.2.2.2.1, hrest⟩
        | row hrecursive => exact absurd hrecursive hplain
        | behind hrecursive => exact absurd hrecursive hplain
        | deeper hrecursive => exact absurd hrecursive hplain
      · rintro ⟨hnext, hrest⟩
        -- A name with something to escape is no dot, so it is that of an entry.
        have hordinary : ∀ {name}, String.ofList text = name → (exactly name.toList).literal? = none := by
          rintro name rfl
          rwa [String.toList_ofList]
        have hne : String.ofList text ≠ "" := fun heq => absurd (hordinary heq) (by decide)
        have hdot : String.ofList text ≠ "." := fun heq => absurd (hordinary heq) (by decide)
        have hup : String.ofList text ≠ ".." := fun heq => absurd (hordinary heq) (by decide)
        obtain ⟨place, entry, hresolve⟩ := hrest.resolves hcut hnext hfound
        obtain ⟨dir, -, hmem⟩ := exists_entry_of_below hpath hne (by simpa using hslash) hdot hup hresolve
        obtain ⟨found, hfound⟩ := Option.isSome_iff_exists.1 (mem_names.1 hmem)
        refine .entry hliteral (isRecursive_exactly text) (wf.validName hfound) ?_ hrest
        rw [String.toList_ofList]
        exact matches_exactly.2 rfl

theorem cut_exactly {texts : List (List Char)} {patterns : List Pattern} (hslash : ∀ text ∈ texts, '/' ∉ text)
    (hcut : Cut patterns) : Cut (texts.map exactly ++ patterns) := by
  refine ⟨fun pattern hpattern hrecursive => ?_, fun pattern hpattern name hliteral => ?_⟩
  · rcases List.mem_append.1 hpattern with htext | hpattern
    · obtain ⟨text, -, rfl⟩ := List.mem_map.1 htext
      rw [isRecursive_exactly] at hrecursive
      cases hrecursive
    · exact hcut.alone pattern hpattern hrecursive
  · rcases List.mem_append.1 hpattern with htext | hpattern
    · obtain ⟨text, hmem, rfl⟩ := List.mem_map.1 htext
      rw [literal?_exactly hliteral]
      exact hslash text hmem
    · exact hcut.slashless pattern hpattern name hliteral

/-- The names of a directory fit as they are written. -/
theorem fits_map_exactly {fs : FileSystem} {texts : List (List Char)} {patterns : List Pattern} {path found : Path}
    (wf : fs.WellFormed) (hcut : Cut patterns) (hslash : ∀ text ∈ texts, '/' ∉ text) (hpath : path.text ≠ "")
    (hfound : Resolves fs found) :
    Fits (texts.map exactly ++ patterns) path found ↔ Fits (texts.map (·.map Token.char) ++ patterns) path found := by
  induction texts generalizing path with
  | nil => rfl
  | cons text texts ih =>
      rw [List.forall_mem_cons] at hslash
      have hliteral : Pattern.literal? (text.map Token.char) = some (String.ofList text) := by
        rw [literal?_eq_some_iff, String.toList_ofList]
      rw [List.map_cons, List.map_cons, List.cons_append, List.cons_append,
        fits_exactly wf (cut_exactly hslash.2 hcut) hslash.1 hpath hfound, fits_literal hliteral]
      exact and_congr_right fun hnext => ih hslash.2 hnext

theorem definite_exactly (texts : List (List Char)) {patterns : List Pattern} (h : Definite patterns)
    (hne : patterns ≠ []) : Definite (texts.map exactly ++ patterns) := by
  refine ⟨?_, fun pattern hpattern hliteral => ?_⟩
  · induction texts with
    | nil => exact h.oneRow
    | cons text texts ih =>
        rw [List.map_cons, List.cons_append, oneRow_cons, isRecursive_exactly, if_neg Bool.false_ne_true]
        exact ih
  · rw [List.dropLast_append_of_ne_nil hne] at hpattern
    rcases List.mem_append.1 hpattern with htext | hpattern
    · obtain ⟨text, -, rfl⟩ := List.mem_map.1 htext
      exact matchingDots_exactly hliteral
    · exact h.dotsLast pattern hpattern hliteral

end ModPackager.Glob
