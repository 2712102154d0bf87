import ModPackager.Proofs.TypeScript.Reading

/-!
# Where functions are declared

A function that reading finds lies where its statement begins, be it with `async` or `declare`
(`gives_statement`), and in an export behind one of few words (`gives_exportDeclaration`). Since the word `function`
itself has been passed, reading has stopped behind the place by then. So the items of a module and their functions
take turns: no item begins before the functions of the earlier ones (`parse_declared`).
-/

namespace ModPackager.TypeScript

/-- A function that was found lies where the source left satisfies a condition, and the source left now is
shorter. -/
def DeclaresAt (P : List Char → Prop) (found : Option FunctionHead) (moved : Cursor) : Prop :=
  ∀ head, found = some head → ∃ left, P left ∧ head.place = left.length ∧ moved.start.length < left.length

theorem DeclaresAt.imp {P P' : List Char → Prop} {found : Option FunctionHead} {moved : Cursor}
    (himp : ∀ left, P left → P' left) (h : DeclaresAt P found moved) : DeclaresAt P' found moved := by
  intro head hhead
  obtain ⟨left, hleft, hplace⟩ := h head hhead
  exact ⟨left, himp left hleft, hplace⟩

theorem DeclaresAt.none {P : List Char → Prop} {moved : Cursor} : DeclaresAt P none moved := nofun

namespace Grammar

open Reader

/-! ### Functions -/

variable {g : Grammar} {cursor moved : Cursor} {place : Nat} {P : List Char → Prop}

theorem functionHead_inv {isAsync nameRequired : Bool} {head : FunctionHead}
    (h : (functionHead g isAsync nameRequired place).run cursor = .ok head moved) :
    head.place = place ∧ moved.start.length < cursor.start.length := by
  obtain ⟨name, between, hname, hreturn⟩ := Reader.bind_eq_ok.1 h
  cases hreturn
  obtain ⟨_, behind, hexpect, hrest⟩ := Reader.bind_eq_ok.1 hname
  obtain ⟨hword, rfl⟩ := gives_expectWord _ _ hexpect
  exact ⟨rfl, Nat.lt_of_le_of_lt (length_le_of_run hrest) (Cursor.advance_lt_of_isWord hword)⟩

/-- A function whose place was taken where a given source was left lies there. -/
theorem gives_functionHead {isAsync nameRequired : Bool} {left : List Char} (hleft : P left)
    (hle : cursor.start.length ≤ left.length) :
    (functionHead g isAsync nameRequired left.length).Gives cursor fun head => DeclaresAt P (some head) := by
  rintro found moved hfound head ⟨⟩
  obtain ⟨hplace, hlt⟩ := functionHead_inv hfound
  exact ⟨left, hleft, hplace, Nat.lt_of_lt_of_le hlt hle⟩

/-- A function lies where its word stands. -/
theorem gives_function {nameRequired : Bool} :
    (do return some (← functionHead g false nameRequired cursor.start.length)).Gives cursor
      (DeclaresAt (Eq cursor.start)) :=
  .bind fun head _ hhead => .pure (gives_functionHead rfl (Nat.le_refl _) head _ hhead)

/-- A function behind `async` lies where that word stands. -/
theorem gives_asyncFunction {nameRequired : Bool} :
    (do
      advance
      return some (← functionHead g true nameRequired cursor.start.length)).Gives cursor
      (DeclaresAt (Eq cursor.start)) := by
  refine .bind fun _ between hadvance => .bind fun head _ hhead => .pure ?_
  exact gives_functionHead rfl (length_le_of_run hadvance) head _ hhead

/-- The function that a declaration turns out to be. -/
def Declared.head? : Declared → Option FunctionHead
  | .function head => some head
  | _ => none

/-! ### Statements -/

/-- What stands behind `declare` is a function, or another declaration, or none; and then the cursor stays. -/
theorem gives_ambientDeclaration {left : List Char} (hleft : P left) (hle : cursor.start.length ≤ left.length) :
    (ambientDeclaration g left.length).Gives cursor fun declared moved =>
      DeclaresAt P declared.head? moved ∧ (declared = .nothing → moved = cursor) := by
  refine .within (.read ?_)
  dsimp only
  split
  · refine .bind fun head between hhead => .pure ?_
    have hfound := gives_functionHead hleft (by exact hle) head between hhead
    exact ⟨hfound, nofun⟩
  · exact .bind fun _ _ _ => .pure ⟨.none, nofun⟩
  · split
    · exact .bind fun _ _ _ => .bind fun _ _ _ => .bind fun _ _ _ => .pure ⟨.none, nofun⟩
    · exact .bind fun _ _ _ => .pure ⟨.none, nofun⟩
  · exact .bind fun _ _ _ => .pure ⟨.none, nofun⟩
  · exact .bind fun _ _ _ => .pure ⟨.none, nofun⟩
  · exact .bind fun _ _ _ => .pure ⟨.none, nofun⟩
  · split
    · exact .bind fun _ _ _ => .bind fun _ _ _ => .pure ⟨.none, nofun⟩
    · exact .pure ⟨.none, fun _ => rfl⟩
  · exact .pure ⟨.none, fun _ => rfl⟩

theorem gives_afterName {name : String} {left : List Char} (hleft : P left) (hle : cursor.start.length ≤ left.length) :
    (afterName g name left.length).Gives cursor fun declared moved => DeclaresAt P declared.head? moved := by
  unfold afterName
  split
  · exact fun declared moved h => (gives_ambientDeclaration hleft hle declared moved h).1
  · split
    · refine .bind fun brace between _ => ?_
      split
      · exact .bind fun _ _ _ => .pure .none
      · exact .pure .none
    · refine .bind fun found between _ => ?_
      split
      · exact .pure .none
      · exact .pure .none

/-- A statement that begins with an expression declares a function only if that is the name `declare`, which the
statement begins with. -/
theorem gives_expressionStatement :
    (expressionStatement g).Gives cursor (DeclaresAt (Eq cursor.start)) := by
  unfold expressionStatement
  refine .read (.bind fun shape between hshape => ?_)
  have hle := length_le_of_run hshape
  split
  · refine .bind fun colon behind hcolon => ?_
    split
    · -- A function behind a label is no declaration of the module.
      refine .bind fun nested _ _ => ?_
      dsimp only
      split
      · exact .bind fun _ _ _ => .pure .none
      · exact .bind fun _ _ _ => .pure .none
    · refine .bind fun declared ended hdeclared => ?_
      have hfound := gives_afterName rfl (Nat.le_trans (length_le_of_run hcolon) hle) declared ended hdeclared
      split
      · exact .pure hfound
      · exact .pure .none
      · exact .bind fun _ _ _ => .pure .none
  · exact .bind fun _ _ _ => .pure .none

/-- Where no statement begins that its first word decides, the cursor stays. -/
theorem gives_keywordStatement : (keywordStatement g).Gives cursor (Answers cursor fun _ => True) := by
  have hdone {inner : Reader Unit} : (do inner; return true).Gives cursor (Answers cursor fun _ => True) :=
    .bind fun _ _ _ => .pure trivial
  unfold keywordStatement
  refine .read ?_
  extract_lets done
  split
  -- All words and the semicolon are done with; a brace is left to be told from other punctuators.
  all_goals first
    | exact hdone
    | exact .pure rfl
    | split
  · exact hdone
  · exact .pure rfl

theorem gives_declaration : (declaration g).Gives cursor (Answers cursor fun _ => True) := by
  unfold declaration
  refine .read ?_
  extract_lets following sameLine last
  split
  · exact .bind fun _ _ _ => .pure trivial
  · split
    · exact .bind fun _ _ _ => .pure trivial
    · exact .pure rfl
  · split
    · exact .bind fun _ _ _ => .bind fun _ _ _ => .pure trivial
    · exact .pure rfl
  · split
    · exact .bind fun _ _ _ => .bind fun _ _ _ => .bind fun _ _ _ => .pure trivial
    · exact .pure rfl
  · exact .pure rfl

/-- A function that a statement declares lies where the statement begins. -/
theorem gives_statement (declares : Bool) : (statement g declares).Gives cursor (DeclaresAt (Eq cursor.start)) := by
  have hdeclaration : (if declares then declaration g else pure false).Gives cursor (Answers cursor fun _ => True) := by
    split
    · exact gives_declaration
    · exact .pure rfl
  unfold statement
  refine .read ?_
  extract_lets following place word imported
  split
  · exact .bind fun _ _ _ => .bind fun _ _ _ => .bind fun _ _ _ => .pure .none
  split
  · exact gives_function
  split
  · exact gives_asyncFunction
  -- Each alternative that is not there leaves the cursor at the start of the statement for the next one.
  refine .ask gives_keywordStatement (fun _ _ => .pure .none) ?_
  refine .ask hdeclaration (fun _ _ => .pure .none) ?_
  simp only [Bool.false_eq_true, if_false]
  split
  · exact .bind fun _ _ _ => .bind fun _ _ _ => .pure .none
  split
  · have himported : (imported ()).Gives cursor (DeclaresAt (Eq cursor.start)) :=
      .bind fun _ _ _ => .bind fun _ _ _ => .pure .none
    split
    · exact himported
    · exact .bind fun _ _ h => nomatch h
  split
  · exact .refuse
  · exact gives_expressionStatement

theorem gives_defaultExport : (defaultExport g).Gives cursor (DeclaresAt (Eq cursor.start)) := by
  unfold defaultExport
  refine .read ?_
  extract_lets following place
  split
  · exact .bind fun _ _ _ => .bind fun _ _ _ => .pure .none
  split
  · exact .bind fun _ _ _ => .bind fun _ _ _ => .pure .none
  split
  · exact .bind fun _ _ _ => .pure .none
  split
  · exact gives_asyncFunction
  split
  · exact gives_function
  · exact .bind fun _ _ _ => .bind fun _ _ _ => .pure .none

theorem gives_exportRest : (exportRest g).Gives cursor (DeclaresAt (Eq cursor.start)) := by
  unfold exportRest
  refine .read ?_
  extract_lets following place
  split
  · exact .bind fun _ _ _ => .pure .none
  split
  · exact gives_asyncFunction
  split
  · exact gives_function
  split
  · exact .bind fun _ _ _ => .bind fun _ _ _ => .bind fun _ _ _ => .pure .none
  split
  · exact .bind fun _ _ _ => .pure .none
  · exact .bind fun _ _ _ => .pure .none

/-! ### Exports -/

/-- The words that may stand between the word `export`, or `declare` behind it, and a function. -/
def plainWords : List (List String) := [[], ["default"]]

/-- The words that may stand between the word `export` and a function. -/
def exportWords : List (List String) := plainWords ++ plainWords.map ("declare" :: ·)

/-- A function that is exported lies behind the words of the export. -/
theorem gives_exportDeclaration :
    (exportDeclaration g).Gives cursor
      (DeclaresAt fun left => ∃ names ∈ exportWords, Passes cursor.start names left) := by
  unfold exportDeclaration
  refine .read ?_
  extract_lets importAlias undeclared declared
  have halias {P : List Char → Prop} {c : Cursor} : (importAlias ()).Gives c (DeclaresAt P) :=
    .bind fun _ _ _ => .bind fun _ _ _ => .pure .none
  -- What follows `declare`, or `export` without it, is a function there or behind `default`.
  have hundeclared {c : Cursor} : (undeclared ()).Gives c
      (DeclaresAt fun left => ∃ names ∈ plainWords, Passes c.start names left) := by
    refine .bind fun found between hfound => ?_
    cases found with
    | some _ => exact .pure .none
    | none =>
        obtain rfl := gives_attempt none between hfound rfl
        refine .read (.ask gives_eatWord (fun _ _ => ?_) ?_)
        · rw [if_pos rfl]
          split
          · exact .bind fun _ _ _ => halias
          · exact halias
        refine .ask gives_eat (fun _ _ => .bind fun _ _ _ => .bind fun _ _ _ => .pure .none) ?_
        refine .ask gives_eatWord (fun _ _ => ?_) ?_
        · exact .bind fun _ _ _ => .bind fun _ _ _ => .bind fun _ _ _ => .pure .none
        refine .ask gives_eatWord (fun _ _ => .bind fun _ _ _ => .pure .none) ?_
        refine .ask gives_eatWord ?_ ?_
        · rintro behind ⟨hword, rfl⟩
          refine gives_defaultExport.imp fun found moved => .imp fun left hleft => ?_
          exact ⟨["default"], by simp [plainWords], Cursor.passes_of_isWord hword (hleft ▸ .here _)⟩
        · refine gives_exportRest.imp fun found moved => .imp fun left hleft => ?_
          exact ⟨[], by simp [plainWords], hleft ▸ .here _⟩
  split
  · exact .bind fun _ _ h => nomatch h
  refine .read (.ask gives_eatWord ?_ ?_)
  · rintro between ⟨hword, rfl⟩
    refine .bind fun outcome behind houtcome => ?_
    have hle := cursor.suffix_advance.length_le
    obtain ⟨hfound, hstay⟩ := gives_ambientDeclaration (P := Eq cursor.start) rfl hle outcome behind houtcome
    cases outcome with
    | function head =>
        have hhead : DeclaresAt (Eq cursor.start) (some head) behind := hfound
        refine .pure (hhead.imp ?_)
        rintro left rfl
        exact ⟨[], by simp [exportWords, plainWords], .here _⟩
    | other => exact .pure .none
    | nothing =>
        -- The word has been passed all the same, and the export goes on behind it.
        obtain rfl := hstay rfl
        refine hundeclared.imp fun found moved => .imp ?_
        rintro left ⟨names, hnames, hleft⟩
        have hmem := List.mem_append_right plainWords (List.mem_map_of_mem (f := ("declare" :: ·)) hnames)
        exact ⟨"declare" :: names, hmem, Cursor.passes_of_isWord hword hleft⟩
  · refine hundeclared.imp fun found moved => .imp ?_
    rintro left ⟨names, hnames, hleft⟩
    exact ⟨names, List.mem_append_left _ hnames, hleft⟩

/-! ### Items -/

/-- The words that may stand between the start of an item and a function that it declares. -/
def itemWords : List (List String) := [] :: exportWords.map ("export" :: ·)

/-- A function that an item declares lies where the item begins, or behind the words of an export. -/
theorem gives_moduleItem (hg : ∀ declares c, (g (.statement declares)).Gives c (DeclaresAt (Eq c.start))) :
    (moduleItem g).Gives cursor (DeclaresAt fun left => ∃ names ∈ itemWords, Passes cursor.start names left) := by
  unfold moduleItem
  refine .read ?_
  extract_lets following
  split
  · exact .bind fun _ _ _ => .bind fun _ _ _ => .pure .none
  split
  next hword =>
      refine .bind fun _ between hadvance => ?_
      obtain rfl := gives_advance _ between hadvance
      refine gives_exportDeclaration.imp fun found moved => .imp ?_
      rintro left ⟨names, hnames, hleft⟩
      exact ⟨"export" :: names, .tail _ (List.mem_map_of_mem hnames), Cursor.passes_of_isWord hword hleft⟩
  · refine (hg true cursor).imp fun found moved => .imp fun left hleft => ?_
    exact ⟨[], .head _, hleft ▸ .here _⟩

/-! ### All levels -/

theorem gives_statement_grammar (level : Nat) (declares : Bool) :
    ((grammar level) (.statement declares)).Gives cursor (DeclaresAt (Eq cursor.start)) := by
  cases level with
  | zero => exact .refuse
  | succ level => exact gives_statement declares

theorem gives_moduleItem_grammar (level : Nat) :
    ((grammar level) .moduleItem).Gives cursor
      (DeclaresAt fun left => ∃ names ∈ itemWords, Passes cursor.start names left) := by
  cases level with
  | zero => exact .refuse
  | succ level => exact gives_moduleItem fun declares c => gives_statement_grammar level declares

end Grammar

namespace Module

variable {g : Grammar} {text : List Char} {cursor moved : Cursor} {items : List Item} {module : Module}

/-- An item declares its function at its start, or behind the words of an export. -/
def Declares (text : List Char) (item : Item) (function : TopFunction) : Prop :=
  item.start ≤ function.start
    ∧ ∃ names ∈ Grammar.itemWords, Passes (text.drop item.start) names (text.drop function.start)

/-- Items behind each other, each with its function in front of the next one. -/
def Declared (text : List Char) (items : List Item) : Prop :=
  (∀ item ∈ items, ∀ function, item.function = some function → Declares text item function)
    ∧ items.Pairwise fun a b => ∀ function, a.function = some function → function.start < b.start

/-- Places are counted from the start of the text, and readers know how much of it is left. -/
theorem declares_of_declaresAt {head : FunctionHead} (hsuffix : cursor.start <:+ text)
    (h : DeclaresAt (fun left => ∃ names ∈ Grammar.itemWords, Passes cursor.start names left) (some head) moved) :
    Declares text ⟨text.length - cursor.start.length, some ⟨head.name, text.length - head.place⟩⟩
        ⟨head.name, text.length - head.place⟩
      ∧ text.length - head.place < text.length - moved.start.length := by
  obtain ⟨left, ⟨names, hnames, hpasses⟩, hplace, hlt⟩ := h head rfl
  have hleft := hpasses.suffix
  have hle := hleft.length_le
  have hroom := (hleft.trans hsuffix).length_le
  refine ⟨⟨?_, names, hnames, ?_⟩, by omega⟩
  · simp only
    omega
  · simp only
    rw [hplace, ← List.suffix_iff_eq_drop.1 hsuffix, ← List.suffix_iff_eq_drop.1 (hleft.trans hsuffix)]
    exact hpasses

/-- Items are read one behind the other, by induction on their number: a later item begins where reading has stopped
behind an earlier one, or further on. -/
theorem readItems_declared {fuel : Nat} (hg : ∀ c, (g .moduleItem).Gives c
      (DeclaresAt fun left => ∃ names ∈ Grammar.itemWords, Passes c.start names left))
    (hsuffix : cursor.start <:+ text) (h : (readItems g text.length fuel).run cursor = .ok items moved) :
    Declared text items := by
  induction fuel generalizing cursor items with
  | zero => cases h
  | succ fuel ih =>
      rw [readItems, Reader.run_read_bind] at h
      split at h
      · cases h
        refine ⟨?_, .nil⟩
        intro item hitem
        cases hitem
      · rw [Reader.run_read_bind] at h
        obtain ⟨head, behind, hhead, hrest⟩ := Reader.bind_eq_ok.1 h
        obtain ⟨later, ended, hlater, hreturn⟩ := Reader.bind_eq_ok.1 hrest
        cases hreturn
        have hbehind := (g Production.moduleItem).forward cursor
        rw [hhead] at hbehind
        obtain ⟨hdeclares, hpairwise⟩ := ih (hbehind.trans hsuffix) hlater
        have hsorted := (readItems_sorted hlater).1
        cases head with
        | none =>
            refine ⟨List.forall_mem_cons.2 ⟨?_, hdeclares⟩, List.pairwise_cons.2 ⟨?_, hpairwise⟩⟩
            · intro function hfunction
              cases hfunction
            · intro next _ function hfunction
              cases hfunction
        | some head =>
            obtain ⟨hhere, hlt⟩ := declares_of_declaresAt hsuffix (hg cursor (some head) behind hhead)
            refine ⟨List.forall_mem_cons.2 ⟨?_, hdeclares⟩, List.pairwise_cons.2 ⟨?_, hpairwise⟩⟩
            · intro function hfunction
              cases hfunction
              exact hhere
            · intro next hnext function hfunction
              cases hfunction
              exact Nat.lt_of_lt_of_le hlt (hsorted next hnext)

theorem suffix_dropInterpreter (text : List Char) : dropInterpreter text <:+ text := by
  unfold dropInterpreter
  split
  · exact (List.dropWhile_suffix _).trans (by simp [List.suffix_cons_iff])
  · exact List.suffix_rfl

/-- The functions of a module stand at the start of their items or behind the words of an export, and every item
ends behind its function. -/
theorem parse_declared {markup : Bool} {source : String} (h : parse markup source = .ok module) :
    Declared module.text module.items := by
  unfold parse at h
  extract_lets text code total context cursor at h
  split at h
  next hread =>
      cases h
      have hcode : code <:+ text := suffix_dropInterpreter text
      have hcursor : cursor.start <:+ code := Cursor.suffix_load _ _ _
      exact readItems_declared (fun c => Grammar.gives_moduleItem_grammar _) (hcursor.trans hcode) hread
  · cases h

end Module

end ModPackager.TypeScript
