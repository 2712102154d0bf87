import Mathlib.Data.List.Sort
import ModPackager.Proofs.DocComment.Tag

/-!
# Where tags open

A comment is read line by line, and the search for tags starts afresh behind every name. Both disappear when
the lines are taken together: a line feed is whitespace, so cutting the whole text at once gives the same tags
as cutting its lines (`readLines_eq_cut`). What the fresh start does to the rule is said by `Opens`: an at sign
opens a tag where it begins a line or follows whitespace, and also directly behind the name of a tag. The tags
of a comment are those at the places that open one (`exists_places`).

So where no tag stands directly behind the name of another one, the tags are those of the plain rule
(`parse_openers`); there is a comment on which the two differ (`parse_behind_name`).
-/

namespace ModPackager.DocComment

open Text

variable {c : Char} {fresh : Bool} {line before rest name text : List Char}

/-! ### The rule -/

/-- The body of a comment without the second star of its opener. -/
def dropOpener (body : List Char) : List Char :=
  match body with
  | '*' :: rest => rest
  | _ => body

/-- The text of a comment in which tags are looked for: its lines without their margins. -/
def innerText (body : String) : List Char :=
  join ['\n'] ((lines (dropOpener body.toList)).map dropMargin)

/-- Whether an at sign at a place opens a tag: it begins a line or follows whitespace, which a line feed is
too, and a letter or an underscore follows it. -/
def opensAt (text : List Char) (place : Nat) : Bool :=
  text[place]? == some '@' && (text.take place).getLast?.all isBlank && opensName (text.drop (place + 1))

/-- The places of a text at which a tag opens, in order. -/
def openers (text : List Char) : List Nat := (List.range text.length).filter (opensAt text)

/-- The name behind an at sign. -/
def nameAt (text : List Char) (place : Nat) : List Char := (text.drop (place + 1)).takeWhile isNameChar

/-- The tag that opens at a place and whose text goes up to another one. -/
def tagUpTo (text : List Char) (place next : Nat) : Tag :=
  let name := nameAt text place
  let content := (text.take next).drop (place + 1 + name.length)
  ⟨String.ofList name, String.ofList (trim (join ['\n'] ((piecesAt '\n' content).map trim)))⟩

/-- The tags that open at given places, each of which ends where the next one opens. -/
def tagsAt (text : List Char) : List Nat → List Tag
  | [] => []
  | place :: later => tagUpTo text place (later.headD text.length) :: tagsAt text later

/-- Whether an at sign with a name stands directly behind the name of the tag at a place. -/
def gluedAt (text : List Char) (place : Nat) : Bool :=
  match (text.drop (place + 1)).dropWhile isNameChar with
  | '@' :: rest => opensName rest
  | _ => false

/-- No at sign with a name stands directly behind the name of a tag. -/
def Spaced (text : List Char) : Prop := ∀ place ∈ openers text, gluedAt text place = false

instance (text : List Char) : Decidable (Spaced text) :=
  inferInstanceAs (Decidable (∀ place ∈ openers text, gluedAt text place = false))

/-! ### One cut through all lines -/

/-- A tag with its text, which may go over several lines. -/
def closePiece (piece : List Char × List Char) : Tag := (OpenTag.mk piece.1 (piecesAt '\n' piece.2)).close

/-- A name ends in front of a character that continues none. -/
theorem takeWhile_isNameChar_append {d : Char} (hd : isNameChar d = false) (line rest : List Char) :
    (line ++ d :: rest).takeWhile isNameChar = line.takeWhile isNameChar
      ∧ (line ++ d :: rest).dropWhile isNameChar = line.dropWhile isNameChar ++ d :: rest := by
  induction line with
  | nil => simp [hd]
  | cons c line ih => cases hc : isNameChar c <;> simp [hc, ih]

/-- A name does not begin behind what no name holds. -/
theorem opensName_append (hname : isNameChar c = false) (line rest : List Char) :
    opensName (line ++ c :: rest) = opensName line := by
  cases line with
  | nil => exact Bool.eq_false_iff.2 fun hopens => by simp [isNameChar_of_opensName hopens] at hname
  | cons d line => rfl

/-- A cut in the text before a blank is a cut in the whole text, and without one the search goes on as at a
start. -/
theorem splitAtTag_append (hblank : isBlank c = true) (hname : isNameChar c = false) (fresh : Bool)
    (line rest : List Char) :
    splitAtTag fresh (line ++ c :: rest) =
      match splitAtTag fresh line with
      | (before, some after) => (before, some (after ++ c :: rest))
      | (before, none) => (before ++ c :: (splitAtTag true rest).1, (splitAtTag true rest).2) := by
  induction line generalizing fresh with
  | nil =>
      have hat : c ≠ '@' := fun hc => absurd (hc ▸ hblank) (by decide)
      simp [splitAtTag, hblank, hat]
  | cons d line ih =>
      rw [List.cons_append, splitAtTag, splitAtTag, opensName_append hname]
      split
      next => rfl
      next =>
        rw [ih]
        cases splitAtTag (isBlank d) line with
        | mk before after => cases after <;> rfl

/-- The last of several tags takes more text. -/
def extendLast (more : List Char) : List (List Char × List Char) → List (List Char × List Char)
  | [] => []
  | [(name, text)] => [(name, text ++ more)]
  | piece :: pieces => piece :: extendLast more pieces

theorem extendLast_concat (more : List Char) (pieces : List (List Char × List Char))
    (piece : List Char × List Char) :
    extendLast more (pieces ++ [piece]) = pieces ++ [(piece.1, piece.2 ++ more)] := by
  induction pieces with
  | nil => rfl
  | cons first pieces ih =>
      cases pieces with
      | nil => rfl
      | cons second pieces => simpa [extendLast] using ih

theorem tagsFrom_ne_nil (rest : List Char) : tagsFrom rest ≠ [] := by
  rw [tagsFrom]
  split <;> simp

theorem tagsFrom_append (hblank : isBlank c = true) (hname : isNameChar c = false) (line rest : List Char) :
    tagsFrom (line ++ c :: rest) = extendLast (c :: (cutLine rest).1) (tagsFrom line) ++ (cutLine rest).2 := by
  induction line using tagsFrom.induct with
  | case1 line text hcut =>
      obtain ⟨htake, hdrop⟩ := takeWhile_isNameChar_append hname line rest
      have hsplit := splitAtTag_append hblank hname true (line.dropWhile isNameChar) rest
      rw [← hdrop, hcut] at hsplit
      rw [tagsFrom_last hcut]
      cases hrest : splitAtTag true rest with
      | mk before after =>
          rw [hrest] at hsplit
          cases after with
          | none => simp [tagsFrom_last hsplit, htake, cutLine, hrest, extendLast]
          | some more => simp [tagsFrom_more hsplit, htake, cutLine, hrest, extendLast]
  | case2 line text more hcut ih =>
      obtain ⟨htake, hdrop⟩ := takeWhile_isNameChar_append hname line rest
      have hsplit := splitAtTag_append hblank hname true (line.dropWhile isNameChar) rest
      rw [← hdrop, hcut] at hsplit
      rw [tagsFrom_more hcut, tagsFrom_more hsplit, htake, ih]
      cases hmore : tagsFrom more with
      | nil => exact absurd hmore (tagsFrom_ne_nil more)
      | cons piece pieces => rfl

/-- What stands before the first tag of a text, and its tags, from those of the text before a blank and of the
rest. -/
theorem cutLine_append (hblank : isBlank c = true) (hname : isNameChar c = false) (line rest : List Char) :
    cutLine (line ++ c :: rest) =
      match (cutLine line).2.getLast? with
      | none => ((cutLine line).1 ++ c :: (cutLine rest).1, (cutLine rest).2)
      | some _ => ((cutLine line).1, extendLast (c :: (cutLine rest).1) (cutLine line).2 ++ (cutLine rest).2) := by
  have hsplit := splitAtTag_append hblank hname true line rest
  cases hline : splitAtTag true line with
  | mk before after =>
      rw [hline] at hsplit
      cases after with
      | none =>
          cases hrest : splitAtTag true rest with
          | mk before' after' => cases after' <;> simp [cutLine, hline, hrest, hsplit]
      | some after =>
          have hlast : (tagsFrom after).getLast? ≠ none := by simp [tagsFrom_ne_nil]
          cases hpieces : (tagsFrom after).getLast? with
          | none => exact absurd hpieces hlast
          | some piece => simp [cutLine, hline, hsplit, hpieces, tagsFrom_append hblank hname]

/-- Reading lines gives the tags of the text that they form. The open tag goes on up to the first of them. -/
theorem readLines_eq_cut {lines : List (List Char)} (hlines : ∀ line ∈ lines, '\n' ∉ line) (hne : lines ≠ [])
    (current : Option OpenTag) :
    readLines current lines =
      (current.map fun tag => OpenTag.close
          { tag with lines := tag.lines ++ piecesAt '\n' (cutLine (join ['\n'] (lines.map dropMargin))).1 }).toList
        ++ (cutLine (join ['\n'] (lines.map dropMargin))).2.map closePiece := by
  induction lines generalizing current with
  | nil => exact absurd rfl hne
  | cons line rest ih =>
      obtain ⟨hline, hrest⟩ := List.forall_mem_cons.1 hlines
      have hmargin : '\n' ∉ dropMargin line := fun hmem => hline ((dropMargin_suffix line).subset hmem)
      cases hcut : cutLine (dropMargin line) with
      | mk before pieces =>
          obtain ⟨hbefore, hpieces⟩ := cutLine_plain hmargin hcut
          have hclose : ∀ piece ∈ pieces, closePiece piece = (OpenTag.ofPiece piece).close :=
            fun piece hpiece => by
              rw [closePiece, piecesAt_self (hpieces piece hpiece).2.lineFeed, OpenTag.ofPiece]
          rw [readLines]
          simp only [hcut]
          rcases List.eq_nil_or_concat pieces with rfl | ⟨init, last, rfl⟩
          · cases hempty : rest with
            | nil =>
                simp only [List.map_cons, List.map_nil, join_singleton, hcut, List.getLast?_nil, readLines,
                  piecesAt_self hbefore.lineFeed, List.append_nil]
                cases current <;> rfl
            | cons next more =>
                rw [← hempty]
                have hsome : rest ≠ [] := by simp [hempty]
                rw [List.map_cons, join_cons (by simpa using hsome), cutLine_append (by decide) (by decide), hcut]
                simp only [List.getLast?_nil]
                rw [ih hrest hsome, piecesAt_append hbefore.lineFeed]
                cases current <;> simp [OpenTag.addLine]
          · rw [List.concat_eq_append] at hcut hpieces hclose ⊢
            obtain ⟨hinit, hlast⟩ := List.forall_mem_append.1 hclose
            have hlast := hlast last (by simp)
            rw [List.getLast?_concat, List.dropLast_concat]
            simp only [← List.map_congr_left hinit]
            cases hempty : rest with
            | nil =>
                simp only [List.map_cons, List.map_nil, join_singleton, hcut, readLines, List.map_append,
                  piecesAt_self hbefore.lineFeed, hlast]
                cases current <;> simp [OpenTag.addLine]
            | cons next more =>
                rw [← hempty]
                have hsome : rest ≠ [] := by simp [hempty]
                have hfeed : '\n' ∉ last.2 := (hpieces last (by simp)).2.lineFeed
                rw [List.map_cons, join_cons (by simpa using hsome), cutLine_append (by decide) (by decide), hcut]
                simp only [List.getLast?_concat, extendLast_concat]
                rw [ih hrest hsome, piecesAt_self hbefore.lineFeed]
                cases current <;>
                  simp [OpenTag.addLine, OpenTag.ofPiece, closePiece, piecesAt_append hfeed]

/-- The tags of a comment are those of its text, cut as a whole. -/
theorem parse_eq_cut (body : String) : parse body = (cutLine (innerText body)).2.map closePiece := by
  have hparse : parse body = readLines none (lines (dropOpener body.toList)) := rfl
  rw [hparse, innerText]
  by_cases hne : lines (dropOpener body.toList) = []
  · rw [hne]
    rfl
  · rw [readLines_eq_cut lineFeed_not_mem_lines hne]
    rfl

/-! ### The places of the tags -/

/-- The rule that a cut goes by: an at sign with a name behind it opens a tag where it begins a line or follows
whitespace, and also directly behind the name of a tag. -/
inductive Opens (text : List Char) : Nat → Prop
  | fresh {before rest : List Char} (htext : text = before ++ '@' :: rest) (hname : opensName rest = true)
      (hlast : before.getLast?.all isBlank = true) : Opens text before.length
  | behindName {before name rest : List Char} (hopens : Opens text before.length)
      (htext : text = before ++ '@' :: (name ++ '@' :: rest)) (hchars : ∀ c ∈ name, isNameChar c = true)
      (hname : opensName rest = true) : Opens text (before.length + 1 + name.length)

/-- The places of tags with their texts, of which the first one opens at a given place. -/
def placesFrom (place : Nat) : List (List Char × List Char) → List Nat
  | [] => []
  | (name, text) :: pieces => place :: placesFrom (place + 1 + name.length + text.length) pieces

/-- Tags and their texts as they are written. -/
def written (pieces : List (List Char × List Char)) : List Char :=
  pieces.flatMap fun (name, text) => '@' :: (name ++ text)

/-- No name could go on into the text behind it. -/
def Maximal (pieces : List (List Char × List Char)) : Prop :=
  ∀ piece ∈ pieces, (∀ c ∈ piece.1, isNameChar c = true) ∧ ∀ c ∈ piece.2.head?, isNameChar c = false

/-- What a search finds: nothing in front of the cut would open a tag, and at the cut one opens. -/
theorem splitAtTag_opens {after : Option (List Char)} (h : splitAtTag fresh line = (before, after)) :
    (∀ front rest, line = front ++ '@' :: rest → front.length < before.length →
        front.getLast?.elim fresh isBlank = true → opensName rest = false)
      ∧ (after = none → before = line)
      ∧ ∀ rest, after = some rest →
          line = before ++ '@' :: rest ∧ opensName rest = true ∧ before.getLast?.elim fresh isBlank = true := by
  induction line generalizing fresh before with
  | nil =>
      cases h
      exact ⟨by simp, by simp, by simp⟩
  | cons c line ih =>
      rw [splitAtTag] at h
      split at h
      next hopens =>
        simp only [Bool.and_eq_true, beq_iff_eq] at hopens
        cases h
        exact ⟨by simp, by simp, by simp [hopens]⟩
      next hkept =>
        cases hcut : splitAtTag (isBlank c) line with
        | mk before' after' =>
          rw [hcut] at h
          cases h
          obtain ⟨hfront, hnone, hsome⟩ := ih hcut
          refine ⟨?_, fun hafter => by rw [hnone hafter], fun rest hafter => ?_⟩
          · intro front rest hline hlength hlast
            cases front with
            | nil =>
                obtain ⟨rfl, rfl⟩ := List.cons_eq_cons.1 hline
                simpa [show fresh = true from hlast] using hkept
            | cons d front =>
                obtain ⟨rfl, rfl⟩ := List.cons_eq_cons.1 hline
                rw [elim_getLast?_cons] at hlast
                exact hfront front rest rfl (by simpa using hlength) hlast
          · obtain ⟨hline, hname, hlast⟩ := hsome rest hafter
            exact ⟨by simp [hline], hname, by rwa [elim_getLast?_cons]⟩

/-- A text is what stands before its first tag, followed by its tags as they are written. -/
theorem tagsFrom_written (rest : List Char) :
    written (tagsFrom rest) = '@' :: rest ∧ Maximal (tagsFrom rest) := by
  have hmaximal : ∀ {rest text : List Char}, text <+: rest.dropWhile isNameChar →
      (∀ c ∈ rest.takeWhile isNameChar, isNameChar c = true) ∧ ∀ c ∈ text.head?, isNameChar c = false := by
    rintro rest text ⟨more, hmore⟩
    refine ⟨fun c hc => List.mem_takeWhile_imp hc, fun c hc => ?_⟩
    obtain ⟨tail, rfl⟩ := List.head?_eq_some_iff.1 hc
    have hhead := List.head?_dropWhile_not isNameChar rest
    simpa [← hmore] using hhead
  induction rest using tagsFrom.induct with
  | case1 rest text hcut =>
      obtain ⟨-, hwhole, -⟩ := splitAtTag_opens hcut
      have htext : text = rest.dropWhile isNameChar := hwhole rfl
      rw [tagsFrom_last hcut]
      refine ⟨by simp [written, htext, List.takeWhile_append_dropWhile], ?_⟩
      simpa [Maximal] using hmaximal (htext ▸ List.prefix_refl _)
  | case2 rest text more hcut ih =>
      obtain ⟨-, -, hsome⟩ := splitAtTag_opens hcut
      obtain ⟨hdrop, -, -⟩ := hsome more rfl
      rw [tagsFrom_more hcut]
      refine ⟨?_, List.forall_mem_cons.2 ⟨hmaximal ⟨_, hdrop.symm⟩, ih.2⟩⟩
      have hwritten : written ((rest.takeWhile isNameChar, text) :: tagsFrom more)
          = '@' :: (rest.takeWhile isNameChar ++ (text ++ written (tagsFrom more))) := by simp [written]
      rw [hwritten, ih.1, ← hdrop, List.takeWhile_append_dropWhile]

/-- Reading the tags off a text at their places gives the tags that were cut out of it. -/
theorem tagsAt_placesFrom {front : List Char} {pieces : List (List Char × List Char)} (h : Maximal pieces)
    (htext : text = front ++ written pieces) :
    tagsAt text (placesFrom front.length pieces) = pieces.map closePiece := by
  induction pieces generalizing front with
  | nil => rfl
  | cons piece pieces ih =>
      obtain ⟨name, content⟩ := piece
      obtain ⟨⟨hchars, hhead⟩, hpieces⟩ := List.forall_mem_cons.1 h
      have hsplit : text = (front ++ '@' :: (name ++ content)) ++ written pieces := by simp [htext, written]
      have hlength : (front ++ '@' :: (name ++ content)).length = front.length + 1 + name.length + content.length := by
        simp
        omega
      have hnext : (placesFrom (front.length + 1 + name.length + content.length) pieces).headD text.length
          = front.length + 1 + name.length + content.length := by
        cases pieces with
        | nil => simp [placesFrom, ← hlength, hsplit, written]
        | cons piece pieces => simp [placesFrom]
      have htag : tagUpTo text front.length (front.length + 1 + name.length + content.length)
          = closePiece (name, content) := by
        have hdrop : text.drop (front.length + 1) = name ++ (content ++ written pieces) := by
          simp [htext, written, List.drop_append]
        have hname : nameAt text front.length = name := by
          rw [nameAt, hdrop, List.takeWhile_append_of_pos hchars]
          cases content with
          | nil => cases pieces <;> simp [written, show isNameChar '@' = false by decide]
          | cons c content => simp [hhead c rfl]
        have htake : text.take (front.length + 1 + name.length + content.length)
            = front ++ '@' :: (name ++ content) := by
          rw [hsplit, ← hlength, List.take_left']
          rfl
        have hcontent : (front ++ '@' :: (name ++ content)).drop (front.length + 1 + name.length) = content := by
          have hfront : front ++ '@' :: (name ++ content) = (front ++ '@' :: name) ++ content := by simp
          rw [hfront, List.drop_left']
          simp
          omega
        simp only [tagUpTo, hname, htake, hcontent, closePiece, OpenTag.close]
      rw [placesFrom, tagsAt, hnext, htag, List.map_cons, ← hlength, ih hpieces hsplit]

theorem placesFrom_sorted (pieces : List (List Char × List Char)) (place : Nat) :
    (placesFrom place pieces).Pairwise (· < ·) ∧ ∀ later ∈ placesFrom place pieces, place ≤ later := by
  induction pieces generalizing place with
  | nil => simp [placesFrom]
  | cons piece pieces ih =>
      obtain ⟨hsorted, hleast⟩ := ih (place + 1 + piece.1.length + piece.2.length)
      simp only [placesFrom]
      refine ⟨List.pairwise_cons.2 ⟨fun later hlater => ?_, hsorted⟩, List.forall_mem_cons.2 ⟨le_rfl, fun later hlater => ?_⟩⟩
      · have hle := hleast later hlater
        omega
      · have hle := hleast later hlater
        omega

/-! ### The tags are where they open -/

theorem exists_of_append_eq {a b r s : List Char} (h : a ++ r = b ++ s) (hle : b.length ≤ a.length) :
    ∃ c, a = b ++ c ∧ s = c ++ r := by
  obtain ⟨c, rfl⟩ := List.prefix_of_prefix_length_le ⟨s, h.symm⟩ (List.prefix_append a r) hle
  exact ⟨c, rfl, by simpa using h.symm⟩

theorem Opens.lt_length {place : Nat} (h : Opens text place) : place < text.length := by
  cases h with
  | fresh htext _ _ => simp [htext]
  | behindName _ htext _ _ =>
      simp [htext]
      omega

/-- Behind a tag, the next one opens where the text is cut again, and none before. -/
theorem Opens.next {front content : List Char} {after : Option (List Char)} {place : Nat}
    (h : Opens text place) (htext : text = front ++ '@' :: rest)
    (hcut : splitAtTag true (rest.dropWhile isNameChar) = (content, after)) (hle : front.length ≤ place) :
    place = front.length ∨ front.length + 1 + (rest.takeWhile isNameChar).length + content.length ≤ place := by
  have hat : isNameChar '@' = false := by decide
  obtain ⟨hcontent, -, -⟩ := splitAtTag_opens hcut
  induction h with
  | @fresh before tail hbefore hname hlast =>
      rw [or_iff_not_imp_left, ← not_lt]
      intro hne hlt
      obtain ⟨middle, rfl, hrest⟩ := exists_of_append_eq (hbefore.symm.trans htext) hle
      cases middle with
      | nil => simp at hne
      | cons d middle =>
          obtain ⟨rfl, rfl⟩ := List.cons_eq_cons.1 hrest
          obtain ⟨htake, hdrop⟩ := takeWhile_isNameChar_append hat middle tail
          have hmiddle : middle.length
              = (middle.takeWhile isNameChar).length + (middle.dropWhile isNameChar).length := by
            rw [← List.length_append, List.takeWhile_append_dropWhile]
          have hblank : (middle.dropWhile isNameChar).getLast?.elim true isBlank = true := by
            cases hend : (middle.dropWhile isNameChar).getLast? with
            | none => rfl
            | some e =>
                obtain ⟨init, hinit⟩ := List.getLast?_eq_some_iff.1 hend
                have hwhole : front ++ '@' :: middle
                    = (front ++ '@' :: (middle.takeWhile isNameChar ++ init)) ++ [e] := by
                  rw [List.append_assoc, List.cons_append, List.append_assoc, ← hinit,
                    List.takeWhile_append_dropWhile]
                rw [hwhole, List.getLast?_concat] at hlast
                exact hlast
          have hclosed := hcontent _ _ hdrop (by simp [htake] at hlt; omega) hblank
          rw [hname] at hclosed
          cases hclosed
  | @behindName before name tail hopens hbefore hchars hname ih =>
      rcases lt_trichotomy before.length front.length with hlt | heq | hgt
      · -- The name of an earlier tag cannot go past the at sign of this one.
        obtain ⟨middle, hfront, hrest⟩ := exists_of_append_eq (htext.symm.trans hbefore) hlt.le
        cases middle with
        | nil => simp [hfront] at hlt
        | cons d middle =>
            obtain ⟨rfl, hname'⟩ := List.cons_eq_cons.1 hrest
            have hshort : middle.length ≤ name.length := by
              simp [hfront] at hle
              omega
            obtain ⟨more, hmore, hrest⟩ := exists_of_append_eq hname' hshort
            cases more with
            | nil => exact .inl (by simp [hfront, hmore]; omega)
            | cons e more =>
                obtain ⟨rfl, -⟩ := List.cons_eq_cons.1 hrest
                have hbad := hchars '@' (by simp [hmore])
                rw [hat] at hbad
                cases hbad
      · obtain ⟨rfl, hrest⟩ := List.append_inj (htext.symm.trans hbefore) heq.symm
        obtain ⟨-, rfl⟩ := List.cons_eq_cons.1 hrest
        have htake : (name ++ '@' :: tail).takeWhile isNameChar = name := by
          rw [List.takeWhile_append_of_pos hchars]
          simp [hat]
        have hdrop : (name ++ '@' :: tail).dropWhile isNameChar = '@' :: tail := by
          rw [List.dropWhile_append_of_pos hchars]
          simp [hat]
        have hempty : content.length = 0 := by
          by_contra hne
          have hclosed := hcontent [] tail hdrop (by simpa using Nat.pos_of_ne_zero hne) rfl
          rw [hname] at hclosed
          cases hclosed
        exact .inr (by rw [htake]; omega)
      · rcases ih hgt.le with heq | hbehind
        · omega
        · exact .inr (by omega)

/-- From a tag on, the places of the tags are those at which a tag opens. -/
theorem mem_placesFrom_iff {front : List Char} (htext : text = front ++ '@' :: rest)
    (hopens : Opens text front.length) (hname : opensName rest = true) {place : Nat}
    (hle : front.length ≤ place) : place ∈ placesFrom front.length (tagsFrom rest) ↔ Opens text place := by
  induction rest using tagsFrom.induct generalizing front with
  | case1 rest content hcut =>
      rw [tagsFrom_last hcut]
      simp only [placesFrom, List.mem_singleton]
      refine ⟨fun heq => heq ▸ hopens, fun h => ?_⟩
      obtain ⟨-, hwhole, -⟩ := splitAtTag_opens hcut
      have hrest : rest.length = (rest.takeWhile isNameChar).length + content.length := by
        rw [hwhole rfl, ← List.length_append, List.takeWhile_append_dropWhile]
      rcases h.next htext hcut hle with heq | hbehind
      · exact heq
      · have hlt := h.lt_length
        simp [htext] at hlt
        omega
  | case2 rest content more hcut ih =>
      obtain ⟨-, -, hsome⟩ := splitAtTag_opens hcut
      obtain ⟨hdrop, hmore, hlast⟩ := hsome more rfl
      have hrest : rest = rest.takeWhile isNameChar ++ (content ++ '@' :: more) := by
        rw [← hdrop, List.takeWhile_append_dropWhile]
      have hnext : text = (front ++ '@' :: (rest.takeWhile isNameChar ++ content)) ++ '@' :: more := by
        conv_lhs => rw [htext, hrest]
        simp
      have hlength : (front ++ '@' :: (rest.takeWhile isNameChar ++ content)).length
          = front.length + 1 + (rest.takeWhile isNameChar).length + content.length := by
        simp
        omega
      have hopens' : Opens text (front ++ '@' :: (rest.takeWhile isNameChar ++ content)).length := by
        rcases List.eq_nil_or_concat content with rfl | ⟨init, c, rfl⟩
        · rw [hlength]
          exact .behindName hopens (htext.trans (by rw [← List.nil_append ('@' :: more), ← hrest]))
            (fun c hc => List.mem_takeWhile_imp hc) hmore
        · refine .fresh hnext hmore ?_
          rw [List.concat_eq_append, List.getLast?_concat] at hlast
          have hwhole : front ++ '@' :: (rest.takeWhile isNameChar ++ init.concat c)
              = (front ++ '@' :: (rest.takeWhile isNameChar ++ init)) ++ [c] := by simp
          rw [hwhole, List.getLast?_concat]
          exact hlast
      rw [tagsFrom_more hcut]
      simp only [placesFrom, List.mem_cons]
      rw [← hlength]
      constructor
      · rintro (rfl | hlater)
        · exact hopens
        · exact (ih hnext hopens' hmore ((placesFrom_sorted _ _).2 _ hlater)).1 hlater
      · intro h
        rcases h.next htext hcut hle with heq | hbehind
        · exact .inl heq
        · exact .inr ((ih hnext hopens' hmore (hlength ▸ hbehind)).2 h)

/-- No tag opens in front of the first cut. -/
theorem Opens.first {after : Option (List Char)} {place : Nat} (h : Opens text place)
    (hcut : splitAtTag true text = (before, after)) : before.length ≤ place := by
  obtain ⟨hfront, -, -⟩ := splitAtTag_opens hcut
  induction h with
  | @fresh front rest htext hname hlast =>
      by_contra hlt
      have hstart : front.getLast?.elim true isBlank = true := by
        cases hend : front.getLast? with
        | none => rfl
        | some c => simpa [hend] using hlast
      rw [hfront front rest htext (not_le.1 hlt) hstart] at hname
      cases hname
  | behindName _ _ _ _ ih => omega

theorem placesFrom_cutLine (text : List Char) :
    ∀ place, place ∈ placesFrom (cutLine text).1.length (cutLine text).2 ↔ Opens text place := by
  intro place
  unfold cutLine
  split
  next before hcut =>
    obtain ⟨-, hwhole, -⟩ := splitAtTag_opens hcut
    refine ⟨by simp [placesFrom], fun hopens => ?_⟩
    have hle := hopens.first hcut
    rw [hwhole rfl] at hle
    exact absurd hopens.lt_length (not_lt.2 hle)
  next before rest hcut =>
    obtain ⟨-, -, hsome⟩ := splitAtTag_opens hcut
    obtain ⟨htext, hname, hlast⟩ := hsome rest rfl
    have hopens : Opens text before.length := by
      refine .fresh htext hname ?_
      cases hend : before.getLast? with
      | none => rfl
      | some c => simpa [hend] using hlast
    refine ⟨fun hmem => ?_, fun h => (mem_placesFrom_iff htext hopens hname (h.first hcut)).2 h⟩
    exact (mem_placesFrom_iff htext hopens hname ((placesFrom_sorted _ _).2 _ hmem)).1 hmem

theorem cutLine_written (text : List Char) :
    text = (cutLine text).1 ++ written (cutLine text).2 ∧ Maximal (cutLine text).2 := by
  unfold cutLine
  split
  next before hcut =>
    obtain ⟨-, hwhole, -⟩ := splitAtTag_opens hcut
    exact ⟨by simp [written, hwhole rfl], by simp [Maximal]⟩
  next before rest hcut =>
    obtain ⟨-, -, hsome⟩ := splitAtTag_opens hcut
    obtain ⟨hwritten, hmaximal⟩ := tagsFrom_written rest
    exact ⟨by rw [hwritten]; exact (hsome rest rfl).1, hmaximal⟩

/-- The tags of a comment are those at the places of its text at which a tag opens. -/
theorem exists_places (body : String) :
    ∃ places : List Nat, places.Pairwise (· < ·) ∧ (∀ place, place ∈ places ↔ Opens (innerText body) place)
      ∧ parse body = tagsAt (innerText body) places := by
  obtain ⟨hwritten, hmaximal⟩ := cutLine_written (innerText body)
  refine ⟨_, (placesFrom_sorted _ _).1, placesFrom_cutLine (innerText body), ?_⟩
  rw [parse_eq_cut, tagsAt_placesFrom hmaximal hwritten]

/-! ### The plain rule -/

theorem opensAt_iff {place : Nat} : opensAt text place = true ↔
    ∃ before rest, text = before ++ '@' :: rest ∧ before.length = place ∧ opensName rest = true
      ∧ before.getLast?.all isBlank = true := by
  simp only [opensAt, Bool.and_eq_true, beq_iff_eq]
  constructor
  · rintro ⟨⟨hat, hlast⟩, hname⟩
    obtain ⟨hlt, hat⟩ := List.getElem?_eq_some_iff.1 hat
    refine ⟨text.take place, text.drop (place + 1), ?_, by simp; omega, hname, hlast⟩
    rw [← hat, List.getElem_cons_drop, List.take_append_drop]
  · rintro ⟨before, rest, rfl, rfl, hname, hlast⟩
    have hdrop : (before ++ '@' :: rest).drop (before.length + 1) = rest := by
      simp [List.drop_append]
    simp [hname, hlast, hdrop]

theorem mem_openers {place : Nat} : place ∈ openers text ↔ opensAt text place = true := by
  simp only [openers, List.mem_filter, List.mem_range, and_iff_right_iff_imp]
  intro h
  obtain ⟨before, rest, rfl, rfl, -, -⟩ := opensAt_iff.1 h
  simp

/-- Where no tag stands directly behind a name, nothing but the plain rule opens one. -/
theorem opens_iff_of_spaced (h : Spaced text) {place : Nat} : Opens text place ↔ place ∈ openers text := by
  rw [mem_openers]
  constructor
  · intro hopens
    induction hopens with
    | fresh htext hname hlast => exact opensAt_iff.2 ⟨_, _, htext, rfl, hname, hlast⟩
    | @behindName before name rest _ htext hchars hname ih =>
        have hdrop : (text.drop (before.length + 1)).dropWhile isNameChar = '@' :: rest := by
          have htail : text.drop (before.length + 1) = name ++ '@' :: rest := by
            simp [htext, List.drop_append]
          rw [htail, List.dropWhile_append_of_pos hchars]
          simp [show isNameChar '@' = false by decide]
        have hspaced := h _ (mem_openers.2 ih)
        rw [gluedAt, hdrop] at hspaced
        simp [hname] at hspaced
  · intro hopens
    obtain ⟨before, rest, htext, rfl, hname, hlast⟩ := opensAt_iff.1 hopens
    exact .fresh htext hname hlast

/-- A comment in which no tag stands directly behind the name of another one has one tag for each at sign that
begins its line or follows whitespace and has a letter or an underscore behind it, in order, and none for any
other at sign. Its name is as long as it can be, and its text is what stands between that name and the next
such at sign, or the end: each line trimmed, the lines joined, and the whole trimmed. -/
theorem parse_openers (body : String) (h : Spaced (innerText body)) :
    parse body = tagsAt (innerText body) (openers (innerText body)) := by
  obtain ⟨places, hsorted, hmem, htags⟩ := exists_places body
  have hplaces : places = openers (innerText body) :=
    hsorted.eq_of_mem_iff (List.pairwise_lt_range.filter _) fun place =>
      (hmem place).trans (opens_iff_of_spaced h)
  rw [htags, hplaces]

/-- An at sign that is glued to a word stays text, however the word goes on. -/
theorem parse_openers_glued :
    Spaced (innerText "* @a x @b y@c @1\n * @d$@ \t@_e")
      ∧ parse "* @a x @b y@c @1\n * @d$@ \t@_e" = [⟨"a", "x"⟩, ⟨"b", "y@c @1"⟩, ⟨"d$", "@"⟩, ⟨"_e", ""⟩] := by
  have hspaced : Spaced (innerText "* @a x @b y@c @1\n * @d$@ \t@_e") := by decide
  refine ⟨hspaced, ?_⟩
  rw [parse_openers _ hspaced]
  decide

/-- The search for tags starts afresh behind a name, so an at sign there opens a tag although a name stands
directly before it. By the plain rule it stays text. -/
theorem parse_behind_name :
    parse "* @a@b" = [⟨"a", ""⟩, ⟨"b", ""⟩]
      ∧ tagsAt (innerText "* @a@b") (openers (innerText "* @a@b")) = [⟨"a", "@b"⟩] :=
  ⟨by decide +kernel, by decide⟩

end ModPackager.DocComment
