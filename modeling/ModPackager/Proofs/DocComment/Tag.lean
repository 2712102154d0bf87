import ModPackager.DocComment.Tag
import ModPackager.Proofs.Text.Lines

/-!
# The tags that a comment can give

A line is cut at the at signs that open a tag, so no text between them holds one (`splitAtTag_cases`,
`untagged_splitAtTag`). Reading carries an open tag from line to line; all that is added to it are plain lines,
without a line feed and without a tag (`OpenTag.Plain`), and closing a tag with plain lines gives a canonical
one (`OpenTag.Plain.close`). So every comment is read as a list of canonical tags (`canonical_parse`).
-/

namespace ModPackager.DocComment

open Text

variable {c : Char} {fresh : Bool} {line before rest name text : List Char}

/-! ### Lines without a tag -/

/-- No at sign of the line, at its start or after whitespace, opens a tag. Whether one may open at the very
start is told by a flag, so that a line can be taken apart character by character. -/
def Untagged (fresh : Bool) (line : List Char) : Prop :=
  ∀ before rest, line = before ++ '@' :: rest → before.getLast?.elim fresh isBlank = true →
    opensName rest = false

theorem elim_getLast?_cons (fresh : Bool) (c : Char) (before : List Char) :
    (c :: before).getLast?.elim fresh isBlank = before.getLast?.elim (isBlank c) isBlank := by
  rw [List.getLast?_cons]
  cases before.getLast? <;> rfl

theorem untagged_nil : Untagged fresh [] := by
  intro before rest hline
  simp at hline

theorem untagged_cons :
    Untagged fresh (c :: rest) ↔
      (c = '@' → fresh = true → opensName rest = false) ∧ Untagged (isBlank c) rest := by
  constructor
  · intro h
    refine ⟨fun hc hfresh => h [] rest (by simp [hc]) hfresh, fun before tail htail hlast => ?_⟩
    exact h (c :: before) tail (by simp [htail]) (by rwa [elim_getLast?_cons])
  · rintro ⟨hhere, hlater⟩ before tail htail hlast
    cases before with
    | nil =>
        obtain ⟨rfl, rfl⟩ := List.cons_eq_cons.1 htail
        exact hhere rfl hlast
    | cons d before =>
        obtain ⟨rfl, rfl⟩ := List.cons_eq_cons.1 htail
        exact hlater before tail rfl (by rwa [elim_getLast?_cons] at hlast)

theorem opensName_of_prefix {part : List Char} (hpart : part <+: line) (h : opensName line = false) :
    opensName part = false := by
  obtain ⟨more, rfl⟩ := hpart
  cases part with
  | nil => rfl
  | cons c part => simpa [opensName] using h

namespace Untagged

theorem of_prefix {part : List Char} (h : Untagged fresh line) (hpart : part <+: line) :
    Untagged fresh part := by
  obtain ⟨more, rfl⟩ := hpart
  intro before rest hline hlast
  have hopens := h before (rest ++ more) (by simp [hline]) hlast
  exact opensName_of_prefix (List.prefix_append rest more) hopens

theorem trimStart (h : Untagged true line) : Untagged true (Text.trimStart line) := by
  induction line with
  | nil => exact h
  | cons c rest ih =>
      cases hc : isBlank c with
      | false => rwa [trimStart_cons hc]
      | true =>
          have hrest := (untagged_cons.1 h).2
          rw [hc] at hrest
          rw [trimStart_blank hc]
          exact ih hrest

theorem trim (h : Untagged true line) : Untagged true (Text.trim line) :=
  h.trimStart.of_prefix (prefix_trimEnd _)

/-- A blank at the start of a line leaves room for a tag. -/
theorem blank (h : Untagged true line) : Untagged true (' ' :: line) :=
  untagged_cons.2 ⟨by simp, h⟩

end Untagged

/-! ### Cutting one line -/

/-- A line is either left whole or cut at an at sign that a name follows. -/
theorem splitAtTag_cases (fresh : Bool) (line : List Char) :
    splitAtTag fresh line = (line, none) ∨
      ∃ before rest, line = before ++ '@' :: rest ∧ opensName rest = true
        ∧ splitAtTag fresh line = (before, some rest) := by
  induction line generalizing fresh with
  | nil => exact .inl rfl
  | cons c line ih =>
      unfold splitAtTag
      split
      next hopens =>
        simp only [Bool.and_eq_true, beq_iff_eq] at hopens
        exact .inr ⟨[], line, by simp [hopens.1.1], hopens.2, rfl⟩
      next =>
        rcases ih (isBlank c) with hwhole | ⟨before, rest, hline, hopens, hcut⟩
        · exact .inl (by rw [hwhole])
        · exact .inr ⟨c :: before, rest, by simp [hline], hopens, by rw [hcut]⟩

theorem prefix_splitAtTag_fst (fresh : Bool) (line : List Char) : (splitAtTag fresh line).1 <+: line := by
  rcases splitAtTag_cases fresh line with hwhole | ⟨before, rest, hline, -, hcut⟩
  · exact hwhole ▸ List.prefix_refl line
  · exact hcut ▸ hline ▸ List.prefix_append before _

/-- What stands before the cut holds no tag. -/
theorem untagged_splitAtTag (fresh : Bool) (line : List Char) : Untagged fresh (splitAtTag fresh line).1 := by
  induction line generalizing fresh with
  | nil => exact untagged_nil
  | cons c line ih =>
      unfold splitAtTag
      split
      next => exact untagged_nil
      next hkept =>
        refine untagged_cons.2 ⟨fun hc hfresh => ?_, ih _⟩
        have hopens : opensName line = false := by simpa [hc, hfresh] using hkept
        exact opensName_of_prefix (prefix_splitAtTag_fst _ _) hopens

theorem splitAtTag_of_untagged (h : Untagged fresh line) : splitAtTag fresh line = (line, none) := by
  induction line generalizing fresh with
  | nil => rfl
  | cons c line ih =>
      obtain ⟨hhere, hlater⟩ := untagged_cons.1 h
      rw [splitAtTag, ih hlater, if_neg]
      intro hopens
      simp only [Bool.and_eq_true, beq_iff_eq] at hopens
      simp [hhere hopens.1.1 hopens.1.2] at hopens

theorem cutLine_untagged (h : Untagged true line) : cutLine line = (line, []) := by
  simp only [cutLine, splitAtTag_of_untagged h]

/-! ### Canonical tags -/

/-- A name as a tag has it: a letter or an underscore, then letters, numerals, underscores and dollar signs. -/
structure CanonicalName (name : List Char) : Prop where
  opens : opensName name = true
  nameChar : ∀ c ∈ name, isNameChar c = true

instance (name : List Char) : Decidable (CanonicalName name) :=
  decidable_of_iff (opensName name = true ∧ name.all isNameChar = true)
    ⟨fun h => ⟨h.1, List.all_eq_true.1 h.2⟩, fun h => ⟨h.opens, List.all_eq_true.2 h.nameChar⟩⟩

/-- A text inside one line in which no tag opens. -/
structure Plain (line : List Char) : Prop where
  lineFeed : '\n' ∉ line
  untagged : Untagged true line

/-- Lines of a tag's text: trimmed, without tags, the first and the last one not empty. -/
structure CanonicalLines (lines : List (List Char)) : Prop where
  nonempty : lines ≠ []
  plain : ∀ line ∈ lines, Plain line
  trimmed : ∀ line ∈ lines, trim line = line
  head_ne : lines.head? ≠ some []
  last_ne : lines.getLast? ≠ some []

/-- A tag in the form that reading a comment gives. -/
structure Canonical (tag : Tag) : Prop where
  name : CanonicalName tag.name.toList
  text : tag.text = "" ∨ ∃ lines, tag.text.toList = join ['\n'] lines ∧ CanonicalLines lines

theorem Plain.trim (h : Plain line) : Plain (trim line) where
  lineFeed := fun hmem => h.lineFeed ((infix_trim line).subset hmem)
  untagged := h.untagged.trim

/-- The lines of an open tag hold no tag of their own. -/
structure OpenTag.Plain (tag : OpenTag) : Prop where
  name : CanonicalName tag.name
  lines : ∀ line ∈ tag.lines, DocComment.Plain line

namespace OpenTag.Plain

variable {tag : OpenTag}

theorem ofPiece (hname : CanonicalName name) (htext : DocComment.Plain text) :
    (OpenTag.ofPiece (name, text)).Plain :=
  ⟨hname, by simpa [OpenTag.ofPiece] using htext⟩

theorem addLine (h : tag.Plain) (hline : DocComment.Plain line) : (tag.addLine line).Plain := by
  refine ⟨h.name, fun other hother => ?_⟩
  rcases List.mem_append.1 hother with hold | hnew
  · exact h.lines other hold
  · rwa [List.mem_singleton.1 hnew]

/-- Closing trims each line and drops the empty ones at both ends. -/
theorem close (h : tag.Plain) : Canonical tag.close := by
  have htrimmed : ∀ line ∈ tag.lines.map trim, trim line = line := by
    intro line hline
    obtain ⟨original, -, rfl⟩ := List.mem_map.1 hline
    exact trim_idem original
  have hjoin := trim_join htrimmed
  generalize hstart : (tag.lines.map trim).dropWhile List.isEmpty = started at hjoin
  generalize hkept : started.rdropWhile List.isEmpty = kept at hjoin
  have hprefix : kept <+: started := hkept ▸ List.rdropWhile_prefix _ _
  have hmem : ∀ line ∈ kept, line ∈ tag.lines.map trim := fun line hline =>
    (List.dropWhile_sublist _).subset (hstart ▸ hprefix.subset hline)
  refine ⟨by simpa [OpenTag.close] using h.name, ?_⟩
  by_cases hnil : kept = []
  · left
    simp [OpenTag.close, hjoin, hnil]
  · right
    refine ⟨kept, by simp [OpenTag.close, hjoin], hnil, ?_, fun line hline => htrimmed line (hmem line hline), ?_, ?_⟩
    · intro line hline
      obtain ⟨original, horiginal, rfl⟩ := List.mem_map.1 (hmem line hline)
      exact (h.lines original horiginal).trim
    · intro hhead
      obtain ⟨more, rfl⟩ := hprefix
      have hfirst := List.head?_dropWhile_not List.isEmpty (tag.lines.map trim)
      cases kept with
      | nil => exact hnil rfl
      | cons first kept => simp_all
    · intro hlast
      have hend := List.rdropWhile_last_not List.isEmpty started (by rwa [hkept])
      simp_all [List.getLast?_eq_some_getLast]

end OpenTag.Plain

/-! ### Reading a comment -/

theorem tagsFrom_last (h : splitAtTag true (rest.dropWhile isNameChar) = (text, none)) :
    tagsFrom rest = [(rest.takeWhile isNameChar, text)] := by
  rw [tagsFrom]
  split <;> simp_all

theorem tagsFrom_more {more : List Char}
    (h : splitAtTag true (rest.dropWhile isNameChar) = (text, some more)) :
    tagsFrom rest = (rest.takeWhile isNameChar, text) :: tagsFrom more := by
  rw [tagsFrom]
  split <;> simp_all

/-- A letter and an underscore continue a name too. -/
theorem isNameChar_of_opensName (h : opensName (c :: rest) = true) : isNameChar c = true := by
  simp only [opensName, Bool.or_eq_true] at h
  rcases h with hletter | hunderscore
  · simp [isNameChar, isAlphanumeric, hletter]
  · simp [isNameChar, hunderscore]

theorem canonicalName_takeWhile (h : opensName rest = true) : CanonicalName (rest.takeWhile isNameChar) := by
  cases rest with
  | nil => simp [opensName] at h
  | cons c rest =>
      refine ⟨?_, fun d hd => List.mem_takeWhile_imp hd⟩
      rw [List.takeWhile_cons_of_pos (isNameChar_of_opensName h)]
      exact h

/-- What a cut leaves before and behind it, of a text inside one line. -/
theorem plain_of_splitAtTag {after : Option (List Char)} (hfeed : '\n' ∉ line)
    (hcut : splitAtTag true line = (before, after)) :
    Plain before ∧ ∀ rest, after = some rest → opensName rest = true ∧ '\n' ∉ rest := by
  have huntagged := untagged_splitAtTag true line
  rw [hcut] at huntagged
  rcases splitAtTag_cases true line with hwhole | ⟨start, tail, hline, hopens, hsplit⟩
  · obtain ⟨rfl, rfl⟩ := Prod.mk.injEq .. ▸ hcut.symm.trans hwhole
    exact ⟨⟨hfeed, huntagged⟩, by simp⟩
  · obtain ⟨rfl, rfl⟩ := Prod.mk.injEq .. ▸ hcut.symm.trans hsplit
    subst hline
    simp only [List.mem_append, List.mem_cons, not_or] at hfeed
    refine ⟨⟨hfeed.1, huntagged⟩, fun rest hrest => ?_⟩
    obtain rfl := Option.some.inj hrest
    exact ⟨hopens, hfeed.2.2⟩

/-- The tags of a line that a name follows have canonical names and plain texts. -/
theorem tagsFrom_plain (hopens : opensName rest = true) (hfeed : '\n' ∉ rest) :
    ∀ piece ∈ tagsFrom rest, CanonicalName piece.1 ∧ Plain piece.2 := by
  have hdropped : ∀ {tail : List Char}, '\n' ∉ tail → '\n' ∉ tail.dropWhile isNameChar :=
    fun htail hmem => htail ((List.dropWhile_sublist _).subset hmem)
  induction rest using tagsFrom.induct with
  | case1 rest text hcut =>
      have hplain := plain_of_splitAtTag (hdropped hfeed) hcut
      rw [tagsFrom_last hcut]
      simpa using ⟨canonicalName_takeWhile hopens, hplain.1⟩
  | case2 rest text more hcut ih =>
      obtain ⟨hplain, hmore⟩ := plain_of_splitAtTag (hdropped hfeed) hcut
      obtain ⟨hopens', hfeed'⟩ := hmore more rfl
      rw [tagsFrom_more hcut]
      exact List.forall_mem_cons.2 ⟨⟨canonicalName_takeWhile hopens, hplain⟩, ih hopens' hfeed'⟩

theorem cutLine_plain {pieces : List (List Char × List Char)} (hfeed : '\n' ∉ line)
    (hcut : cutLine line = (before, pieces)) :
    Plain before ∧ ∀ piece ∈ pieces, CanonicalName piece.1 ∧ Plain piece.2 := by
  unfold cutLine at hcut
  split at hcut
  next text hsplit =>
    obtain ⟨rfl, rfl⟩ := Prod.mk.injEq .. ▸ hcut
    exact ⟨(plain_of_splitAtTag hfeed hsplit).1, by simp⟩
  next start rest hsplit =>
    obtain ⟨rfl, rfl⟩ := Prod.mk.injEq .. ▸ hcut
    obtain ⟨hplain, hrest⟩ := plain_of_splitAtTag hfeed hsplit
    obtain ⟨hopens, hfeed'⟩ := hrest rest rfl
    exact ⟨hplain, tagsFrom_plain hopens hfeed'⟩

theorem dropMargin_suffix (line : List Char) : dropMargin line <:+ line := by
  unfold dropMargin
  split
  next rest hstar => exact (List.suffix_cons _ _).trans (hstar ▸ suffix_trimStart line)
  next => exact suffix_trimStart line

/-- Every line that is read leaves the open tag plain and closes canonical tags only. -/
theorem canonical_readLines {current : Option OpenTag} {lines : List (List Char)}
    (hcurrent : ∀ tag ∈ current, tag.Plain) (hlines : ∀ line ∈ lines, '\n' ∉ line) :
    ∀ tag ∈ readLines current lines, Canonical tag := by
  have hclosed : ∀ {current : Option OpenTag}, (∀ tag ∈ current, tag.Plain) →
      ∀ tag ∈ (current.map OpenTag.close).toList, Canonical tag := by
    intro current hcurrent tag htag
    obtain ⟨opened, hopened, rfl⟩ := Option.map_eq_some_iff.1 (Option.mem_toList.1 htag)
    exact (hcurrent opened hopened).close
  induction lines generalizing current with
  | nil => exact hclosed hcurrent
  | cons line rest ih =>
      obtain ⟨hline, hrest⟩ := List.forall_mem_cons.1 hlines
      have hmargin : '\n' ∉ dropMargin line := fun hmem => hline ((dropMargin_suffix line).subset hmem)
      cases hcut : cutLine (dropMargin line) with
      | mk before pieces =>
        obtain ⟨hbefore, hpieces⟩ := cutLine_plain hmargin hcut
        have hadded : ∀ tag ∈ current.map (·.addLine before), tag.Plain := by
          intro tag htag
          obtain ⟨opened, hopened, rfl⟩ := Option.map_eq_some_iff.1 htag
          exact (hcurrent opened hopened).addLine hbefore
        have hopened : ∀ piece ∈ pieces, (OpenTag.ofPiece piece).Plain := fun piece hpiece =>
          .ofPiece (hpieces piece hpiece).1 (hpieces piece hpiece).2
        rw [readLines]
        simp only [hcut]
        split
        next => exact ih hadded hrest
        next last hlast =>
          intro tag htag
          simp only [List.mem_append, List.mem_map] at htag
          rcases htag with (hold | ⟨piece, hpiece, rfl⟩) | hlater
          · exact hclosed hadded tag hold
          · exact (hopened piece (List.dropLast_subset _ hpiece)).close
          · refine ih (fun tag htag => ?_) hrest tag hlater
            obtain rfl := Option.some.inj htag
            exact hopened last (List.mem_of_getLast? hlast)

/-- Every comment is read as canonical tags. -/
theorem canonical_parse (body : String) : ∀ tag ∈ parse body, Canonical tag :=
  canonical_readLines (by simp) lineFeed_not_mem_lines

end ModPackager.DocComment
