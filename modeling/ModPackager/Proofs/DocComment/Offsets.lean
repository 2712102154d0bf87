import ModPackager.Patch.Descriptor
import ModPackager.Proofs.DocComment.Reading
import ModPackager.Proofs.Text.Encoded

/-!
# Comments read at byte offsets

The tags of a comment are read here from its bytes. What is left of a line is cut at offsets: the offset of an at sign is
used again to cut in front of it and one byte behind it, and what comes behind is cut once more where the tag's name ends.
Every cut is a slice that may fail (`Text.Encoded.slice`), and so may be what is read.

It never does. The offsets that are used are places between characters, since they come from a search through the
characters and one more byte is just the at sign. So the cuts are those that are made in the list of characters
(`cutTag_encode`), the tags of a line are the same (`readTags_tagsFrom`), and with them those of a comment
(`parse_bytes`). That a line has an end to its tags rests on no text: what is left is always shorter (`length_cutTag`).

The same holds of the quotes that are taken off a tag's text, each of them one byte (`stripQuotes_encode`).
-/

namespace ModPackager

open Text hiding lines linesFrom trim trimStart trimEnd
open Text.Encoded

namespace DocComment.Encoded

/-! ### One line -/

/-- Whether the bytes behind an at sign begin a tag's name. -/
def opensName (text : List UInt8) : Bool := (firstChar? text).any fun c => isAlphabetic c || c == '_'

/-- The offset of the first at sign that opens a tag, looked for among the characters that are left of a line. The flag
says whether the character before them allows a tag. -/
def findTagFrom (line : List UInt8) : Bool → List (Nat × Char) → Except SliceFault (Option Nat)
  | _, [] => .ok none
  | fresh, (offset, c) :: more =>
    if c == '@' && fresh then do
      let behind ← slice line (offset + 1) line.length
      if opensName behind then return some offset else findTagFrom line (isBlank c) more
    else findTagFrom line (isBlank c) more

/-- The offset of the first at sign of a line that opens a tag. -/
def findTag (line : List UInt8) : Except SliceFault (Option Nat) := findTagFrom line true (charOffsets 0 line)

/-- A line cut at its first tag. -/
structure Cut where
  before : List UInt8
  name : List UInt8
  rest : List UInt8

/-- Cuts a line at an at sign: the text before it, the name behind it, and what is left behind the name. The text before
it is cut off whether or not there is a tag that it goes to. -/
def cutAt (line : List UInt8) (offset : Nat) : Except SliceFault Cut := do
  let before ← slice line 0 offset
  let after ← slice line (offset + 1) line.length
  let nameLength := (find? (!isNameChar ·) after).getD after.length
  let name ← slice after 0 nameLength
  let rest ← slice after nameLength after.length
  return ⟨before, name, rest⟩

/-- Cuts a line at its first tag, if it has one. -/
def cutTag (line : List UInt8) : Except SliceFault (Option Cut) := do
  match ← findTag line with
  | none => return none
  | some offset => return some (← cutAt line offset)

theorem bind_eq_ok {α β : Type} {x : Except SliceFault α} {f : α → Except SliceFault β} {b : β} :
    x >>= f = .ok b ↔ ∃ a, x = .ok a ∧ f a = .ok b := by
  cases x <;> simp [bind, Except.bind]

/-- The at sign and the name are left out. -/
theorem length_cutAt {line : List UInt8} {offset : Nat} {cut : Cut} (h : cutAt line offset = .ok cut) :
    cut.rest.length < line.length := by
  simp only [cutAt, bind_eq_ok] at h
  obtain ⟨before, -, after, hafter, name, -, rest, hrest, hcut⟩ := h
  obtain rfl := Except.ok.inj hcut
  obtain ⟨hoffset, hlength⟩ := length_of_slice hafter
  obtain ⟨-, hshort⟩ := length_of_slice hrest
  simp only
  omega

/-- What is left of a line behind a tag is shorter than the line. -/
theorem length_cutTag {line : List UInt8} {cut : Cut} (h : cutTag line = .ok (some cut)) :
    cut.rest.length < line.length := by
  obtain ⟨found, -, hcut⟩ := bind_eq_ok.1 h
  cases found with
  | none => cases hcut
  | some offset =>
      obtain ⟨cut', hcutAt, hsome⟩ := bind_eq_ok.1 hcut
      obtain rfl : cut' = cut := Option.some.inj (Except.ok.inj hsome)
      exact length_cutAt hcutAt

/-! ### Tags -/

/-- A finished tag. -/
structure Tag where
  name : List UInt8
  text : List UInt8
deriving DecidableEq

/-- A tag whose text may still continue. -/
structure OpenTag where
  name : List UInt8
  lines : List (List UInt8)

/-- Goes on with the last line of the text. -/
def OpenTag.extend (tag : OpenTag) (part : List UInt8) : OpenTag :=
  match tag.lines.getLast? with
  | some last => { tag with lines := tag.lines.dropLast ++ [last ++ part] }
  | none => tag

/-- Begins the next line of the text. -/
def OpenTag.nextLine (tag : OpenTag) : OpenTag := { tag with lines := tag.lines ++ [[]] }

/-- The finished tag: lines trimmed, joined, and trimmed as a whole. -/
def OpenTag.close (tag : OpenTag) : Tag := ⟨tag.name, trim ([10].intercalate (tag.lines.map trim))⟩

/-- The tags that are finished, and one that may still continue. -/
structure Progress where
  current : Option OpenTag
  tags : List Tag

namespace Progress

def nextLine (progress : Progress) : Progress := { progress with current := progress.current.map (·.nextLine) }

def extend (progress : Progress) (part : List UInt8) : Progress :=
  { progress with current := progress.current.map (·.extend part) }

/-- Finishes the tag that is open. -/
def close (progress : Progress) : List Tag := progress.tags ++ (progress.current.map OpenTag.close).toList

/-- Opens the next tag. -/
def start (progress : Progress) (name : List UInt8) : Progress := ⟨some ⟨name, [[]]⟩, progress.close⟩

end Progress

/-- Reads the tags of what is left of a line. -/
def readTags (progress : Progress) (line : List UInt8) : Except SliceFault Progress :=
  match _cut : cutTag line with
  | .error fault => .error fault
  | .ok none => .ok (progress.extend line)
  | .ok (some cut) => readTags ((progress.extend cut.before).start cut.name) cut.rest
termination_by line.length
decreasing_by exact length_cutTag (by assumption)

/-- Drops a star at the start. -/
def dropStar : List UInt8 → List UInt8
  | 42 :: rest => rest
  | text => text

/-- Reads the next line of a comment. -/
def readLine (progress : Progress) (line : List UInt8) : Except SliceFault Progress :=
  readTags progress.nextLine (dropStar (trimStart line))

/-- The tags of a comment body, which may still carry the second star of its opener. -/
def parse (body : List UInt8) : Except SliceFault (List Tag) := do
  let progress ← (lines (dropStar body)).foldlM readLine ⟨none, []⟩
  return progress.close

/-! ### Tags found in the characters -/

section Line

variable {line front rest before : List Char} {text : List Char}

theorem opensName_encode (rest : List Char) : opensName (encode rest) = DocComment.opensName rest := by
  cases rest with
  | nil => simp [opensName, firstChar?_nil, DocComment.opensName]
  | cons c rest => simp [opensName, firstChar?_append, DocComment.opensName]

/-- The search stops in front of the at sign at which the list of characters is cut. -/
theorem findTagFrom_encode (front rest : List Char) (fresh : Bool) :
    findTagFrom (encode (front ++ rest)) fresh (charOffsets (encode front).length (encode rest))
      = .ok ((splitAtTag fresh rest).2.map fun _ => (encode (front ++ (splitAtTag fresh rest).1)).length) := by
  -- Offsets count from the start of the line, so what is in front grows by each character that is passed.
  induction rest generalizing front fresh with
  | nil => simp [findTagFrom, splitAtTag]
  | cons c rest ih =>
      have hline : front ++ c :: rest = (front ++ [c]) ++ rest := by simp
      have hoffset : (encode front).length + c.utf8Size = (encode (front ++ [c])).length := by simp
      have hnext := ih (front ++ [c]) (isBlank c)
      rw [List.append_assoc, List.singleton_append] at hnext
      rw [hline, encode_cons, charOffsets_cons, findTagFrom, hoffset, ← hline, splitAtTag]
      by_cases hat : (c == '@' && fresh) = true
      · obtain ⟨rfl, rfl⟩ : c = '@' ∧ fresh = true := by simpa using hat
        have hbyte : (encode front).length + 1 = (encode (front ++ ['@'])).length := hoffset
        rw [if_pos hat, hbyte, hline, slice_behind]
        simp only [bind, Except.bind, opensName_encode]
        cases hopens : DocComment.opensName rest with
        | true => simp [pure, Except.pure]
        | false => simpa using hnext
      · have hkept : ¬ (c == '@' && fresh && DocComment.opensName rest) = true := fun hopens =>
          hat (Bool.and_eq_true_iff.1 hopens).1
        rw [if_neg hat, if_neg hkept, hnext]
        simp

theorem findTag_encode (line : List Char) : findTag (encode line)
    = .ok ((splitAtTag true line).2.map fun _ => (encode (splitAtTag true line).1).length) := findTagFrom_encode [] line true

theorem cutTag_encode_none (h : splitAtTag true line = (before, none)) : cutTag (encode line) = .ok none := by
  rw [cutTag, findTag_encode, h]
  rfl

/-- A line is cut at its first tag as the list of its characters is. -/
theorem cutTag_encode (h : splitAtTag true line = (before, some rest)) : cutTag (encode line)
    = .ok (some ⟨encode before, encode (rest.takeWhile isNameChar), encode (rest.dropWhile isNameChar)⟩) := by
  have hline : line = before ++ '@' :: rest := by
    rcases splitAtTag_cases true line with hwhole | ⟨before', rest', hline, -, hcut⟩
    · cases h.symm.trans hwhole
    · cases h.symm.trans hcut
      exact hline
  have hbefore : slice (encode line) 0 (encode before).length = .ok (encode before) := hline ▸ slice_before _ _
  have hafter : slice (encode line) ((encode before).length + 1) (encode line).length = .ok (encode rest) := by
    have hbyte : (encode before).length + 1 = (encode (before ++ ['@'])).length := by
      rw [encode_append, List.length_append]
      rfl
    have hfront : line = (before ++ ['@']) ++ rest := by simp [hline]
    rw [hbyte, hfront, slice_behind]
  have hlength : (find? (!isNameChar ·) (encode rest)).getD (encode rest).length
      = (encode (rest.takeWhile isNameChar)).length := by simpa using find?_encode (!isNameChar ·) rest
  have hname := slice_before (rest.takeWhile isNameChar) (rest.dropWhile isNameChar)
  have hbehind := slice_behind (rest.takeWhile isNameChar) (rest.dropWhile isNameChar)
  rw [List.takeWhile_append_dropWhile] at hname hbehind
  have hcut : cutAt (encode line) (encode before).length
      = .ok ⟨encode before, encode (rest.takeWhile isNameChar), encode (rest.dropWhile isNameChar)⟩ := by
    simp only [cutAt, hbefore, hafter, bind, Except.bind, hlength, hname, hbehind]
    rfl
  simp only [cutTag, findTag_encode, h, bind, Except.bind, Option.map_some, hcut]
  rfl

/-! ### Tags of a line -/

/-- A line without tags goes to the tag that is open. -/
theorem readTags_whole (h : splitAtTag true line = (text, none)) (progress : Progress) :
    readTags progress (encode line) = .ok (progress.extend (encode text)) := by
  obtain rfl : text = line := by
    rcases splitAtTag_cases true line with hwhole | ⟨_, _, -, -, hcut⟩
    · exact (Prod.mk.inj (h.symm.trans hwhole)).1
    · cases h.symm.trans hcut
  have hcut := cutTag_encode_none h
  rw [readTags]
  split
  next fault hfault => simp [hcut] at hfault
  next => rfl
  next cut hsome => simp [hcut] at hsome

/-- A tag that opens closes the one that is open. -/
theorem readTags_cut (h : splitAtTag true line = (before, some rest)) (progress : Progress) :
    readTags progress (encode line)
      = readTags ((progress.extend (encode before)).start (encode (rest.takeWhile isNameChar)))
          (encode (rest.dropWhile isNameChar)) := by
  have hcut := cutTag_encode h
  rw [readTags]
  split
  next fault hfault => simp [hcut] at hfault
  next hnone => simp [hcut] at hnone
  next cut hsome =>
      obtain rfl := Option.some.inj (Except.ok.inj (hcut.symm.trans hsome))
      rfl

/-- An open tag as its bytes. -/
def OpenTag.ofChars (tag : DocComment.OpenTag) : OpenTag := ⟨encode tag.name, tag.lines.map encode⟩

/-- A tag as its bytes. -/
def Tag.ofText (tag : ModPackager.Tag) : Tag := ⟨bytes tag.name, bytes tag.text⟩

theorem OpenTag.close_ofChars (tag : DocComment.OpenTag) : (OpenTag.ofChars tag).close = .ofText tag.close := by
  have htrim : (tag.lines.map encode).map trim = (tag.lines.map Text.trim).map encode := by simp [trim_encode]
  simp only [OpenTag.close, OpenTag.ofChars, DocComment.OpenTag.close, Tag.ofText, bytes_ofList, htrim, join_encode,
    trim_encode]

theorem OpenTag.extend_nextLine (tag : DocComment.OpenTag) (line : List Char) :
    (OpenTag.ofChars tag).nextLine.extend (encode line) = .ofChars (tag.addLine line) := by
  simp [OpenTag.nextLine, OpenTag.extend, OpenTag.ofChars, DocComment.OpenTag.addLine]

theorem OpenTag.extend_start (name line : List Char) :
    (⟨encode name, [[]]⟩ : OpenTag).extend (encode line) = .ofChars (.ofPiece (name, line)) := by
  simp [OpenTag.extend, OpenTag.ofChars, DocComment.OpenTag.ofPiece]

/-- Behind the name of a tag, the rest of a line goes to the tag as far as the next one opens. -/
theorem readTags_tagsFrom {init : List (List Char × List Char)} {last : List Char × List Char}
    (h : tagsFrom rest = init ++ [last]) (tags : List Tag) :
    readTags ⟨some ⟨encode (rest.takeWhile isNameChar), [[]]⟩, tags⟩ (encode (rest.dropWhile isNameChar))
      = .ok ⟨some (.ofChars (.ofPiece last)),
          tags ++ init.map fun piece => .ofText (DocComment.OpenTag.ofPiece piece).close⟩ := by
  -- The induction follows the tags of the line. Each one that opens finishes the one before, so `tags` grows.
  induction rest using tagsFrom.induct generalizing init tags with
  | case1 rest text hcut =>
      rw [tagsFrom_last hcut, ← List.nil_append [_]] at h
      obtain ⟨rfl, hlast⟩ := List.append_inj' h rfl
      rw [readTags_whole hcut, ← List.singleton_inj.1 hlast, ← OpenTag.extend_start]
      simp [Progress.extend]
  | case2 rest text more hcut ih =>
      rw [tagsFrom_more hcut] at h
      cases init with
      | nil => simp [tagsFrom_ne_nil] at h
      | cons piece init =>
          obtain ⟨rfl, hmore⟩ := List.cons.inj h
          rw [readTags_cut hcut, Progress.start, Progress.close, Progress.extend, Option.map_some, OpenTag.extend_start,
            Option.map_some, OpenTag.close_ofChars, ih hmore]
          simp

/-! ### Whole comments -/

theorem dropStar_encode_star (rest : List Char) : dropStar (encode ('*' :: rest)) = encode rest := rfl

/-- Where a star is not the first character, it is not the first byte either. -/
theorem dropStar_encode_of_ne {chars : List Char} (h : ∀ rest, chars ≠ '*' :: rest) :
    dropStar (encode chars) = encode chars := by
  unfold dropStar
  split
  next bytes hbytes =>
      obtain ⟨rest, hchars, -⟩ := exists_of_encode_eq_cons hbytes (by decide)
      exact absurd hchars (h rest)
  · rfl

theorem dropMargin_encode (line : List Char) : dropStar (trimStart (encode line)) = encode (dropMargin line) := by
  rw [trimStart_encode, dropMargin]
  split
  next rest hstar => rw [hstar, dropStar_encode_star]
  next hstar => exact dropStar_encode_of_ne hstar

/-- A line without tags is the next one of the tag that is open. -/
theorem readLine_untagged (h : splitAtTag true (dropMargin line) = (text, none)) (current : Option DocComment.OpenTag)
    (tags : List Tag) : readLine ⟨current.map .ofChars, tags⟩ (encode line)
      = .ok ⟨(current.map (·.addLine text)).map .ofChars, tags⟩ := by
  rw [readLine, dropMargin_encode, readTags_whole h]
  cases current <;> simp [Progress.nextLine, Progress.extend, OpenTag.extend_nextLine]

/-- A line with tags closes the tag that is open and all of its own but the last one. -/
theorem readLine_tagged {init : List (List Char × List Char)} {last : List Char × List Char}
    (h : splitAtTag true (dropMargin line) = (before, some rest)) (htags : tagsFrom rest = init ++ [last])
    (current : Option DocComment.OpenTag) (tags : List Tag) : readLine ⟨current.map .ofChars, tags⟩ (encode line)
      = .ok ⟨some (.ofChars (.ofPiece last)), tags
          ++ (((current.map (·.addLine before)).map DocComment.OpenTag.close).toList
            ++ init.map fun piece => (DocComment.OpenTag.ofPiece piece).close).map .ofText⟩ := by
  rw [readLine, dropMargin_encode, readTags_cut h, Progress.start, readTags_tagsFrom htags]
  cases current <;>
    simp [Progress.nextLine, Progress.extend, Progress.close, OpenTag.extend_nextLine, OpenTag.close_ofChars]

/-- Lines give the same tags whatever is open. -/
theorem foldlM_readLine (lines : List (List Char)) (current : Option DocComment.OpenTag) (tags : List Tag) :
    ((lines.map encode).foldlM readLine ⟨current.map .ofChars, tags⟩).map Progress.close
      = .ok (tags ++ (readLines current lines).map .ofText) := by
  -- A line leaves another tag open and more of them finished, so both vary.
  induction lines generalizing current tags with
  | nil =>
      rw [List.map_nil, List.foldlM_nil, readLines]
      cases current <;> simp [pure, Except.pure, Except.map, Progress.close, OpenTag.close_ofChars]
  | cons line rest ih =>
      rw [List.map_cons, List.foldlM_cons]
      rcases hcut : splitAtTag true (dropMargin line) with ⟨before, _ | behind⟩
      · have hline : cutLine (dropMargin line) = (before, []) := by simp only [cutLine, hcut]
        rw [readLine_untagged hcut, readLines_untagged hline]
        exact ih _ tags
      · obtain ⟨init, last, htags⟩ : ∃ init last, tagsFrom behind = init ++ [last] :=
          ⟨_, _, (List.dropLast_append_getLast (tagsFrom_ne_nil behind)).symm⟩
        have hline : cutLine (dropMargin line) = (before, init ++ [last]) := by simp only [cutLine, hcut, htags]
        rw [readLine_tagged hcut htags, readLines_tagged hline]
        refine (ih (some (.ofPiece last)) _).trans ?_
        simp only [List.map_append, List.append_assoc]

end Line

/-- The tags of a comment are those that are read from the list of its characters. -/
theorem parse_bytes (body : String) : parse (bytes body) = .ok ((DocComment.parse body).map .ofText) := by
  obtain ⟨inner, hinner, hchars⟩ : ∃ inner, dropStar (bytes body) = encode inner
      ∧ DocComment.parse body = readLines none (Text.lines inner) := by
    by_cases hstar : ∃ rest, body.toList = '*' :: rest
    · obtain ⟨rest, hbody⟩ := hstar
      refine ⟨rest, ?_, by rw [DocComment.parse, hbody, parseChars]⟩
      rw [bytes_eq, hbody]
      exact dropStar_encode_star rest
    · have hkept : ∀ rest, body.toList ≠ '*' :: rest := fun rest hbody => hstar ⟨rest, hbody⟩
      exact ⟨body.toList, by rw [bytes_eq]; exact dropStar_encode_of_ne hkept, by rw [DocComment.parse, parseChars]; exact hkept⟩
  have hlines : lines (encode inner) = (Text.lines inner).map encode := linesFrom_encode [] inner
  have hread := foldlM_readLine (Text.lines inner) none []
  rw [parse, hinner, hlines, hchars]
  exact hread

/-! ### Quotes around a text -/

/-- Takes one pair of double quotes off a text, where a quote is written as 34. A lone quote is both of the pair. -/
def stripQuotes (text : List UInt8) : Except SliceFault (List UInt8) :=
  if text.head? == some 34 && text.getLast? == some 34 then
    if 2 ≤ text.length then slice text 1 (text.length - 1) else .ok []
  else .ok text

/-- The quotes that are taken off are those at the ends of the list of characters. -/
theorem stripQuotes_encode (chars : List Char) :
    stripQuotes (encode chars) = .ok (encode (PatchDescriptor.stripQuotes chars)) := by
  have hquote : ('"').toNat < 128 := by decide
  have hends : ((encode chars).head? == some 34 && (encode chars).getLast? == some 34)
      = (chars.head? == some '"' && chars.getLast? == some '"') := by
    rw [Bool.eq_iff_iff]
    simp only [Bool.and_eq_true, beq_iff_eq]
    exact and_congr (head?_encode_iff hquote) (getLast?_encode_iff hquote)
  rw [stripQuotes, hends, PatchDescriptor.stripQuotes]
  by_cases hquotes : (chars.head? == some '"' && chars.getLast? == some '"') = true
  · rw [if_pos hquotes, if_pos hquotes]
    obtain ⟨hhead, hlast⟩ : chars.head? = some '"' ∧ chars.getLast? = some '"' := by simpa using hquotes
    obtain ⟨tail, rfl⟩ := List.head?_eq_some_iff.1 hhead
    rcases List.eq_nil_or_concat' tail with rfl | ⟨inner, last, rfl⟩
    · rfl
    · rw [← List.cons_append, List.getLast?_concat] at hlast
      obtain rfl := Option.some.inj hlast
      have hone : (encode ['"']).length = 1 := rfl
      have hpair : '"' :: (inner ++ ['"']) = ['"'] ++ inner ++ ['"'] := by simp
      have hinner : ('"' :: (inner ++ ['"'])).tail.dropLast = inner := by simp
      have hlength : (encode (['"'] ++ inner ++ ['"'])).length = (encode (['"'] ++ inner)).length + 1 := by
        rw [encode_append _ ['"'], List.length_append, hone]
      have htwo : 2 ≤ (encode (['"'] ++ inner ++ ['"'])).length := by
        rw [hlength, encode_append, List.length_append, hone]
        omega
      have hslice := slice_encode ['"'] inner ['"']
      rw [hone] at hslice
      rw [hinner, hpair, if_pos htwo, hlength, Nat.add_sub_cancel, hslice]
  · rw [if_neg hquotes, if_neg hquotes]

/-! ### No slice fails -/

/-- No cut of a comment or of quotes fails, where a cut is there only between two places of a text (the last part). A
comment gives the tags that the list of its characters gives, whose texts lose the same quotes, and the tags of a line have
an end since each leaves less of it. -/
theorem parse_withoutFaults (body text : String) :
    parse (bytes body) = .ok ((DocComment.parse body).map .ofText)
      ∧ stripQuotes (bytes text) = .ok (bytes (String.ofList (PatchDescriptor.stripQuotes text.toList)))
      ∧ (∀ line cut, cutTag line = .ok (some cut) → cut.rest.length < line.length)
      ∧ ∀ (chars : List Char) start stop part, slice (encode chars) start stop = .ok part
          ↔ ∃ front middle back, chars = front ++ middle ++ back ∧ start = (encode front).length
            ∧ stop = (encode (front ++ middle)).length ∧ part = encode middle := by
  refine ⟨parse_bytes body, ?_, fun _ _ hcut => length_cutTag hcut, fun _ _ _ _ => slice_eq_ok_iff⟩
  rw [bytes_eq text, bytes_ofList]
  exact stripQuotes_encode text.toList

/-- A tag between letters of two bytes. -/
theorem parse_withoutFaults_accented : ∃ line cut, cutTag line = .ok (some cut)
    ∧ cut = ⟨encode ['é', ' '], encode ['n'], encode [' ', 'é']⟩ ∧ cut.rest.length < line.length := by
  have hsplit : splitAtTag true ['é', ' ', '@', 'n', ' ', 'é'] = (['é', ' '], some ['n', ' ', 'é']) := by
    decide +kernel
  have hcut := cutTag_encode hsplit
  have hname : ['n', ' ', 'é'].takeWhile isNameChar = ['n'] := by decide +kernel
  have hrest : ['n', ' ', 'é'].dropWhile isNameChar = [' ', 'é'] := by decide +kernel
  rw [hname, hrest] at hcut
  exact ⟨_, _, hcut, rfl, (parse_withoutFaults "" "").2.2.1 _ _ hcut⟩

end DocComment.Encoded

end ModPackager
