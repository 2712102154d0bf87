import Mathlib.Data.List.DropRight
import ModPackager.Proofs.Glob.Cut
import ModPackager.Scan.Project

/-!
# The sources of a project

The sources of a project are the files whose paths fit the include pattern below the project directory (`Selects`), in
the order of their paths (`collectSources_lists`). A source whose path fits in several ways is listed several times
(`collectSources_repeats`); a definite pattern lists each one once.
-/

namespace ModPackager

namespace Scan

open FileSystem Glob Glob.Search

variable {fs : FileSystem} {projectDir path : Path} {sources : String} {text : List Char} {patterns : List Pattern}

/-! ### The pattern of a project -/

/-- The text of a project directory without slashes at its end. -/
def dirText (projectDir : Path) : List Char := projectDir.text.toList.rdropWhile (· == '/')

/-- What is expanded below a text: the pieces behind a slash at its beginning, or all of them. -/
def piecesBelow : List Char → List (List Char)
  | [] => []
  | c :: text => Path.pieces (if c = '/' then text else c :: text)

/-- Where the expansion below a text starts. -/
def startBelow (text : List Char) : Path := ⟨if text.head?.all (· == '/') then "/" else "."⟩

theorem rdropWhile_escape (text : List Char) :
    (escape text).rdropWhile (· == '/') = escape (text.rdropWhile (· == '/')) := by
  induction text using List.reverseRecOn with
  | nil => rfl
  | append_singleton text c ih =>
      have happend : escape (text ++ [c]) = escape text ++ escape [c] := List.flatMap_append
      cases hspecial : isSpecial c with
      | true =>
          have hc : c ≠ '/' := by rintro rfl; revert hspecial; decide
          rw [happend, escape_special hspecial, List.rdropWhile_concat_neg _ _ _ (by simpa using hc), happend,
            escape_special hspecial]
          have hclose : escape text ++ '[' :: c :: ']' :: escape [] = (escape text ++ ['[', c]) ++ [']'] := by
            simp [escape]
          rw [hclose]
          exact List.rdropWhile_concat_neg (· == '/') _ ']' (by decide)
      | false =>
          rw [happend, escape_plain hspecial]
          by_cases hc : c = '/'
          · rw [List.rdropWhile_concat_pos _ _ _ (by simpa using hc), ← ih]
            exact List.rdropWhile_concat_pos _ _ _ (by simpa using hc)
          · rw [List.rdropWhile_concat_neg _ _ _ (by simpa using hc), happend, escape_plain hspecial]
            exact List.rdropWhile_concat_neg _ _ _ (by simpa using hc)

theorem sourcePattern_eq (projectDir : Path) (sources : String) :
    sourcePattern projectDir sources = escape (dirText projectDir) ++ '/' :: sources.toList := by
  rw [dirText, ← rdropWhile_escape]
  rfl

/-- An include pattern that can be expanded: it can be read as a whole, and so can its components. -/
def Accepted (sources : String) : Prop :=
  (∃ tokens, Pattern.parse sources.toList = .ok tokens)
    ∧ ∃ patterns, (componentTexts sources.toList).mapM Pattern.parse = .ok patterns

/-- Whether a pattern ends in a name. Behind a slash at the end stand directories only. -/
def endsInName (sources : String) : Bool := sources.toList.getLast?.any (· != '/')

theorem componentTexts_below (front : List (List Char)) (text : List Char)
    (h : Path.pieces text = front ++ Path.pieces sources.toList) :
    componentTexts text = front ++ componentTexts sources.toList := by
  have hne := Path.pieces_ne_nil sources.toList
  simp only [componentTexts, h, List.getLast?_append_of_ne_nil _ hne]
  split
  · rw [List.dropLast_append_of_ne_nil hne]
  · rfl

theorem head?_below (text : List Char) (sources : String) :
    ((escape text ++ '/' :: sources.toList).head? == some '/') = text.head?.all (· == '/') := by
  cases text with
  | nil => rfl
  | cons c text =>
      cases hspecial : isSpecial c with
      | true =>
          have hc : c ≠ '/' := by rintro rfl; revert hspecial; decide
          rw [escape_special hspecial]
          simp [hc]
      | false =>
          rw [escape_plain hspecial]
          rfl

/-- The pieces of the pattern of a project, behind a slash at its beginning. -/
theorem pieces_below (text : List Char) (sources : String) :
    Path.pieces (if text.head?.all (· == '/') then (escape text ++ '/' :: sources.toList).tail
      else escape text ++ '/' :: sources.toList) = (piecesBelow text).map escape ++ Path.pieces sources.toList := by
  cases text with
  | nil => rfl
  | cons c text =>
      by_cases hc : c = '/'
      · subst hc
        rw [escape_plain (by decide), if_pos (by simp), List.cons_append, List.tail_cons, Path.pieces_append_slash,
          pieces_escape]
        rfl
      · rw [if_neg (by simpa using hc), Path.pieces_append_slash, pieces_escape, piecesBelow, if_neg hc]

theorem mapM_parse_escape (texts others : List (List Char)) : (texts.map escape ++ others).mapM Pattern.parse
    = (texts.map exactly ++ ·) <$> others.mapM Pattern.parse := by
  induction texts with
  | nil => cases hothers : others.mapM Pattern.parse <;> simp [hothers]
  | cons text texts ih =>
      rw [List.map_cons, List.cons_append, List.mapM_cons, parse_escape, ih]
      cases others.mapM Pattern.parse <;> rfl

/-- The components of the pattern of a project are the names of the directory, and those of the include pattern. -/
theorem components_sourcePattern (haccepted : ∃ tokens, Pattern.parse sources.toList = .ok tokens)
    (hpatterns : (componentTexts sources.toList).mapM Pattern.parse = .ok patterns) :
    components (sourcePattern projectDir sources) = .ok (if sourcePattern projectDir sources = ['/'] then [[]]
      else (piecesBelow (dirText projectDir)).map exactly ++ patterns) := by
  obtain ⟨more, hmore⟩ := (parse_below_iff (dirText projectDir)).2 haccepted
  have hcomponents := mapM_parse_escape (piecesBelow (dirText projectDir)) (componentTexts sources.toList)
  rw [← componentTexts_below _ _ (pieces_below (dirText projectDir) sources), hpatterns] at hcomponents
  unfold components
  simp only [sourcePattern_eq, head?_below, hmore, hcomponents]
  rfl

theorem startOf_sourcePattern : startOf (sourcePattern projectDir sources) = startBelow (dirText projectDir) := by
  rw [startOf, startBelow, sourcePattern_eq, head?_below]

theorem getLast?_sourcePattern :
    ((sourcePattern projectDir sources).getLast? == some '/') = !endsInName sources := by
  rw [sourcePattern_eq, List.getLast?_append_of_ne_nil _ (List.cons_ne_nil _ _), List.getLast?_cons, endsInName]
  cases sources.toList.getLast? with
  | none => rfl
  | some c => by_cases hc : c = '/' <;> simp [hc, bne]

/-! ### The paths of sources -/

/-- A path goes through the names of a project directory, and what it goes on with fits the include pattern. -/
def Selects (projectDir : Path) (sources : String) (path : Path) : Prop :=
  endsInName sources = true ∧ ∃ patterns, (componentTexts sources.toList).mapM Pattern.parse = .ok patterns
    ∧ Fits ((piecesBelow (dirText projectDir)).map (·.map Token.char) ++ patterns) (startBelow (dirText projectDir)) path

/-- The include pattern can fit a path in one way only. -/
def DefiniteSources (sources : String) : Prop :=
  ∀ patterns, (componentTexts sources.toList).mapM Pattern.parse = .ok patterns → Definite patterns

/-- The path of names from the root. -/
def rooted (names : List String) : Path := names.foldl Path.child ⟨"/"⟩

theorem rooted_concat (names : List String) (name : String) : rooted (names ++ [name]) = (rooted names).child name := by
  rw [rooted, List.foldl_append]
  rfl

theorem endsInSlash_rooted {names : List String} (hvalid : ∀ name ∈ names, ValidName name) (hne : names ≠ []) :
    endsInSlash (rooted names).text = false := by
  rcases List.eq_nil_or_concat names with rfl | ⟨front, last, rfl⟩
  · exact absurd rfl hne
  · rw [List.concat_eq_append] at hvalid ⊢
    have hlast := hvalid last (by simp)
    rw [rooted_concat]
    exact endsInSlash_child hlast.1 hlast.2.2.2.1

/-- The text of a path of names is a slash and what is cut into the names. -/
theorem text_rooted {names : List String} (hvalid : ∀ name ∈ names, ValidName name) (hne : names ≠ []) :
    ∃ rest, (rooted names).text.toList = '/' :: rest ∧ Path.pieces rest = names.map String.toList := by
  induction names using List.reverseRecOn with
  | nil => exact absurd rfl hne
  | append_singleton names name ih =>
      simp only [List.forall_mem_append, List.forall_mem_singleton] at hvalid
      obtain ⟨hnames, hname⟩ := hvalid
      have hslash := hname.2.2.2.1
      rw [rooted_concat]
      by_cases hnil : names = []
      · subst hnil
        refine ⟨name.toList, ?_, ?_⟩
        · simp [rooted, Path.child, Path.join, Path.isAbsolute_name hslash]
        · rw [Path.pieces_of_not_mem hslash]
          rfl
      · obtain ⟨rest, htext, hpieces⟩ := ih hnames hnil
        have hends := endsInSlash_rooted hnames hnil
        have hempty : (rooted names).text ≠ "" := by
          intro hempty
          simp [hempty] at htext
        have hchild : ((rooted names).child name).text = (rooted names).text ++ "/" ++ name := by
          rw [endsInSlash] at hends
          simp only [Path.child, Path.join, Path.isAbsolute_name hslash, hends, Bool.false_or, String.isEmpty_iff, hempty,
            Bool.false_eq_true, if_false]
        refine ⟨rest ++ '/' :: name.toList, ?_, ?_⟩
        · simp [hchild, htext]
        · rw [Path.pieces_append_slash, hpieces, Path.pieces_of_not_mem hslash, List.map_append]
          rfl

/-- Behind names that are matched as they are written a path fits from where they lead. -/
theorem fits_names {names : List String} (hvalid : ∀ name ∈ names, ValidName name) {dir : Path} (hdir : dir.text ≠ "")
    (hdot : dir.text ≠ ".") : Fits ((names.map String.toList).map (·.map Token.char) ++ patterns) dir path
      ↔ Fits patterns (names.foldl Path.child dir) path := by
  induction names generalizing dir with
  | nil => rfl
  | cons name names ih =>
      rw [List.forall_mem_cons] at hvalid
      obtain ⟨hname, hnames⟩ := hvalid
      have hliteral : Pattern.literal? (name.toList.map Token.char) = some name := literal?_eq_some_iff.2 rfl
      have hnext := text_below_ne dir hname.1 hname.2.2.2.1
      have hnextDot := text_below_ne_dot hdir hname
      rw [List.map_cons, List.map_cons, List.cons_append, fits_literal hliteral, List.foldl_cons, ← below_of_ne hdot,
        ih hnames hnext hnextDot]
      exact and_iff_right hnext

/-- Below a directory that is a path of names, the paths are selected that fit the include pattern from there. -/
theorem selects_rooted {names : List String} (hvalid : ∀ name ∈ names, ValidName name) :
    Selects (rooted names) sources path ↔ endsInName sources = true
      ∧ ∃ patterns, (componentTexts sources.toList).mapM Pattern.parse = .ok patterns
        ∧ Fits patterns (rooted names) path := by
  have hbelow : piecesBelow (dirText (rooted names)) = names.map String.toList
      ∧ startBelow (dirText (rooted names)) = ⟨"/"⟩ := by
    by_cases hnil : names = []
    · subst hnil
      decide
    · obtain ⟨rest, htext, hpieces⟩ := text_rooted hvalid hnil
      have hends := endsInSlash_rooted hvalid hnil
      have hdir : dirText (rooted names) = '/' :: rest := by
        rw [dirText, ← htext, List.rdropWhile_eq_self_iff]
        intro hne
        rw [endsInSlash, List.getLast?_eq_some_getLast hne] at hends
        simpa using hends
      rw [hdir]
      exact ⟨hpieces, rfl⟩
  rw [Selects, hbelow.1, hbelow.2]
  refine and_congr_right fun _ => exists_congr fun patterns => and_congr_right fun _ => ?_
  exact fits_names hvalid (by decide) (by decide)

theorem text_startBelow_ne (text : List Char) : (startBelow text).text ≠ "" := by
  unfold startBelow
  split <;> decide

theorem slash_not_mem_piecesBelow (text : List Char) : ∀ piece ∈ piecesBelow text, '/' ∉ piece := by
  cases text with
  | nil => simp [piecesBelow]
  | cons c text => exact fun piece hpiece => Path.not_mem_of_mem_pieces hpiece

theorem cut_componentTexts (hpatterns : (componentTexts sources.toList).mapM Pattern.parse = .ok patterns) :
    Cut patterns := by
  refine cut_of_parse (fun piece hpiece => ?_) hpatterns
  simp only [componentTexts] at hpiece
  split at hpiece
  · exact Path.not_mem_of_mem_pieces (List.mem_of_mem_dropLast hpiece)
  · exact Path.not_mem_of_mem_pieces hpiece

theorem componentTexts_ne_nil (h : text ≠ []) : componentTexts text ≠ [] := by
  obtain ⟨c, rest, rfl⟩ := List.exists_cons_of_ne_nil h
  have hpieces : Path.pieces (c :: rest) ≠ [[]] ∧ Path.pieces (c :: rest) ≠ [] := by
    refine ⟨fun hone => ?_, Path.pieces_ne_nil _⟩
    by_cases hc : c = '/'
    · subst hc
      rw [Path.pieces_slash] at hone
      exact Path.pieces_ne_nil rest (List.cons.inj hone).2
    · obtain ⟨piece, more, -, hcut⟩ := Path.pieces_cons_of_ne hc rest
      rw [hcut] at hone
      cases (List.cons.inj hone).1
  obtain ⟨hone, hne⟩ := hpieces
  simp only [componentTexts]
  split
  · intro hnil
    rcases List.eq_nil_or_concat (Path.pieces (c :: rest)) with heq | ⟨front, last, heq⟩
    · exact hne heq
    · rw [List.concat_eq_append] at heq
      rw [heq, List.dropLast_concat] at hnil
      subst hnil
      simp_all
  · exact hne

theorem ne_nil_of_endsInName (hname : endsInName sources = true)
    (hpatterns : (componentTexts sources.toList).mapM Pattern.parse = .ok patterns) : patterns ≠ [] := by
  rintro rfl
  have htext : sources.toList ≠ [] := by
    intro hnil
    simp [endsInName, hnil] at hname
  obtain ⟨first, rest, htexts⟩ := List.exists_cons_of_ne_nil (componentTexts_ne_nil htext)
  rw [htexts, List.mapM_cons] at hpatterns
  cases hfirst : Pattern.parse first with
  | error fault => simp [hfirst, bind, Except.bind] at hpatterns
  | ok pattern => cases hrest : rest.mapM Pattern.parse <;> simp [hfirst, hrest, bind, Except.bind, pure, Except.pure] at hpatterns

/-- The components of the pattern of a project. -/
def projectPatterns (projectDir : Path) (patterns : List Pattern) : List Pattern :=
  (piecesBelow (dirText projectDir)).map exactly ++ patterns

/-- The expansion of a project pattern finds the files whose paths the include pattern selects. -/
theorem mem_expand_iff {search : Search} (wf : search.fs.WellFormed) (honly : search.onlyDirectories = false)
    (hpatterns : (componentTexts sources.toList).mapM Pattern.parse = .ok patterns) (hname : endsInName sources = true)
    (hfile : search.fs.holdsFile path = true) :
    path ∈ search.expand (stepLimit (projectPatterns projectDir patterns).length) (projectPatterns projectDir patterns)
      (startBelow (dirText projectDir)) ↔ Selects projectDir sources path := by
  have hstart := text_startBelow_ne (dirText projectDir)
  have hcut := cut_componentTexts hpatterns
  have hslash := slash_not_mem_piecesBelow (dirText projectDir)
  obtain ⟨place, contents, hresolve⟩ := holdsFile_iff.1 hfile
  have hresolves : Resolves search.fs path := ⟨place, _, hresolve⟩
  have hexactly := fits_map_exactly wf hcut hslash hstart hresolves
  constructor
  · intro hmem
    have hfits := (fits_of_mem wf hfile _).1 _ _ hstart hmem
    exact ⟨hname, patterns, hpatterns, hexactly.1 hfits⟩
  · rintro ⟨-, others, hothers, hfits⟩
    obtain rfl : patterns = others := Except.ok.inj (hpatterns.symm.trans hothers)
    obtain ⟨pattern, rest, hcons⟩ : ∃ pattern rest, projectPatterns projectDir patterns = pattern :: rest :=
      List.exists_cons_of_ne_nil (List.append_ne_nil_of_right_ne_nil _ (ne_nil_of_endsInName hname hpatterns))
    have hroom : room path < tooLong := by
      have hsize := (resolve_eq_ok_iff.1 hresolve).1.2.2
      unfold room
      split
      · decide
      · exact hsize
    have hfuel : 2 * (projectPatterns projectDir patterns).length
        + 2 * (room path - room (startBelow (dirText projectDir)))
          ≤ stepLimit (projectPatterns projectDir patterns).length + 1 := by
      rw [stepLimit]
      omega
    have hfound := (hexactly.2 hfits).mem_arrive honly (cut_exactly hslash hcut) hstart hresolves hfuel
    rw [← projectPatterns, hcons, arrive_cons, ← hcons] at hfound
    exact hfound

/-- What is collected is what the expansion of the project pattern finds, as far as it is files. -/
theorem collectSources_eq (fs : FileSystem) (projectDir : Path) (haccepted : ∃ tokens, Pattern.parse sources.toList = .ok tokens)
    (hpatterns : (componentTexts sources.toList).mapM Pattern.parse = .ok patterns) :
    ∃ (search : Search) (left : List Pattern), search.fs = fs ∧ search.onlyDirectories = !endsInName sources
      ∧ (endsInName sources = true → left = projectPatterns projectDir patterns)
      ∧ collectSources fs projectDir sources = .ok
        (((search.expand (stepLimit left.length) left (startBelow (dirText projectDir))).filter
          fs.holdsFile).mergeSort fun a b => !b.before a) := by
  have hlast : ((sourcePattern projectDir sources).getLast? == some '/') = !endsInName sources := getLast?_sourcePattern
  refine ⟨⟨fs, !endsInName sources⟩,
    if sourcePattern projectDir sources = ['/'] then [[]] else projectPatterns projectDir patterns, rfl, rfl,
    fun hname => if_neg fun hslash => ?_, ?_⟩
  · rw [hslash, hname] at hlast
    cases hlast
  · rw [collectSources, paths_eq, components_sourcePattern haccepted hpatterns, startOf_sourcePattern, hlast]
    rfl

/-- Files that a definite pattern finds lead through different components. -/
theorem pairwise_components (wf : fs.WellFormed) {found : List Path} (h : found.Pairwise (Differ fs)) :
    (found.filter fs.holdsFile).Pairwise fun a b => a.components ≠ b.components := by
  refine (h.filter _).imp_of_mem fun {a b} ha hb hdiffer => ?_
  have hfileA := (List.mem_filter.1 ha).2
  have hfileB := (List.mem_filter.1 hb).2
  have hne := hdiffer hfileA hfileB
  rwa [onward_of_ne (text_ne_dot_of_holdsFile wf hfileA), onward_of_ne (text_ne_dot_of_holdsFile wf hfileB)] at hne

/-- The sources of a project are the files that the include pattern selects, in order, and each of them is listed and
scanned once if the pattern is definite. -/
theorem collectSources_lists {settings : Settings} (wf : fs.WellFormed) (haccepted : Accepted settings.sources) :
    ∃ found, collectSources fs settings.projectDir settings.sources = .ok found
      ∧ scanProject fs settings = .ok ⟨found.map (scanFile fs settings.projectDir)⟩
      ∧ (∀ path, path ∈ found ↔ Selects settings.projectDir settings.sources path ∧ fs.holdsFile path = true)
      ∧ found.Pairwise (fun a b => b.before a = false)
      ∧ (DefiniteSources settings.sources → found.Pairwise fun a b => a.before b = true) := by
  obtain ⟨htokens, patterns, hpatterns⟩ := haccepted
  obtain ⟨search, left, rfl, honly, hleft, hcollect⟩ := collectSources_eq fs settings.projectDir htokens hpatterns
  refine ⟨_, hcollect, by rw [scanProject, hcollect], fun path => ?_, Path.pairwise_mergeSort _, fun hdefinite => ?_⟩
  · rw [List.mem_mergeSort, List.mem_filter]
    refine and_congr_left fun hfile => ?_
    cases hname : endsInName settings.sources with
    | false =>
        rw [hname] at honly
        refine iff_of_false (fun hmem => ?_) fun hselects => ?_
        · have hdirectory := (holdsDirectory_of_mem honly _).1 _ _ hmem
          rw [not_holdsDirectory_of_holdsFile hfile] at hdirectory
          cases hdirectory
        · rw [hselects.1] at hname
          cases hname
    | true =>
        rw [hname] at honly
        rw [hleft hname]
        exact mem_expand_iff wf honly hpatterns hname hfile
  · refine Path.pairwise_before_of_sorted (Path.pairwise_mergeSort _) ?_
    refine (List.Perm.pairwise_iff (fun h => Ne.symm h) (List.mergeSort_perm _ _)).2 (pairwise_components wf ?_)
    cases hname : endsInName settings.sources with
    | false =>
        rw [hname] at honly
        exact List.pairwise_of_forall_mem_list fun a ha b _ =>
          differ_of_directory ((holdsDirectory_of_mem honly _).1 _ _ ha)
    | true =>
        have hcut := cut_exactly (slash_not_mem_piecesBelow (dirText settings.projectDir)) (cut_componentTexts hpatterns)
        have honce := definite_exactly (piecesBelow (dirText settings.projectDir)) (hdefinite patterns hpatterns)
          (ne_nil_of_endsInName hname hpatterns)
        rw [hleft hname]
        exact (pairwise_differ wf _).1 _ _ honce hcut (text_startBelow_ne _)

/-- A project with a source two directories deep. -/
def nestedProject : FileSystem :=
  .ofEntries ⟨"/w"⟩ [(["w"], .directory), (["w", "a"], .directory), (["w", "a", "a"], .directory),
    (["w", "a", "a", "x.ts"], .file "/** @lovelyType p */\nfunction f() \x7b\x7d\n".toUTF8)]

/-- Settings with an include pattern. -/
def includeSettings (sources : String) : Settings := { Settings.ofSources ⟨"."⟩ {} none {} with sources }

theorem collectSources_lists_nestedProject :
    nestedProject.WellFormed ∧ Accepted "**/a/*.ts" ∧ DefiniteSources "**/a/*.ts"
      ∧ ∃ found, collectSources nestedProject ⟨"."⟩ "**/a/*.ts" = .ok found ∧ ⟨"a/a/x.ts"⟩ ∈ found
        ∧ Selects ⟨"."⟩ "**/a/*.ts" ⟨"a/a/x.ts"⟩ ∧ found.Pairwise fun a b => a.before b = true := by
  have wf : nestedProject.WellFormed := by decide +kernel
  have haccepted : Accepted (includeSettings "**/a/*.ts").sources := ⟨⟨_, rfl⟩, _, rfl⟩
  have hdefinite : DefiniteSources "**/a/*.ts" := by
    intro patterns hpatterns
    obtain rfl := Except.ok.inj (hpatterns.symm.trans rfl)
    exact ⟨by decide +kernel, by decide +kernel⟩
  have hlisted : collectSources nestedProject ⟨"."⟩ "**/a/*.ts" = .ok [⟨"a/a/x.ts"⟩] := by decide +kernel
  obtain ⟨found, hfound, -, hmem, -, hordered⟩ := collectSources_lists wf haccepted
  have hsource : (⟨"a/a/x.ts"⟩ : Path) ∈ found := by
    rw [Except.ok.inj (hfound.symm.trans hlisted)]
    exact List.mem_singleton.2 rfl
  exact ⟨wf, haccepted, hdefinite, found, hfound, hsource, ((hmem _).1 hsource).1, hordered hdefinite⟩

/-- A source is listed as often as its path fits, and so are its annotations. -/
theorem collectSources_repeats :
    nestedProject.WellFormed ∧ Accepted "**/a/**/*.ts"
      ∧ collectSources nestedProject ⟨"."⟩ "**/a/**/*.ts" = .ok [⟨"a/a/x.ts"⟩, ⟨"a/a/x.ts"⟩]
      ∧ ∃ result, scanProject nestedProject (includeSettings "**/a/**/*.ts") = .ok result ∧ result.filesScanned = 2
        ∧ result.descriptors.map (fun descriptor => (descriptor.type, descriptor.line)) = [("p", 2), ("p", 2)] := by
  have hpaths : Glob.paths nestedProject (sourcePattern ⟨"."⟩ "**/a/**/*.ts") = .ok [⟨"a/a/x.ts"⟩, ⟨"a/a/x.ts"⟩] := by
    decide +kernel
  have hfiles : [⟨"a/a/x.ts"⟩, ⟨"a/a/x.ts"⟩].filter nestedProject.holdsFile = [⟨"a/a/x.ts"⟩, ⟨"a/a/x.ts"⟩] := by
    decide +kernel
  have hfound : collectSources nestedProject ⟨"."⟩ "**/a/**/*.ts" = .ok [⟨"a/a/x.ts"⟩, ⟨"a/a/x.ts"⟩] := by
    rw [collectSources, hpaths]
    simp only [bind, Except.bind, hfiles]
    rw [List.mergeSort_of_pairwise (by decide +kernel)]
    rfl
  refine ⟨by decide +kernel, ⟨⟨_, rfl⟩, _, rfl⟩, hfound, ?_⟩
  have hscan : scanProject nestedProject (includeSettings "**/a/**/*.ts")
      = .ok ⟨[⟨"a/a/x.ts"⟩, ⟨"a/a/x.ts"⟩].map (scanFile nestedProject ⟨"."⟩)⟩ := by
    simp only [scanProject, includeSettings, Settings.ofSources, hfound]
  exact ⟨_, hscan, by decide +kernel, by decide +kernel⟩

end Scan

end ModPackager
