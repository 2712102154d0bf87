import ModPackager.Proofs.Glob.Moved
import ModPackager.Proofs.Scan.Project
import ModPackager.Proofs.Scan.Sources

/-!
# A project in another place

The pattern of a project is the escaped text of its directory and the include pattern behind it. The names of the
directory lead an expansion to it and to nothing else (`expand_project`), whatever is special about them, and from there
on the same is found wherever the project lies (`filesInOrder_moved`). So a project can be moved without changing its
scan (`scanProject_moves`), but not if the include pattern looks beside it, nor if the system no longer follows a path
that it followed in the old place (`collectSources_differs`).
-/

namespace ModPackager.Scan

open FileSystem Glob Glob.Search

variable {fs fs' : FileSystem} {dir dir' : Location} {projectDir : Path} {sources : String} {patterns : List Pattern}
  {settings settings' : Settings}

/-! ### The path that a pattern spells -/

/-- The path of a project directory as its pattern spells it, without repeated slashes and none at the end. -/
def spelled (projectDir : Path) : Path :=
  (⟨"/"⟩ : Path).descend ((piecesBelow (dirText projectDir)).map String.ofList)

theorem pieces_replicate (text : List Char) (count : Nat) :
    Path.pieces (text ++ List.replicate count '/') = Path.pieces text ++ List.replicate count [] := by
  induction count with
  | zero => simp
  | succ count ih =>
      rw [List.replicate_succ', ← List.append_assoc, Path.pieces_append_slash, ih, Path.pieces_nil, List.append_assoc,
        ← List.replicate_succ']

theorem text_eq_dirText (projectDir : Path) :
    ∃ count, projectDir.text.toList = dirText projectDir ++ List.replicate count '/' := by
  have hslashes : ∀ c ∈ projectDir.text.toList.rtakeWhile (· == '/'), c = '/' :=
    fun c hc => by simpa using List.mem_rtakeWhile_imp hc
  refine ⟨(projectDir.text.toList.rtakeWhile (· == '/')).length, ?_⟩
  rw [← List.eq_replicate_of_mem hslashes, dirText, List.rdropWhile_append_rtakeWhile]

theorem pieces_of_isAbsolute (h : projectDir.isAbsolute = true) : ∃ count,
    Path.pieces projectDir.text.toList = [] :: (piecesBelow (dirText projectDir) ++ List.replicate count []) := by
  obtain ⟨count, htext⟩ := text_eq_dirText projectDir
  have hhead : projectDir.text.toList.head? = some '/' := by simpa [Path.isAbsolute] using h
  rw [htext] at hhead ⊢
  cases hdir : dirText projectDir with
  | nil => exact ⟨count, by rw [pieces_replicate]; rfl⟩
  | cons c text =>
      obtain rfl : c = '/' := by simpa [hdir] using hhead
      exact ⟨count, by rw [pieces_replicate, Path.pieces_slash]; rfl⟩

theorem slashless_spelled (projectDir : Path) :
    ∀ name ∈ (piecesBelow (dirText projectDir)).map String.ofList, '/' ∉ name.toList := by
  simpa using slash_not_mem_piecesBelow (dirText projectDir)

theorem isAbsolute_spelled (projectDir : Path) : (spelled projectDir).isAbsolute = true := by
  rw [spelled, Path.isAbsolute_descend (by decide) (slashless_spelled projectDir)]
  rfl

theorem components_spelled (h : projectDir.isAbsolute = true) : (spelled projectDir).components = projectDir.components := by
  obtain ⟨count, hpieces⟩ := pieces_of_isAbsolute h
  rw [spelled, Path.components_descend (by decide) (slashless_spelled projectDir), Path.components_eq hpieces, h]
  have hroot : (⟨"/"⟩ : Path).components = [.root] := by decide
  have hnone : Path.component? [] = none := rfl
  simp [hroot, Path.firstComponent?, List.filterMap_map, hnone]

theorem namesTo_spelled (fs : FileSystem) (h : projectDir.isAbsolute = true) :
    fs.namesTo (spelled projectDir) = fs.namesTo projectDir := by
  obtain ⟨count, hpieces⟩ := pieces_of_isAbsolute h
  rw [spelled, namesTo_descend_filter (by decide) (slashless_spelled projectDir), namesTo_of_isAbsolute fs h,
    namesTo_of_isAbsolute fs (by decide), namesOf_eq, namesOf_eq, hpieces]
  have hempty : ∀ piece : List Char, (!decide (piece = [])) = !piece.isEmpty := fun piece => by cases piece <;> rfl
  simp [nonEmpty, List.filter_map, Function.comp_def, hempty]

theorem followable_spelled (h : projectDir.isAbsolute = true) (hfollow : Followable projectDir) :
    Followable (spelled projectDir) := by
  refine hfollow.of_sublist ?_ (Path.descend_text_ne (by decide) (slashless_spelled projectDir))
  have htext : (dirText projectDir).Sublist projectDir.text.toList := (List.rdropWhile_prefix _ _).sublist
  cases hdir : dirText projectDir with
  | nil =>
      have hmem : '/' ∈ projectDir.text.toList := List.mem_of_head? (by simpa [Path.isAbsolute] using h)
      rw [spelled, hdir]
      exact List.singleton_sublist.2 hmem
  | cons c text =>
      have hc : c = '/' := by
        obtain ⟨count, hcount⟩ := text_eq_dirText projectDir
        rw [Path.isAbsolute, hcount, hdir] at h
        simpa using h
      subst hc
      rw [hdir] at htext
      refine List.Sublist.trans ?_ htext
      rw [spelled, hdir]
      exact Path.sublist_descend_pieces (by decide) text

/-- The path that the pattern spells leads where the given one does. -/
theorem resolve_spelled (h : projectDir.isAbsolute = true) (hdir : fs.resolve true projectDir = .ok (.found dir .directory)) :
    fs.resolve true (spelled projectDir) = .ok (.found dir .directory) := by
  obtain ⟨hfollow, hleads⟩ := resolve_eq_ok_iff.1 hdir
  refine resolve_eq_ok_iff.2 ⟨followable_spelled h hfollow, ?_⟩
  rw [namesTo_spelled fs h]
  exact hleads.of_slash

/-! ### One project -/

/-- The expansion of the pattern of a project goes on from the project directory. -/
theorem expand_project (wf : fs.WellFormed) (h : projectDir.isAbsolute = true)
    (hdir : fs.resolve true projectDir = .ok (.found dir .directory))
    (hpatterns : (componentTexts sources.toList).mapM Pattern.parse = .ok patterns) (hname : endsInName sources = true)
    {fuel : Nat} (hfuel : stepLimit (projectPatterns projectDir patterns).length ≤ fuel) :
    (⟨fs, false⟩ : Search).expand (stepLimit (projectPatterns projectDir patterns).length)
      (projectPatterns projectDir patterns) (startBelow (dirText projectDir))
      = (⟨fs, false⟩ : Search).expand fuel patterns (spelled projectDir) := by
  have hcut := cut_componentTexts hpatterns
  have hne := ne_nil_of_endsInName hname hpatterns
  have hthere : fs.holdsDirectory (spelled projectDir) = true := holdsDirectory_iff.2 ⟨dir, resolve_spelled h hdir⟩
  have hstart : startBelow (dirText projectDir) = ⟨"/"⟩ := by
    obtain ⟨count, htext⟩ := text_eq_dirText projectDir
    rw [Path.isAbsolute, htext] at h
    cases hdirText : dirText projectDir with
    | nil => rfl
    | cons c text =>
        obtain rfl : c = '/' := by simpa [hdirText] using h
        rfl
  have hnames : (piecesBelow (dirText projectDir)).map exactly
      = ((piecesBelow (dirText projectDir)).map String.ofList).map fun name => exactly name.toList := by
    simp
  have hroot : need (projectPatterns projectDir patterns) ⟨"/"⟩ ≤ stepLimit (projectPatterns projectDir patterns).length := by
    simp only [need, stepLimit]
    omega
  have hrest : need patterns (spelled projectDir) ≤ stepLimit (projectPatterns projectDir patterns).length := by
    simp only [need, stepLimit, projectPatterns, List.length_append]
    omega
  have hspelled : (spelled projectDir).text ≠ "" := Path.descend_text_ne (by decide) (slashless_spelled projectDir)
  have hmore : (⟨fs, false⟩ : Search).expand (stepLimit (projectPatterns projectDir patterns).length) patterns (spelled projectDir)
      = (⟨fs, false⟩ : Search).expand fuel patterns (spelled projectDir) :=
    expand_eq_of_need wf hcut hspelled (hrest.trans hfuel) hrest
  rw [hstart, ← hmore]
  unfold projectPatterns at hroot ⊢
  rw [hnames] at hroot ⊢
  exact expand_names wf hcut hne (by decide) (by decide) (slashless_spelled projectDir) hthere hroot

/-- Below a slash at the end of a pattern no sources are found. -/
theorem collectSources_of_slash (htokens : ∃ tokens, Pattern.parse sources.toList = .ok tokens)
    (hpatterns : (componentTexts sources.toList).mapM Pattern.parse = .ok patterns) (hname : endsInName sources = false) :
    collectSources fs projectDir sources = .ok [] := by
  obtain ⟨search, left, rfl, honly, -, hcollect⟩ := collectSources_eq fs projectDir htokens hpatterns
  rw [hname] at honly
  have hnone : (search.expand (stepLimit left.length) left (startBelow (dirText projectDir))).filter search.fs.holdsFile = [] := by
    refine List.filter_eq_nil_iff.2 fun path hpath hfile => ?_
    have hdirectory := (holdsDirectory_of_mem honly _).1 _ _ hpath
    rw [not_holdsDirectory_of_holdsFile hfile] at hdirectory
    cases hdirectory
  rw [hcollect, hnone, List.mergeSort_nil]

/-- The sources of a project are what the include pattern finds in its directory. -/
theorem collectSources_spelled (wf : fs.WellFormed) (h : projectDir.isAbsolute = true)
    (hdir : fs.resolve true projectDir = .ok (.found dir .directory))
    (htokens : ∃ tokens, Pattern.parse sources.toList = .ok tokens)
    (hpatterns : (componentTexts sources.toList).mapM Pattern.parse = .ok patterns) (hname : endsInName sources = true)
    {fuel : Nat} (hfuel : stepLimit (projectPatterns projectDir patterns).length ≤ fuel) :
    collectSources fs projectDir sources
      = .ok ((((⟨fs, false⟩ : Search).expand fuel patterns (spelled projectDir)).filter fs.holdsFile).mergeSort
        fun a b => !b.before a) := by
  obtain ⟨⟨_, only⟩, left, rfl, honly, hleft, hcollect⟩ := collectSources_eq fs projectDir htokens hpatterns
  obtain rfl : only = false := by simpa [hname] using honly
  rw [hcollect, hleft hname, expand_project wf h hdir hpatterns hname hfuel]

/-- An include pattern that cannot be expanded is refused, wherever the project lies. -/
theorem scanProject_of_refused (fs : FileSystem) (settings : Settings) (h : ¬ Accepted settings.sources) :
    ∃ fault, collectSources fs settings.projectDir settings.sources = .error fault
      ∧ scanProject fs settings = .error (.pattern fault) := by
  obtain ⟨fault, hfault⟩ : ∃ fault, components (sourcePattern settings.projectDir settings.sources) = .error fault := by
    unfold components
    rw [sourcePattern_eq, head?_below]
    cases hparse : Pattern.parse (escape (dirText settings.projectDir) ++ '/' :: settings.sources.toList) with
    | error fault => exact ⟨fault, rfl⟩
    | ok more =>
        have hread := (parse_below_iff _).1 ⟨more, hparse⟩
        cases hothers : (componentTexts settings.sources.toList).mapM Pattern.parse with
        | ok patterns => exact absurd ⟨hread, patterns, hothers⟩ h
        | error fault =>
            have hcomponents := mapM_parse_escape (piecesBelow (dirText settings.projectDir)) (componentTexts settings.sources.toList)
            rw [← componentTexts_below _ _ (pieces_below (dirText settings.projectDir) settings.sources), hothers] at hcomponents
            refine ⟨fault, ?_⟩
            simp only [hcomponents]
            rfl
  have hcollect : collectSources fs settings.projectDir settings.sources = .error fault := by
    rw [collectSources, paths_eq, hfault]
    rfl
  exact ⟨fault, hcollect, by rw [scanProject, hcollect]⟩

/-! ### Two projects -/

/-- No component of an include pattern matches the parent of a directory. -/
def NeverUp (sources : String) : Prop :=
  ∀ patterns, (componentTexts sources.toList).mapM Pattern.parse = .ok patterns →
    ∀ pattern ∈ patterns, ".." ∉ matchingDots pattern

/-- No path that the include pattern looks at comes to a limit in one of two directories where it leads to something in
the other one. -/
def SparedBelow (fs fs' : FileSystem) (projectDir projectDir' : Path) (sources : String) : Prop :=
  ∀ patterns, (componentTexts sources.toList).mapM Pattern.parse = .ok patterns → ∀ rest names, Enters patterns rest names →
    Spared fs fs' ((spelled projectDir).descend names) ((spelled projectDir').descend names)
      ∧ Spared fs' fs ((spelled projectDir').descend names) ((spelled projectDir).descend names)

/-- What becomes of a file is decided by its contents and its path below the project. -/
theorem scanFile_of_lookup {path : Path} {place : Location} {contents : ByteArray}
    (h : fs.lookup path = .ok (place, .file contents)) : scanFile fs projectDir path = ⟨relative projectDir path,
      match String.fromUTF8? contents with
      | some text => scanText (relative projectDir path) text
      | none => .unreadable .notText⟩ := by
  rw [scanFile_eq, FileAction.readText_eq, FileAction.readBytes_eq, h]
  cases htext : String.fromUTF8? contents <;> simp only [htext]

/-- What a source is called and what becomes of it does not depend on where the project lies. -/
theorem scanFile_moved {base base' projectDir' : Path} {rest : List Pattern} {names : List String}
    (moved : Moved fs fs' dir dir' base base' patterns) (hdir : projectDir.components = base.components)
    (hdir' : projectDir'.components = base'.components) (henters : Enters patterns rest names)
    (hfile : fs.holdsFile (base.descend names) = true) :
    relative projectDir (base.descend names) = relative projectDir' (base'.descend names)
      ∧ scanFile fs projectDir (base.descend names) = scanFile fs' projectDir' (base'.descend names) := by
  have hinner := moved.inner henters
  have hne : names ≠ [] := by
    rintro rfl
    have hdirectory : fs.holdsDirectory (base.descend []) = true := holdsDirectory_iff.2 ⟨dir, moved.found⟩
    rw [not_holdsDirectory_of_holdsFile hfile] at hdirectory
    cases hdirectory
  obtain ⟨inside, hinside⟩ := Path.exists_stripPrefix?_descend hne hinner.slashless
  have hrelative : relative projectDir (base.descend names) = relative projectDir' (base'.descend names) := by
    rw [relative, relative, hinside base projectDir moved.absolute hdir, hinside base' projectDir' moved.absolute' hdir']
    rfl
  obtain ⟨place, contents, hresolve⟩ := holdsFile_iff.1 hfile
  have hlookup := lookup_eq_ok_iff.2 hresolve
  obtain ⟨place', hplace'⟩ := (moved.lookup?_file henters contents).1 ⟨place, lookup?_eq_some_iff.2 hresolve⟩
  have hlookup' := lookup_eq_ok_iff.2 (lookup?_eq_some_iff.1 hplace')
  refine ⟨hrelative, ?_⟩
  rw [scanFile_of_lookup hlookup, scanFile_of_lookup hlookup', hrelative]

/-- The files that a path list spells, in the order of their paths. -/
def filesInOrder (fs : FileSystem) (paths : List Path) : List Path :=
  (paths.filter fs.holdsFile).mergeSort fun a b => !b.before a

/-- Names below two directories that hold the same are those of the same files, in the same order. -/
theorem filesInOrder_moved {base base' : Path} {found : List (List String)}
    (moved : Moved fs fs' dir dir' base base' patterns) (hfound : ∀ names ∈ found, ∃ rest, Enters patterns rest names) :
    ∃ listed : List (List String),
      (∀ names ∈ listed, (∃ rest, Enters patterns rest names) ∧ fs.holdsFile (base.descend names) = true)
      ∧ filesInOrder fs (found.map base.descend) = listed.map base.descend
      ∧ filesInOrder fs' (found.map base'.descend) = listed.map base'.descend := by
  have hbase : base.text ≠ "" := Path.text_ne_of_isAbsolute moved.absolute
  have hbase' : base'.text ≠ "" := Path.text_ne_of_isAbsolute moved.absolute'
  have hfiles : found.filter (fs'.holdsFile ∘ base'.descend) = found.filter (fs.holdsFile ∘ base.descend) :=
    List.filter_congr fun names hnames => by
      obtain ⟨rest, henters⟩ := hfound names hnames
      exact moved.holdsFile_eq henters
  have hinner : ∀ names ∈ found.filter (fs.holdsFile ∘ base.descend), ∀ name ∈ names, '/' ∉ name.toList :=
    fun names hnames => by
      obtain ⟨rest, henters⟩ := hfound names (List.mem_of_mem_filter hnames)
      exact (moved.inner henters).slashless
  refine ⟨(found.filter (fs.holdsFile ∘ base.descend)).mergeSort fun a b => !(base.descend b).before (base.descend a),
    fun names hnames => ?_, ?_, ?_⟩
  · obtain ⟨hmem, hfile⟩ := List.mem_filter.1 (List.mem_mergeSort.1 hnames)
    exact ⟨hfound names hmem, hfile⟩
  · rw [filesInOrder, List.filter_map]
    refine (List.map_mergeSort fun a _ b _ => ?_).symm
    rfl
  · rw [filesInOrder, List.filter_map, hfiles]
    refine (List.map_mergeSort fun a ha b hb => ?_).symm
    rw [Path.before_descend hbase hbase' (hinner b hb) (hinner a ha)]

/-- Two directories that hold the same tree, which nothing leads out of, have the same sources in the same order, and
scanning them gives the same, if no component of the include pattern leads up and no limit comes between. A pattern that
is refused for one is refused for the other. -/
theorem scanProject_moves (wf : fs.WellFormed) (wf' : fs'.WellFormed) (hsources : settings'.sources = settings.sources)
    (habsolute : settings.projectDir.isAbsolute = true) (habsolute' : settings'.projectDir.isAbsolute = true)
    (hdir : fs.resolve true settings.projectDir = .ok (.found dir .directory))
    (hdir' : fs'.resolve true settings'.projectDir = .ok (.found dir' .directory)) (hsame : SameTree fs fs' dir dir')
    (hup : NeverUp settings.sources)
    (hspared : SparedBelow fs fs' settings.projectDir settings'.projectDir settings.sources) :
    (Accepted settings.sources → ∃ found found' result,
      collectSources fs settings.projectDir settings.sources = .ok found
        ∧ collectSources fs' settings'.projectDir settings'.sources = .ok found'
        ∧ found.map (relative settings.projectDir) = found'.map (relative settings'.projectDir)
        ∧ scanProject fs settings = .ok result ∧ scanProject fs' settings' = .ok result)
    ∧ (¬ Accepted settings.sources →
      (∃ fault, collectSources fs settings.projectDir settings.sources = .error fault
        ∧ scanProject fs settings = .error (.pattern fault))
      ∧ ∃ fault, collectSources fs' settings'.projectDir settings'.sources = .error fault
        ∧ scanProject fs' settings' = .error (.pattern fault)) := by
  refine ⟨?_, fun hrefused => ⟨scanProject_of_refused fs settings hrefused,
    scanProject_of_refused fs' settings' (hsources ▸ hrefused)⟩⟩
  intro haccepted
  obtain ⟨htokens, patterns, hpatterns⟩ := id haccepted
  obtain ⟨found, found', hcollect, hcollect', hrelative, hscanned⟩ : ∃ found found',
      collectSources fs settings.projectDir settings.sources = .ok found
        ∧ collectSources fs' settings'.projectDir settings'.sources = .ok found'
        ∧ found.map (relative settings.projectDir) = found'.map (relative settings'.projectDir)
        ∧ found.map (scanFile fs settings.projectDir) = found'.map (scanFile fs' settings'.projectDir) := by
    rw [hsources]
    cases hname : endsInName settings.sources with
    | false =>
        exact ⟨[], [], collectSources_of_slash htokens hpatterns hname, collectSources_of_slash htokens hpatterns hname,
          rfl, rfl⟩
    | true =>
        have moved : Moved fs fs' dir dir' (spelled settings.projectDir) (spelled settings'.projectDir) patterns :=
          { wf, wf', same := hsame, absolute := isAbsolute_spelled _, absolute' := isAbsolute_spelled _
            found := resolve_spelled habsolute hdir, found' := resolve_spelled habsolute' hdir'
            cut := cut_componentTexts hpatterns, down := hup patterns hpatterns, spared := hspared patterns hpatterns }
        -- Both expansions get the steps of both patterns, which is enough for either.
        obtain ⟨found, hfound, hhere, hthere⟩ := moved.expand_moved false
          (stepLimit (projectPatterns settings.projectDir patterns).length
            + stepLimit (projectPatterns settings'.projectDir patterns).length)
        obtain ⟨listed, hlisted, hfiles, hfiles'⟩ := filesInOrder_moved moved hfound
        have hsame : ∀ names ∈ listed, _ := fun names hnames =>
          scanFile_moved moved (components_spelled habsolute).symm (components_spelled habsolute').symm
            (hlisted names hnames).1.choose_spec (hlisted names hnames).2
        rw [← hhere] at hfiles
        rw [← hthere] at hfiles'
        refine ⟨listed.map (spelled settings.projectDir).descend, listed.map (spelled settings'.projectDir).descend,
          ?_, ?_, ?_, ?_⟩
        · rw [collectSources_spelled wf habsolute hdir htokens hpatterns hname (Nat.le_add_right _ _), ← hfiles]
          rfl
        · rw [collectSources_spelled wf' habsolute' hdir' htokens hpatterns hname (Nat.le_add_left _ _), ← hfiles']
          rfl
        · rw [List.map_map, List.map_map]
          exact List.map_congr_left fun names hnames => (hsame names hnames).1
        · rw [List.map_map, List.map_map]
          exact List.map_congr_left fun names hnames => (hsame names hnames).2
  refine ⟨found, found', ⟨found.map (scanFile fs settings.projectDir)⟩, hcollect, hcollect', hrelative,
    scanProject_eq hcollect, ?_⟩
  rw [hscanned]
  exact scanProject_eq hcollect'

/-- One project in two places, of which only one has a source beside it. -/
def besideParent : FileSystem :=
  .ofEntries ⟨"/"⟩ [(["a"], .directory), (["a", "p"], .directory), (["a", "p", "x.ts"], .file ByteArray.empty),
    (["a", "y.ts"], .file ByteArray.empty), (["b"], .directory), (["b", "p"], .directory),
    (["b", "p", "x.ts"], .file ByteArray.empty)]

/-- A project in which a source is a link, and links to the root that are followed once, three times, seven times, ... -/
def manyLinks : FileSystem :=
  .ofEntries ⟨"/"⟩ [(["a"], .directory), (["a", "x.ts"], .link "y.ts"), (["a", "y.ts"], .file ByteArray.empty),
    (["l0"], .link "."), (["l1"], .link "l0/l0"), (["l2"], .link "l1/l1"), (["l3"], .link "l2/l2"),
    (["l4"], .link "l3/l3")]

/-- A component may match the parent of the project without being one, and one link too many on the way hides a source. -/
theorem collectSources_differs :
    (besideParent.WellFormed ∧ SameTree besideParent besideParent ["a", "p"] ["b", "p"]
      ∧ besideParent.resolve true ⟨"/a/p"⟩ = .ok (.found ["a", "p"] .directory)
      ∧ besideParent.resolve true ⟨"/b/p"⟩ = .ok (.found ["b", "p"] .directory)
      ∧ Accepted ".*/y.ts" ∧ "..".toList ∉ componentTexts ".*/y.ts".toList
      ∧ collectSources besideParent ⟨"/a/p"⟩ ".*/y.ts" = .ok [⟨"/a/p/../y.ts"⟩]
      ∧ collectSources besideParent ⟨"/b/p"⟩ ".*/y.ts" = .ok [])
    ∧ manyLinks.WellFormed ∧ SameTree manyLinks manyLinks ["a"] ["a"]
      ∧ manyLinks.resolve true ⟨"/a"⟩ = .ok (.found ["a"] .directory)
      ∧ manyLinks.resolve true ⟨"/l4/l2/l0/l0/a"⟩ = .ok (.found ["a"] .directory)
      ∧ Accepted "x.ts" ∧ "..".toList ∉ componentTexts "x.ts".toList
      ∧ collectSources manyLinks ⟨"/a"⟩ "x.ts" = .ok [⟨"/a/x.ts"⟩]
      ∧ collectSources manyLinks ⟨"/l4/l2/l0/l0/a"⟩ "x.ts" = .ok [] := by
  have hparent : SameTree besideParent besideParent ["a", "p"] ["b", "p"] :=
    sameTree_of_liesIn (by decide +kernel) (by decide +kernel) (by decide +kernel) (by decide +kernel)
  have hlinks : SameTree manyLinks manyLinks ["a"] ["a"] :=
    sameTree_of_liesIn (by decide +kernel) (by decide +kernel) (by decide +kernel) (by decide +kernel)
  exact ⟨⟨by decide +kernel, hparent, by decide +kernel, by decide +kernel, ⟨⟨_, rfl⟩, _, rfl⟩, by decide, by decide +kernel,
    by decide +kernel⟩, by decide +kernel, hlinks, by decide +kernel, by decide +kernel, ⟨⟨_, rfl⟩, _, rfl⟩, by decide,
    by decide +kernel, by decide +kernel⟩

/-- One project in two places with wildcards in their names. Its include pattern goes through a link. -/
def twoPlaces : FileSystem :=
  .ofEntries ⟨"/"⟩ [(["w"], .directory), (["w", "[a]*?"], .directory), (["w", "[a]*?", "d"], .directory),
    (["w", "[a]*?", "d", "x.ts"], .file "/** @lovelyType p */\nfunction f() \x7b\x7d\n".toUTF8),
    (["w", "[a]*?", "l"], .link "d"), ([".!b"], .directory), ([".!b", "d"], .directory),
    ([".!b", "d", "x.ts"], .file "/** @lovelyType p */\nfunction f() \x7b\x7d\n".toUTF8), ([".!b", "l"], .link "d")]

/-- The settings of a project in a directory. -/
def settingsAt (projectDir sources : String) : Settings := { includeSettings sources with projectDir := ⟨projectDir⟩ }

/-- The components of its include pattern. -/
def linkPatterns : List Pattern := [[.char 'l'], [.anySequence, .char '.', .char 't', .char 's']]

/-- What the include pattern looks at: the directory, the link, and the entries behind it. -/
theorem names_of_enters {rest : List Pattern} {names : List String} (h : Enters linkPatterns rest names) :
    (rest = linkPatterns ∧ names = []) ∨ (rest = linkPatterns.tail ∧ names = ["l"])
      ∨ rest = [] ∧ ∃ name, ValidName name ∧ names = ["l", name] := by
  -- No component matches a dot or stands for directories.
  have hplain : ∀ pattern ∈ linkPatterns, matchingDots pattern = [] ∧ pattern.isRecursive = false := by decide
  have hcollapse : ∀ {passed pattern rest}, passed = linkPatterns ∨ passed = linkPatterns.tail ∨ passed = [] →
      collapse passed = pattern :: rest → passed = pattern :: rest ∧ pattern.isRecursive = false := by
    rintro passed pattern rest (rfl | rfl | rfl) hcollapse
    · cases hcollapse
      exact ⟨rfl, rfl⟩
    · cases hcollapse
      exact ⟨rfl, rfl⟩
    · cases hcollapse
  induction h with
  | start => exact .inl ⟨rfl, rfl⟩
  | literal _ hliteral ih =>
      rcases ih with ⟨heq, rfl⟩ | ⟨heq, rfl⟩ | ⟨heq, -⟩
      · obtain ⟨rfl, rfl⟩ := List.cons.inj heq
        obtain rfl : "l" = _ := Option.some.inj (Eq.trans (by decide) hliteral)
        exact .inr (.inl ⟨rfl, rfl⟩)
      · obtain ⟨rfl, rfl⟩ := List.cons.inj heq
        cases hliteral
      · cases heq
  | dots hbefore hname _ =>
      rw [(hplain _ (hbefore.suffix.subset List.mem_cons_self)).1] at hname
      cases hname
  | deeper hbefore hcollapsed hrecursive _ ih | behind hbefore hcollapsed hrecursive _ _ ih =>
      have hpassed := hcollapse (by rcases ih with ⟨heq, -⟩ | ⟨heq, -⟩ | ⟨heq, -⟩ <;> simp [heq]) hcollapsed
      rw [hpassed.2] at hrecursive
      cases hrecursive
  | entry hbefore hcollapsed _ hname hmatches ih =>
      obtain ⟨rfl, -⟩ := hcollapse (by rcases ih with ⟨heq, -⟩ | ⟨heq, -⟩ | ⟨heq, -⟩ <;> simp [heq]) hcollapsed
      rcases ih with ⟨heq, rfl⟩ | ⟨heq, rfl⟩ | ⟨heq, -⟩
      · obtain ⟨rfl, rfl⟩ := List.cons.inj heq
        obtain rfl := String.toList_inj.1 (matches_literal (by decide : _ = some "l") hmatches)
        exact .inr (.inl ⟨rfl, rfl⟩)
      · obtain ⟨rfl, rfl⟩ := List.cons.inj heq
        exact .inr (.inr ⟨rfl, _, hname, rfl⟩)
      · cases heq

theorem sparedBelow_twoPlaces : SparedBelow twoPlaces twoPlaces ⟨"/w/[a]*?/"⟩ ⟨"/.!b"⟩ "l/*.ts" := by
  intro patterns hpatterns rest names henters
  obtain rfl : linkPatterns = patterns := Except.ok.inj (Eq.trans (by decide +kernel) hpatterns)
  have hspelled : spelled ⟨"/w/[a]*?/"⟩ = ⟨"/w/[a]*?"⟩ ∧ spelled ⟨"/.!b"⟩ = ⟨"/.!b"⟩ := by decide +kernel
  have hok : ∀ names ∈ [[], ["l"], ["l", "x.ts"]], ∀ follow,
      (twoPlaces.resolve follow ((⟨"/w/[a]*?"⟩ : Path).descend names)).isOk = true
        ∧ (twoPlaces.resolve follow ((⟨"/.!b"⟩ : Path).descend names)).isOk = true := by decide +kernel
  have hspared : ∀ names ∈ [[], ["l"], ["l", "x.ts"]],
      Spared twoPlaces twoPlaces ((⟨"/w/[a]*?"⟩ : Path).descend names) ((⟨"/.!b"⟩ : Path).descend names)
        ∧ Spared twoPlaces twoPlaces ((⟨"/.!b"⟩ : Path).descend names) ((⟨"/w/[a]*?"⟩ : Path).descend names) :=
    fun names hnames => ⟨spared_of_isOk fun follow => (hok names hnames follow).2,
      spared_of_isOk fun follow => (hok names hnames follow).1⟩
  rw [hspelled.1, hspelled.2]
  rcases names_of_enters henters with ⟨-, rfl⟩ | ⟨-, rfl⟩ | ⟨-, name, hname, rfl⟩
  · exact hspared [] (by simp)
  · exact hspared ["l"] (by simp)
  · have hdir : twoPlaces.resolve true ((⟨"/w/[a]*?"⟩ : Path).descend ["l"]) = .ok (.found ["w", "[a]*?", "d"] .directory)
        ∧ twoPlaces.resolve true ((⟨"/.!b"⟩ : Path).descend ["l"]) = .ok (.found [".!b", "d"] .directory) := by
      decide +kernel
    have hlisted : twoPlaces.names ["w", "[a]*?", "d"] = ["x.ts"] ∧ twoPlaces.names [".!b", "d"] = ["x.ts"] := by
      decide +kernel
    obtain ⟨hhere, hthere⟩ := hspared ["l", "x.ts"] (by simp)
    refine ⟨spared_child hdir.1 ?_ hname, spared_child hdir.2 ?_ hname⟩
    · rw [hlisted.1, List.forall_mem_singleton]
      exact hhere
    · rw [hlisted.2, List.forall_mem_singleton]
      exact hthere

/-- The source of the project is found behind the link in both places, and its annotation is the same. -/
theorem scanProject_moves_twoPlaces : twoPlaces.WellFormed
    ∧ SameTree twoPlaces twoPlaces ["w", "[a]*?"] [".!b"] ∧ NeverUp "l/*.ts" ∧ Accepted "l/*.ts"
    ∧ SparedBelow twoPlaces twoPlaces ⟨"/w/[a]*?/"⟩ ⟨"/.!b"⟩ "l/*.ts"
    ∧ ∃ found found' result, collectSources twoPlaces ⟨"/w/[a]*?/"⟩ "l/*.ts" = .ok found ∧ found = [⟨"/w/[a]*?/l/x.ts"⟩]
      ∧ collectSources twoPlaces ⟨"/.!b"⟩ "l/*.ts" = .ok found' ∧ found' = [⟨"/.!b/l/x.ts"⟩]
      ∧ found.map (relative ⟨"/w/[a]*?/"⟩) = found'.map (relative ⟨"/.!b"⟩)
      ∧ scanProject twoPlaces (settingsAt "/w/[a]*?/" "l/*.ts") = .ok result
      ∧ scanProject twoPlaces (settingsAt "/.!b" "l/*.ts") = .ok result := by
  have wf : twoPlaces.WellFormed := by decide +kernel
  have hsame : SameTree twoPlaces twoPlaces ["w", "[a]*?"] [".!b"] :=
    sameTree_of_liesIn (by decide +kernel) (by decide +kernel) (by decide +kernel) (by decide +kernel)
  have hup : NeverUp "l/*.ts" := by
    intro patterns hpatterns
    obtain rfl : linkPatterns = patterns := Except.ok.inj (Eq.trans (by decide +kernel) hpatterns)
    decide
  have haccepted : Accepted "l/*.ts" := ⟨⟨_, rfl⟩, _, rfl⟩
  have hdir : twoPlaces.resolve true ⟨"/w/[a]*?/"⟩ = .ok (.found ["w", "[a]*?"] .directory) := by decide +kernel
  have hdir' : twoPlaces.resolve true ⟨"/.!b"⟩ = .ok (.found [".!b"] .directory) := by decide +kernel
  have hlisted : collectSources twoPlaces ⟨"/w/[a]*?/"⟩ "l/*.ts" = .ok [⟨"/w/[a]*?/l/x.ts"⟩] := by decide +kernel
  have hlisted' : collectSources twoPlaces ⟨"/.!b"⟩ "l/*.ts" = .ok [⟨"/.!b/l/x.ts"⟩] := by decide +kernel
  have hsources : (settingsAt "/.!b" "l/*.ts").sources = (settingsAt "/w/[a]*?/" "l/*.ts").sources := rfl
  obtain ⟨found, found', result, hfound, hfound', hrelative, hresult, hresult'⟩ :=
    (scanProject_moves wf wf hsources (by decide) (by decide) hdir hdir' hsame hup sparedBelow_twoPlaces).1 haccepted
  exact ⟨wf, hsame, hup, haccepted, sparedBelow_twoPlaces, found, found', result, hfound,
    Except.ok.inj (hfound.symm.trans hlisted), hfound', Except.ok.inj (hfound'.symm.trans hlisted'), hrelative, hresult,
    hresult'⟩

end ModPackager.Scan
