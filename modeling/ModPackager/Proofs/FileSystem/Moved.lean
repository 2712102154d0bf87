import ModPackager.Proofs.FileSystem.Way
import ModPackager.Proofs.Path.Descend

/-!
# A tree in two places

Two directories hold the `SameTree` if the same lies at every place below them, and nothing leads out of either of them
(`Enclosed`). Names are then followed in both of them alike (`walk_alongside`), from one place to the same place below
the other directory, unless a limit of links ends one of the two walks.
-/

namespace ModPackager.FileSystem

variable {fs fs' : FileSystem} {follow : Bool} {links links' : Nat} {dir dir' here below place : Location} {name : String}
  {names : List String} {slash : Bool} {target : Target} {path : Path} {entry : Entry}

/-! ### Trees that nothing leads out of -/

/-- Nothing leads out of a directory: names without parents, followed down from there through however many links, are
looked up inside. -/
def Enclosed (fs : FileSystem) (dir : Location) : Prop :=
  ∀ links names, ".." ∉ names → ∀ place ∈ fs.trail links dir names, dir <+: place

/-- An entry that leads nowhere but down: links do if there are no parents in them and they do not start from the
root. -/
def LeadsDown : Entry → Prop
  | .link text => (⟨text⟩ : Path).isAbsolute = false ∧ ".." ∉ namesOf text
  | _ => True

instance : DecidablePred LeadsDown
  | .link _ => inferInstanceAs (Decidable (_ ∧ _))
  | .file _ => .isTrue trivial
  | .directory => .isTrue trivial

theorem prefix_of_mem_trailStep (hlinks : ∀ place entry, here <+: place → fs.entry? place = some entry → LeadsDown entry)
    (honward : ∀ {start rest place}, here <+: start → ".." ∉ rest → place ∈ fs.trailBehind links start rest →
      start <+: place) (hup : ".." ∉ names) : place ∈ fs.trail links here names → here <+: place := by
  induction names generalizing here with
  | nil =>
      intro hplace
      rw [trail_nil, List.mem_singleton] at hplace
      exact hplace ▸ List.prefix_refl _
  | cons name rest ih =>
      have hrest : ".." ∉ rest := fun hmem => hup (List.mem_cons_of_mem _ hmem)
      by_cases hdir : fs.entry? here = some .directory
      · rcases name_cases name with rfl | rfl | ⟨hdot, hparent, hlong⟩ | hname
        · intro hplace
          rw [trail_dot hdir, List.mem_cons] at hplace
          exact hplace.elim (fun heq => heq ▸ List.prefix_refl _) (ih hlinks honward hrest)
        · exact absurd List.mem_cons_self hup
        · intro hplace
          rw [trail_long hdir hdot hparent hlong, List.mem_singleton] at hplace
          exact hplace ▸ List.prefix_refl _
        · have hbelow : here <+: here ++ [name] := List.prefix_append _ _
          have hgo : place ∈ fs.trail links (here ++ [name]) rest → here <+: place := fun hplace =>
            hbelow.trans (ih (fun other entry hother => hlinks other entry (hbelow.trans hother))
              (fun hstart => honward (hbelow.trans hstart)) hrest hplace)
          intro hplace
          rw [trail_name hdir hname, List.mem_cons, List.mem_cons] at hplace
          rcases hplace with rfl | rfl | hplace
          · exact List.prefix_refl _
          · exact hbelow
          · rcases hentry : fs.entry? (here ++ [name]) with _ | _ | _ | text
            · simp [hentry] at hplace
            · exact hgo (by simpa [hentry] using hplace)
            · exact hgo (by simpa [hentry] using hplace)
            · -- A link of the tree goes on from the directory that it lies in.
              obtain ⟨hrelative, hdown⟩ := hlinks _ (.link text) hbelow hentry
              have hstart : linkStart text here = here := if_neg (by simp [hrelative])
              rw [hentry] at hplace
              simp only [hstart] at hplace
              exact honward (List.prefix_refl _) (by simp [hdown, hrest]) hplace
      · intro hplace
        rw [trail_cons_of_not_directory hdir, List.mem_singleton] at hplace
        exact hplace ▸ List.prefix_refl _

theorem prefix_of_mem_trail_of_leadsDown
    (hlinks : ∀ place entry, dir <+: place → fs.entry? place = some entry → LeadsDown entry) (hhere : dir <+: here)
    (hup : ".." ∉ names) : place ∈ fs.trail links here names → here <+: place := by
  induction links generalizing here names place with
  | zero =>
      refine prefix_of_mem_trailStep (fun other entry hother => hlinks other entry (hhere.trans hother)) ?_ hup
      exact fun _ _ hplace => absurd hplace List.not_mem_nil
  | succ links ih =>
      refine prefix_of_mem_trailStep (fun other entry hother => hlinks other entry (hhere.trans hother)) ?_ hup
      exact fun hstart hrest hplace => ih (hhere.trans hstart) hrest hplace

/-- Nothing leads out of a directory in which all links lead down. -/
theorem enclosed_of_leadsDown
    (hlinks : ∀ place entry, dir <+: place → fs.entry? place = some entry → LeadsDown entry) : Enclosed fs dir :=
  fun _ _ hup _ hplace => prefix_of_mem_trail_of_leadsDown hlinks (List.prefix_refl _) hup hplace

/-! ### Walks in two places -/

/-- Two directories hold the same, and nothing leads out of them. -/
structure SameTree (fs fs' : FileSystem) (dir dir' : Location) : Prop where
  entries : ∀ below, fs'.entry? (dir' ++ below) = fs.entry? (dir ++ below)
  enclosed : Enclosed fs dir
  enclosed' : Enclosed fs' dir'

/-- What lies below a directory of one file system lies below one of another, and leads down. -/
def LiesIn (fs fs' : FileSystem) (dir dir' : Location) : Prop :=
  ∀ node ∈ fs.nodes, dir <+: node.1 →
    fs'.entry? (dir' ++ node.1.drop dir.length) = fs.entry? node.1 ∧ ∀ entry ∈ fs.entry? node.1, LeadsDown entry

instance : Decidable (LiesIn fs fs' dir dir') := inferInstanceAs (Decidable (∀ node ∈ fs.nodes, _ → _ ∧ _))

theorem LiesIn.lies (h : LiesIn fs fs' dir dir') (hdir : fs.entry? dir = some .directory)
    (hdir' : fs'.entry? dir' = some .directory) (hentry : fs.entry? (dir ++ below) = some entry) :
    fs'.entry? (dir' ++ below) = some entry ∧ LeadsDown entry := by
  by_cases hroot : dir ++ below = []
  · obtain ⟨rfl, rfl⟩ := List.append_eq_nil_iff.1 hroot
    obtain rfl : entry = .directory := (Option.some.inj (hdir.symm.trans hentry)).symm
    rw [List.append_nil]
    exact ⟨hdir', trivial⟩
  · obtain ⟨node, hnode⟩ := exists_mem_nodes hentry hroot
    obtain ⟨hsame, hdown⟩ := h _ hnode (List.prefix_append _ _)
    simp only [List.drop_left, hentry] at hsame hdown
    exact ⟨hsame, hdown entry rfl⟩

/-- Two directories hold the same tree if what lies in each lies in the other. -/
theorem sameTree_of_liesIn (h : LiesIn fs fs' dir dir') (h' : LiesIn fs' fs dir' dir)
    (hdir : fs.entry? dir = some .directory) (hdir' : fs'.entry? dir' = some .directory) : SameTree fs fs' dir dir' where
  entries below := by
    rcases hentry : fs.entry? (dir ++ below) with _ | entry
    · rcases hentry' : fs'.entry? (dir' ++ below) with _ | entry'
      · rfl
      · rw [(h'.lies hdir' hdir hentry').1] at hentry
        cases hentry
    · exact (h.lies hdir hdir' hentry).1
  enclosed := enclosed_of_leadsDown fun _ _ ⟨below, hbelow⟩ hentry => (h.lies hdir hdir' (hbelow ▸ hentry)).2
  enclosed' := enclosed_of_leadsDown fun _ _ ⟨below, hbelow⟩ hentry => (h'.lies hdir' hdir (hbelow ▸ hentry)).2

deriving instance DecidableEq for Target

/-- The end of a walk that a limit puts to it. -/
def Limited (outcome : Except IoFault Target) : Prop := outcome = .error .tooManyLinks ∨ outcome = .error .nameTooLong

/-- Two walks end alike, at the same place below two directories, or a limit ends one of them. -/
inductive Alongside (dir dir' : Location) : Except IoFault Target → Except IoFault Target → Prop
  | found (below : Location) (entry : Entry) :
      Alongside dir dir' (.ok (.found (dir ++ below) entry)) (.ok (.found (dir' ++ below) entry))
  | vacant (below : Location) : Alongside dir dir' (.ok (.vacant (dir ++ below))) (.ok (.vacant (dir' ++ below)))
  | fault (fault : IoFault) : Alongside dir dir' (.error fault) (.error fault)
  | here {outcome} (other : Except IoFault Target) : Limited outcome → Alongside dir dir' outcome other
  | there {outcome} (other : Except IoFault Target) : Limited outcome → Alongside dir dir' other outcome

/-- Going up from below a directory without leaving it. -/
theorem exists_dropLast_append (h : dir <+: (dir ++ below).dropLast) (h' : dir' <+: (dir' ++ below).dropLast) :
    ∃ above, (dir ++ below).dropLast = dir ++ above ∧ (dir' ++ below).dropLast = dir' ++ above := by
  rcases List.eq_nil_or_concat below with rfl | ⟨front, last, rfl⟩
  · -- Only from the root does going up lead nowhere else.
    have hroot : ∀ {location : Location}, location <+: (location ++ []).dropLast → location = [] := by
      intro location hprefix
      have hlength := hprefix.length_le
      rw [List.append_nil, List.length_dropLast] at hlength
      exact List.length_eq_zero_iff.1 (by omega)
    rw [hroot h, hroot h']
    exact ⟨[], rfl, rfl⟩
  · rw [List.concat_eq_append, ← List.append_assoc, ← List.append_assoc, List.dropLast_concat, List.dropLast_concat]
    exact ⟨front, rfl, rfl⟩

/-- Where a link starts from that leads out of neither directory. -/
theorem exists_linkStart_append (text : String) (h : dir <+: linkStart text (dir ++ below))
    (h' : dir' <+: linkStart text (dir' ++ below)) :
    ∃ above, linkStart text (dir ++ below) = dir ++ above ∧ linkStart text (dir' ++ below) = dir' ++ above := by
  by_cases habsolute : (⟨text⟩ : Path).isAbsolute = true
  · have hstart : ∀ here, linkStart text here = [] := fun here => if_pos habsolute
    rw [hstart, List.prefix_nil] at h h'
    exact ⟨[], by rw [hstart, h]; rfl, by rw [hstart, h']; rfl⟩
  · have hstart : ∀ here, linkStart text here = here := fun here => if_neg habsolute
    exact ⟨below, hstart _, hstart _⟩

theorem walkStep_alongside (hsame : ∀ below, fs'.entry? (dir' ++ below) = fs.entry? (dir ++ below))
    (honward : ∀ {text below rest slash},
      (∀ place ∈ fs.trailBehind links (linkStart text (dir ++ below)) rest, dir <+: place) →
      (∀ place ∈ fs'.trailBehind links' (linkStart text (dir' ++ below)) rest, dir' <+: place) →
      Alongside dir dir' (fs.onwardFor follow links (linkStart text (dir ++ below)) rest slash)
        (fs'.onwardFor follow links' (linkStart text (dir' ++ below)) rest slash)) :
    (∀ place ∈ fs.trail links (dir ++ below) names, dir <+: place) →
      (∀ place ∈ fs'.trail links' (dir' ++ below) names, dir' <+: place) →
      Alongside dir dir' (fs.walk follow links (dir ++ below) names slash)
        (fs'.walk follow links' (dir' ++ below) names slash) := by
  induction names generalizing below slash with
  | nil =>
      intro _ _
      rw [walk_nil, walk_nil, hsame below]
      rcases fs.entry? (dir ++ below) with _ | entry
      · exact .fault _
      · simp only
        split
        · exact .fault _
        · exact .found _ _
  | cons name rest ih =>
      intro h h'
      by_cases hdir : fs.entry? (dir ++ below) = some .directory
      · have hdir' := (hsame below).trans hdir
        rcases name_cases name with rfl | rfl | ⟨hdot, hup, hlong⟩ | hname
        · rw [trail_dot hdir] at h
          rw [trail_dot hdir'] at h'
          rw [walk_dot hdir, walk_dot hdir']
          exact ih (List.forall_mem_cons.1 h).2 (List.forall_mem_cons.1 h').2
        · rw [trail_up hdir] at h
          rw [trail_up hdir'] at h'
          rw [walk_up hdir, walk_up hdir']
          have hrest := (List.forall_mem_cons.1 h).2
          have hrest' := (List.forall_mem_cons.1 h').2
          obtain ⟨above, habove, habove'⟩ :=
            exists_dropLast_append (hrest _ here_mem_trail) (hrest' _ here_mem_trail)
          rw [habove] at hrest ⊢
          rw [habove'] at hrest' ⊢
          exact ih hrest hrest'
        · rw [walk_long hdir hdot hup hlong, walk_long hdir' hdot hup hlong]
          exact .fault _
        · have hentry' : fs'.entry? (dir' ++ below ++ [name]) = fs.entry? (dir ++ below ++ [name]) := by
            rw [List.append_assoc, List.append_assoc, hsame]
          rw [trail_name hdir hname, List.forall_mem_cons, List.forall_mem_cons] at h
          rw [trail_name hdir' hname, hentry', List.forall_mem_cons, List.forall_mem_cons] at h'
          rw [walk_name hdir hname, walk_name hdir' hname, hentry']
          obtain ⟨-, -, hrest⟩ := h
          obtain ⟨-, -, hrest'⟩ := h'
          generalize fs.entry? (dir ++ below ++ [name]) = entry at hrest hrest' ⊢
          rcases entry with _ | _ | _ | text
          · simp only
            split
            · rw [List.append_assoc, List.append_assoc]
              exact .vacant _
            · exact .fault _
          · simp only [List.append_assoc] at hrest hrest' ⊢
            exact ih hrest hrest'
          · simp only [List.append_assoc] at hrest hrest' ⊢
            exact ih hrest hrest'
          · simp only
            split
            · rw [List.append_assoc, List.append_assoc]
              exact .found _ _
            · exact honward hrest hrest'
      · have hdir' : fs'.entry? (dir' ++ below) ≠ some .directory := by rwa [hsame below]
        rw [walk_cons_of_not_directory hdir, walk_cons_of_not_directory hdir']
        exact .fault _

/-- Names that are looked up inside two directories that hold the same are followed in both alike. -/
theorem walk_alongside (hsame : ∀ below, fs'.entry? (dir' ++ below) = fs.entry? (dir ++ below)) :
    (∀ place ∈ fs.trail links (dir ++ below) names, dir <+: place) →
      (∀ place ∈ fs'.trail links' (dir' ++ below) names, dir' <+: place) →
      Alongside dir dir' (fs.walk follow links (dir ++ below) names slash)
        (fs'.walk follow links' (dir' ++ below) names slash) := by
  induction links generalizing links' below names slash with
  | zero => exact walkStep_alongside hsame fun _ _ => .here _ (.inl rfl)
  | succ links ih =>
      cases links' with
      | zero => exact walkStep_alongside hsame fun _ _ => .there _ (.inl rfl)
      | succ links' =>
          refine walkStep_alongside hsame fun {text below rest slash} h h' => ?_
          obtain ⟨above, habove, habove'⟩ :=
            exists_linkStart_append text (h _ here_mem_trail) (h' _ here_mem_trail)
          rw [habove] at h ⊢
          rw [habove'] at h' ⊢
          exact ih h h'

theorem walk_alongside_here (hsame : ∀ below, fs'.entry? (dir' ++ below) = fs.entry? (dir ++ below))
    (h : ∀ place ∈ fs.trail links dir names, dir <+: place) (h' : ∀ place ∈ fs'.trail links' dir' names, dir' <+: place) :
    Alongside dir dir' (fs.walk follow links dir names slash) (fs'.walk follow links' dir' names slash) := by
  have halongside : Alongside dir dir' (fs.walk follow links (dir ++ []) names slash)
      (fs'.walk follow links' (dir' ++ []) names slash) :=
    walk_alongside hsame (by rwa [List.append_nil]) (by rwa [List.append_nil])
  rwa [List.append_nil, List.append_nil] at halongside

/-! ### Paths in two places -/

/-- Names that lead to a directory do so with a slash behind them, whether or not a link at the end is followed. -/
theorem Leads.slashed (h : Leads fs true links here names slash (.found dir .directory)) :
    Leads fs follow links here names true (.found dir .directory) := by
  generalize htarget : Target.found dir .directory = target at h
  induction h with
  | arrive hentry _ =>
      cases htarget
      exact .arrive hentry fun _ => rfl
  | dot hdir _ ih => exact .dot hdir (ih htarget)
  | up hdir _ ih => exact .up hdir (ih htarget)
  | vacant => cases htarget
  | stop _ _ _ hfollow => cases hfollow
  | link hdir hname hentry _ _ ih => exact .link hdir hname hentry (fun _ => .inr rfl) (by simpa using ih htarget)
  | enter hdir hname hentry hlink _ ih => exact .enter hdir hname hentry hlink (ih htarget)

variable {base base' : Path}

/-- A path that can be followed leads where its names lead. -/
theorem resolve_eq_walk (h : Followable path) :
    fs.resolve follow path = fs.walk follow maxLinks [] (fs.namesTo path) (fs.slashOf path) := by
  obtain ⟨hnul, hne, hsize⟩ := h
  rw [resolve, if_neg (by simpa using hnul), if_neg (by simpa using hne), if_neg (by omega)]
  rfl

theorem namesTo_descend_filter (hbase : base.text ≠ "") (hslash : ∀ name ∈ names, '/' ∉ name.toList) :
    fs.namesTo (base.descend names) = fs.namesTo base ++ names.filter (· ≠ "") := by
  induction names generalizing base with
  | nil => simp [Path.descend]
  | cons name names ih =>
      rw [List.forall_mem_cons] at hslash
      rw [Path.descend_cons, ih (Path.text_child_ne_of_ne hbase hslash.1) hslash.2]
      by_cases hname : name = ""
      · subst hname
        rw [Path.child, namesTo_join fs hbase rfl]
        simp
      · rw [namesTo_child fs hbase hname hslash.1]
        simp [hname]

section Descend

variable (hbase : fs.resolve true base = .ok (.found dir .directory)) (hslash : ∀ name ∈ names, '/' ∉ name.toList)

include hbase hslash

/-- A path of names below a directory goes on from there. -/
theorem exists_resolve_descend (hinner : names.filter (· ≠ "") ≠ []) : ∃ links, ∀ follow,
    Followable (base.descend names) → fs.resolve follow (base.descend names)
      = fs.walk follow links dir (names.filter (· ≠ "")) (endsInSlash (base.descend names).text) := by
  obtain ⟨hfollow, -⟩ := resolve_eq_ok_iff.1 hbase
  obtain ⟨links, hlinks⟩ := Leads.walk_append (leadsTo_of_resolve hbase)
  refine ⟨links, fun follow hfollowable => ?_⟩
  rw [resolve_eq_walk hfollowable, namesTo_descend_filter hfollow.2.1 hslash, hlinks follow _ _ hinner, slashOf_of_ne hfollowable.2.1]

/-- Empty names stay at a directory. -/
theorem resolve_descend_nil (hinner : names.filter (· ≠ "") = []) (hend : names = [] → follow = true)
    (hfollow : Followable (base.descend names)) :
    fs.resolve follow (base.descend names) = .ok (.found dir .directory) := by
  rcases List.eq_nil_or_concat names with rfl | ⟨front, last, rfl⟩
  · rw [hend rfl]
    exact hbase
  · -- An empty name behind the others leaves a slash at the end, so that a link there is followed anyway.
    obtain rfl : last = "" := by
      rw [List.concat_eq_append, List.filter_append, List.append_eq_nil_iff] at hinner
      simpa using hinner.2
    rw [List.concat_eq_append] at hslash hinner hfollow ⊢
    rw [List.forall_mem_append, List.forall_mem_singleton] at hslash
    have hends : endsInSlash (base.descend (front ++ [""])).text = true := by
      rw [Path.descend_concat, Path.endsInSlash_child_eq
        (Path.descend_text_ne (resolve_eq_ok_iff.1 hbase).1.2.1 hslash.1) hslash.2, decide_eq_true rfl]
    refine resolve_eq_ok_iff.2 ⟨hfollow, ?_⟩
    rw [namesTo_descend_filter (resolve_eq_ok_iff.1 hbase).1.2.1 (by simpa [or_imp, forall_and] using hslash), hinner, List.append_nil, slashOf_of_ne hfollow.2.1, hends]
    exact (leadsTo_of_resolve hbase).slashed

end Descend

theorem endsInSlash_descend (hnames : names.filter (· ≠ "") ≠ []) (hslash : ∀ name ∈ names, '/' ∉ name.toList)
    (hbase : base.text ≠ "") : endsInSlash (base.descend names).text = decide (names.getLast? = some "") := by
  rcases List.eq_nil_or_concat names with rfl | ⟨front, last, rfl⟩
  · exact absurd rfl hnames
  · rw [List.concat_eq_append] at hslash ⊢
    rw [List.forall_mem_append, List.forall_mem_singleton] at hslash
    rw [Path.descend_concat, Path.endsInSlash_child_eq (Path.descend_text_ne hbase hslash.1) hslash.2]
    simp

theorem nul_mem_descend (hslash : ∀ name ∈ names, '/' ∉ name.toList) (hbase : Followable base) :
    '\x00' ∈ (base.descend names).text.toList ↔ ∃ name ∈ names, '\x00' ∈ name.toList := by
  rw [Path.mem_text_descend hbase.2.1 hslash (by decide)]
  exact or_iff_right hbase.1

/-- The same names lead to the same place in two directories that hold the same, or to nothing in both, unless one of
the two paths comes to a limit. -/
theorem SameTree.resolve_descend (same : SameTree fs fs' dir dir') (hbase : fs.resolve true base = .ok (.found dir .directory))
    (hbase' : fs'.resolve true base' = .ok (.found dir' .directory)) (hslash : ∀ name ∈ names, '/' ∉ name.toList)
    (hup : ".." ∉ names) (hend : names = [] → follow = true) :
    Alongside dir dir' (fs.resolve follow (base.descend names)) (fs'.resolve follow (base'.descend names)) := by
  obtain ⟨hfollow, -⟩ := resolve_eq_ok_iff.1 hbase
  obtain ⟨hfollow', -⟩ := resolve_eq_ok_iff.1 hbase'
  have hne := Path.descend_text_ne hfollow.2.1 hslash
  have hne' := Path.descend_text_ne hfollow'.2.1 hslash
  by_cases hnul : ∃ name ∈ names, '\x00' ∈ name.toList
  · rw [resolve, resolve, if_pos (by simpa using (nul_mem_descend hslash hfollow).2 hnul),
      if_pos (by simpa using (nul_mem_descend hslash hfollow').2 hnul)]
    exact .fault _
  have hfree := mt (nul_mem_descend hslash hfollow).1 hnul
  have hfree' := mt (nul_mem_descend hslash hfollow').1 hnul
  by_cases hlong : tooLong ≤ (base.descend names).text.utf8ByteSize
  · refine .here _ (.inr ?_)
    rw [resolve, if_neg (by simpa using hfree), if_neg (by simpa using hne), if_pos hlong]
  by_cases hlong' : tooLong ≤ (base'.descend names).text.utf8ByteSize
  · refine .there _ (.inr ?_)
    rw [resolve, if_neg (by simpa using hfree'), if_neg (by simpa using hne'), if_pos hlong']
  have hfollowable : Followable (base.descend names) := ⟨hfree, hne, Nat.lt_of_not_le hlong⟩
  have hfollowable' : Followable (base'.descend names) := ⟨hfree', hne', Nat.lt_of_not_le hlong'⟩
  by_cases hinner : names.filter (· ≠ "") = []
  · rw [resolve_descend_nil hbase hslash hinner hend hfollowable,
      resolve_descend_nil hbase' hslash hinner hend hfollowable']
    have hfound : Alongside dir dir' (.ok (.found (dir ++ []) .directory)) (.ok (.found (dir' ++ []) .directory)) :=
      .found [] .directory
    rwa [List.append_nil, List.append_nil] at hfound
  · obtain ⟨links, hlinks⟩ := exists_resolve_descend hbase hslash hinner
    obtain ⟨links', hlinks'⟩ := exists_resolve_descend hbase' hslash hinner
    have hupInner : ".." ∉ names.filter (· ≠ "") := fun hmem => hup (List.mem_of_mem_filter hmem)
    rw [hlinks follow hfollowable, hlinks' follow hfollowable', endsInSlash_descend hinner hslash hfollow.2.1,
      endsInSlash_descend hinner hslash hfollow'.2.1]
    exact walk_alongside_here same.entries (same.enclosed _ _ hupInner) (same.enclosed' _ _ hupInner)

end ModPackager.FileSystem
