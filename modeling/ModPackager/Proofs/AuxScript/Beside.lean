import ModPackager.Proofs.AuxScript.Staging
import ModPackager.Proofs.Deploy.Holding

/-!
# Scripts in their place

Compiling a script recompiles all of them, so what lies in the auxiliary directory between two jobs is anybody's
guess; what lies at the place of the scripts is not. A `Shelf` is an invariant that tells which scripts are in
place. It does not depend on the products of the compiler, it goes on with each script that is put in its place
under a new name, and each script that it tells of is found on its path.

There is one for every deploy root that compiling happens beside of: below the site of the root, if it has one
(`Site.shelf`), and without any scripts on it, if it has none (`Blocked.shelf`).
-/

namespace ModPackager

open FileSystem FileAction Deploy

variable {fs now later : FileSystem} {root : Path} {settings : Settings} {place location dir : Location}
  {name : String} {job : Job} {contents : ByteArray} {scripts : List (String × ByteArray)}

/-- The entries of the auxiliary directory that the compiler may change, with what lies below them: all but
those that are named like sources. -/
def Product (fs : FileSystem) (settings : Settings) (place : Location) : Prop :=
  ∃ dir name below, fs.canonical? settings.auxDir = some dir ∧ Text.dropEnding? name ".ts" = none
    ∧ place = dir ++ name :: below

/-- What compiling scripts and putting them in their place may change. -/
abbrev Touched (fs : FileSystem) (root : Path) (settings : Settings) (place : Location) : Prop :=
  Affected fs (root.child scriptDir) place ∨ Product fs settings place

/-- Scripts are compiled beside the directory where they are put: that directory and the auxiliary one do not lie
in each other, the ways to both lead past nothing that changes, and there are no links where scripts are put. -/
structure Beside (fs : FileSystem) (root : Path) (settings : Settings) : Prop where
  wellFormed : fs.WellFormed
  /-- Every parent on the way to the scripts is taken in a directory that is there. -/
  parents : ∀ before after, fs.namesTo (root.child scriptDir) = before ++ ".." :: after →
    ∃ dir, fs.LeadsTo before dir
  /-- The way to the scripts does not run below their directory. -/
  outside : ∀ dir, fs.LeadsTo (fs.namesTo (root.child scriptDir)) dir →
    ∀ place ∈ fs.way (root.child scriptDir), ¬ Beneath dir place
  unlinked : ∀ site : Site fs (root.child scriptDir), ∀ place text, Beneath site.dir place →
    fs.entry? place ≠ some (.link text)
  apart : ∀ dir, fs.canonical? settings.auxDir = some dir → ∀ site : Site fs (root.child scriptDir),
    ¬ dir <+: site.dir ∧ ¬ site.dir <+: dir
  rootWay : ∀ place ∈ fs.way (root.child scriptDir), ¬ Product fs settings place
  auxWay : ∀ place ∈ fs.way settings.auxDir, ¬ Touched fs root settings place

namespace Beside

variable (beside : Beside fs root settings)

include beside

theorem not_prefix_product (site : Site fs (root.child scriptDir)) (h : Product fs settings place) :
    ¬ place <+: site.dir ∧ ¬ site.dir <+: place := by
  obtain ⟨dir, name, below, hdir, -, rfl⟩ := h
  obtain ⟨habove, hbelow⟩ := beside.apart dir hdir site
  refine ⟨fun h => habove ((List.prefix_append _ _).trans h), fun h => ?_⟩
  rcases List.prefix_or_prefix_of_prefix h (List.prefix_append dir (name :: below)) with hsite | hsite
  · exact hbelow hsite
  · exact habove hsite

theorem aside : Aside fs (root.child scriptDir) (Product fs settings) where
  way := beside.rootWay
  above := fun site _ h => (beside.not_prefix_product site h).1
  below := fun site _ h => (beside.not_prefix_product site h).2

theorem spares (site : Site fs (root.child scriptDir)) : site.Spares (Product fs settings) :=
  beside.aside.spares_of_outside beside.wellFormed site beside.outside

/-- The auxiliary directory stays where it is. -/
theorem resolve_aux (h : Changes (Touched fs root settings) fs now) {follow : Bool} :
    now.resolve follow settings.auxDir = fs.resolve follow settings.auxDir := h.resolve beside.auxWay

end Beside

/-! ### Shelves -/

/-- An invariant that tells which scripts are in their place. -/
structure Shelf (fs : FileSystem) (root : Path) (settings : Settings)
    (holds : List (String × ByteArray) → FileSystem → Prop) : Prop where
  reach : ∀ {scripts now}, holds scripts now → Changes (Touched fs root settings) fs now
  closed : ∀ {scripts now later}, holds scripts now → Changes (Product fs settings) now later → holds scripts later
  parent : ∀ {scripts job name}, IsJob settings root job name →
    Maintains (holds scripts) (createParent job.deployPath) fun _ => True
  write : ∀ {scripts job name contents now later}, IsJob settings root job name →
    (∀ script ∈ scripts, script.1 ≠ scriptTarget name) → holds scripts now →
    writeBytes job.deployPath contents now = .ok () later →
    holds ((scriptTarget name, contents) :: scripts) later
      ∧ ∀ dir below, fs.canonical? settings.auxDir = some dir →
        later.entry? (dir ++ below) = now.entry? (dir ++ below)
  drop : ∀ {script scripts now}, holds (script :: scripts) now → holds scripts now
  read : ∀ {scripts now name contents}, holds scripts now → (name, contents) ∈ scripts →
    ∃ dir, now.resolve true ((root.child scriptDir).child name) = .ok (.found (dir ++ [name]) (.file contents))

/-- The path of a script goes on from the directory of scripts. -/
theorem IsJob.extends_scripts (h : IsJob settings root job name) :
    Extends (root.child scriptDir) job.deployPath [scriptTarget name] := by
  obtain ⟨hempty, -, -, hslash⟩ := scriptTarget_plain h.valid
  rw [h.deployPath_eq]
  exact (extends_refl (Path.text_child_ne (by decide) (by decide))).child hempty hslash

theorem staysInside_scriptTarget (h : ValidName name) : staysInside 0 [scriptTarget name] = true := by
  obtain ⟨-, hdot, hup, -⟩ := scriptTarget_plain h
  exact staysInside_of_plain (by simpa using ⟨hdot, hup⟩)

/-- The file of each script. -/
def Shelved (scripts : List (String × ByteArray)) (rel : List String) (entry : Entry) : Prop :=
  ∃ script ∈ scripts, Layer.ofFile [script.1] script.2 rel = some entry

/-- What a shelf below a site holds. -/
structure Deploy.Site.Stocks (site : Site fs (root.child scriptDir)) (settings : Settings)
    (scripts : List (String × ByteArray)) (now : FileSystem) : Prop where
  holds : site.Holds (Product fs settings) (Shelved scripts) now
  straight : ∀ script ∈ scripts, Extends (root.child scriptDir) ((root.child scriptDir).child script.1) [script.1]
    ∧ Straight ((root.child scriptDir).child script.1) [script.1]

/-- The names of a straight path of one name spell that name. -/
theorem Deploy.Straight.climb_eq {path : Path} (h : Straight path [name]) : climb [] [name] = [name] := by
  have hproper := h.proper [] List.nil_prefix (by simp)
  rw [climb_nil, climb_cons, climb_nil] at hproper
  rw [climb_cons, climb_nil]
  unfold climbStep at hproper ⊢
  split
  next hdot => simp [hdot] at hproper
  · split
    next hup => simp [hup] at hproper
    · rfl

/-- Below a site scripts stay in their place. -/
theorem Deploy.Site.shelf (site : Site fs (root.child scriptDir)) (beside : Beside fs root settings) :
    Shelf fs root settings (site.Stocks settings) where
  reach := fun h => h.holds.prepared.changes.weaken fun hplace => hplace.imp_left site.affected_iff.2
  closed := by
    intro scripts now later h hchanges
    refine ⟨h.holds.beside (h.holds.prepared.trans_extra hchanges) fun place hplace => ?_, h.straight⟩
    exact hchanges.entries place fun hproduct => (beside.not_prefix_product site hproduct).2 hplace.1
  parent := by
    intro scripts job name hjob
    have hpath := hjob.extends_scripts
    have hinside := staysInside_scriptTarget hjob.valid
    refine createParent_maintains fun {now location} h hmakes => ⟨?_, h.straight⟩
    exact h.holds.makes (beside.spares site) beside.wellFormed hpath hinside hmakes
  write := by
    intro scripts job name contents now later hjob hfresh h hrun
    have hpath := hjob.extends_scripts
    have hinside := staysInside_scriptTarget hjob.valid
    have hspares := beside.spares site
    have hplain : climb [] [scriptTarget name] = [scriptTarget name] := by
      obtain ⟨-, hdot, hup, -⟩ := scriptTarget_plain hjob.valid
      rw [climb_cons, climb_nil, climbStep_of_ne hdot hup, List.nil_append]
    have hfree : ∀ old, ¬ Shelved scripts (climb [] [scriptTarget name]) (.file old) := by
      rintro old ⟨script, hmem, hfile⟩
      have hplace := Layer.eq_climb_of_ofFile hfile
      rw [hplain, (h.straight script hmem).2.climb_eq] at hplace
      exact hfresh script hmem (List.cons.inj hplace).1.symm
    obtain ⟨hstraight, hheld⟩ :=
      writeBytes_holds hspares beside.wellFormed hpath hinside (by simp) h.holds hfree hrun
    refine ⟨⟨hheld.weaken ?_, ?_⟩, fun dir below hdir => ?_⟩
    · rintro rel entry ⟨script, hmem, hentry⟩
      rcases List.mem_cons.1 hmem with rfl | hmem
      · exact .inr hentry
      · exact .inl ⟨script, hmem, hentry⟩
    · rintro script hmem
      rcases List.mem_cons.1 hmem with rfl | hmem
      · rw [hjob.deployPath_eq] at hpath hstraight
        exact ⟨hpath, hstraight⟩
      · exact h.straight script hmem
    · obtain ⟨location, hwrites, rfl⟩ := writeBytes_inv hrun
      obtain ⟨-, hlocation⟩ := h.holds.prepared.writesAt hspares hpath hinside (by simp) hwrites
      have hwritable := hwrites.writable (h.holds.prepared.changes.wellFormed beside.wellFormed)
      refine entry?_put_of_ne hwritable.ne_nil fun heq => ?_
      obtain ⟨habove, hbelow⟩ := beside.apart dir hdir site
      rw [hlocation, hplain] at heq
      have hprefix : dir <+: site.dir ++ [scriptTarget name] := heq ▸ List.prefix_append _ _
      rcases List.prefix_concat_iff.1 hprefix with rfl | hprefix
      · exact hbelow (List.prefix_append _ _)
      · exact habove hprefix
  drop := by
    intro script scripts now h
    refine ⟨h.holds.weaken ?_, fun other hmem => h.straight other (List.mem_cons_of_mem _ hmem)⟩
    rintro rel entry ⟨other, hmem, hentry⟩
    exact ⟨other, List.mem_cons_of_mem _ hmem, hentry⟩
  read := by
    intro scripts now name contents h hmem
    obtain ⟨hpath, hstraight⟩ := h.straight _ hmem
    have hclimb := hstraight.climb_eq
    have hinside : staysInside 0 [name] = true := by
      have hproper := hstraight.proper [] List.nil_prefix (by simp)
      refine staysInside_of_plain fun other hother => ?_
      rw [List.mem_singleton.1 hother]
      constructor <;> intro heq <;> simp [heq] at hproper
    have hfound := h.holds.resolve_file (beside.spares site) beside.wellFormed hpath hinside (by simp) hstraight
      fun rel entry hentry => ⟨_, hmem, hentry⟩
    rw [hclimb] at hfound
    exact ⟨site.dir, hfound⟩

/-- Before anything is put there a shelf is empty. -/
theorem Deploy.Site.stocks_nil (site : Site fs (root.child scriptDir)) (beside : Beside fs root settings) :
    site.Stocks settings [] fs where
  holds := by
    refine ⟨⟨.refl fs, fun front hfront => site.not_link beside.wellFormed hfront, fun place hplace text => ?_⟩, ?_⟩
    · by_cases hsite : place = site.dir
      · exact hsite ▸ site.not_link beside.wellFormed (List.prefix_refl _) text
      · exact beside.unlinked site place text ⟨hplace, hsite⟩
    · rintro rel entry - ⟨script, hmem, -⟩
      cases hmem
  straight := nofun

/-- Where a file is in the way, no script is put in its place. -/
theorem Deploy.Blocked.shelf {front : List String} (hblocked : Blocked fs (root.child scriptDir) front)
    (beside : Beside fs root settings) :
    Shelf fs root settings fun scripts now => scripts = [] ∧ Changes (Product fs settings) fs now where
  reach := fun h => h.2.weaken .inr
  closed := fun h hchanges => ⟨h.1, h.2.trans hchanges⟩
  parent := by
    intro scripts job name hjob
    refine createParent_maintains fun {now location} h hmakes => ?_
    exact absurd hmakes ((hblocked.of_changes beside.aside h.2).not_makesAt hjob.extends_scripts (by simp))
  write := by
    intro scripts job name contents now later hjob _ h hrun
    obtain ⟨location, hwrites, -⟩ := writeBytes_inv hrun
    exact absurd hwrites ((hblocked.of_changes beside.aside h.2).not_writesAt hjob.extends_scripts (by simp))
  drop := fun h => absurd h.1 (by simp)
  read := fun h hmem => absurd hmem (by simp [h.1])

/-- Beside the auxiliary directory there is always a shelf, and it is empty at first. -/
theorem Beside.exists_shelf (beside : Beside fs root settings) :
    ∃ holds, Shelf fs root settings holds ∧ holds [] fs := by
  rcases site_or_blocked beside.wellFormed beside.parents with ⟨⟨site⟩⟩ | ⟨front, hblocked⟩
  · exact ⟨_, site.shelf beside, site.stocks_nil beside⟩
  · exact ⟨_, hblocked.shelf beside, rfl, .refl fs⟩

end ModPackager
