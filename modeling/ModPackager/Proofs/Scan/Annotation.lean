import ModPackager.Proofs.Patch.Descriptor
import ModPackager.Proofs.Scan.Source
import ModPackager.Proofs.TypeScript.Declarations

/-!
# Annotated functions and their sites

A descriptor comes from a site: an item of the module, one of the two places of the function that it declares, and a
comment that leads this place (`Yields`). The search goes through items, places and comments in three nested loops.
If each loop numbers what it goes through, the results come with their sites (`annotations`), in order because
numbers grow (`pairwise_numbered`), and every site turns up that gives something (`mem_annotations`). In a module
that was parsed no item begins before the functions of the earlier ones, so each comment has one site at most
(`Yields.site_inj`).
-/

namespace ModPackager.Scan

open TypeScript

/-! ### Numbered results -/

section Numbered

variable {α β : Type} {f : α → List β} {l : List α}

/-- What the elements of a list give, each with the number of its element. -/
def numbered (f : α → List β) (l : List α) : List (Nat × β) := l.zipIdx.flatMap fun a => (f a.1).map (a.2, ·)

theorem numbered_map_snd : (numbered f l).map (·.2) = l.flatMap f := by
  have hdrop (a : α × Nat) : ((f a.1).map (a.2, ·)).map (·.2) = f a.1 := by simp [Function.comp_def]
  rw [numbered, List.map_flatMap]
  simp only [hdrop]
  rw [← List.flatMap_map, List.zipIdx_map_fst]

theorem mem_numbered {k : Nat} {b : β} : (k, b) ∈ numbered f l ↔ ∃ a, l[k]? = some a ∧ b ∈ f a := by
  simp only [numbered, List.mem_flatMap, List.mem_map, Prod.mk.injEq, Prod.exists, List.mem_zipIdx_iff_getElem?]
  constructor
  · rintro ⟨a, k, ha, b, hb, rfl, rfl⟩
    exact ⟨a, ha, hb⟩
  · rintro ⟨a, ha, hb⟩
    exact ⟨a, k, ha, b, hb, rfl, rfl⟩

/-- Results of different elements come in the order of the elements, those of one element in their own order. -/
theorem pairwise_numbered {R : β → β → Prop} (h : ∀ a, (f a).Pairwise R) :
    (numbered f l).Pairwise fun x y => x.1 < y.1 ∨ x.1 = y.1 ∧ R x.2 y.2 := by
  refine List.pairwise_flatMap.2 ⟨fun a _ => ?_, ?_⟩
  · exact List.pairwise_map.2 ((h a.1).imp fun hR => .inr ⟨rfl, hR⟩)
  · have hplaces : (l.zipIdx.map (·.2)).Pairwise (· < ·) := by
      rw [List.zipIdx_map_snd]
      exact List.pairwise_lt_range'
    refine (List.pairwise_map.1 hplaces).imp fun hlt x hx y hy => .inl ?_
    obtain ⟨_, _, rfl⟩ := List.mem_map.1 hx
    obtain ⟨_, _, rfl⟩ := List.mem_map.1 hy
    exact hlt

end Numbered

/-! ### Sites -/

/-- Where documentation stands in a module: the item, which place of the item's function, and the comment, each by
its number. -/
structure Site where
  item : Nat
  place : Nat
  comment : Nat

/-- Sites in source order. -/
def Site.Before (a b : Site) : Prop :=
  a.item < b.item ∨ a.item = b.item ∧ (a.place < b.place ∨ a.place = b.place ∧ a.comment < b.comment)

/-- The places of a function that comments may lead, by their number: the item that declares the function comes
first, and the function itself second if it stands elsewhere. -/
inductive Documented (item : Item) (start : Nat) : Nat → Nat → Prop
  | item : Documented item start 0 item.start
  | function (h : start ≠ item.start) : Documented item start 1 start

/-- A site gives a descriptor: it has a documentation block in front of a named function, and the last type in the
block is not empty. The descriptor says what the block says, with the function's name and the line of its item. -/
inductive Yields (path : Path) (module : Module) : Site → PatchDescriptor → Prop
  | block {site : Site} {item : Item} {name text type : String} {start place : Nat}
      (hitem : module.items[site.item]? = some item) (hfunction : item.function = some ⟨some name, start⟩)
      (hplace : Documented item start site.place place)
      (hcomment : module.comments[site.comment]? = some (place, ⟨true, text⟩))
      (hopener : text.toList.head? = some '*')
      (htype : PatchDescriptor.lastText? .type (DocComment.parse text) = some type) (hne : type ≠ "") :
      Yields path module site
        ((PatchDescriptor.reading name (DocComment.parse text)).located path.text (module.lineAt item.start))

variable {path : Path} {module : Module} {item : Item} {site : Site} {descriptor : PatchDescriptor}

/-- The places that the search goes through are the documented ones, with their numbers. -/
theorem documented_iff {name : Option String} {start number place : Nat} :
    (documentedPlaces item.start ⟨name, start⟩)[number]? = some place ↔ Documented item start number place := by
  unfold documentedPlaces
  constructor
  · intro h
    split at h
    · obtain _ | number := number
      · cases h
        exact .item
      · simp at h
    next hne =>
      obtain _ | _ | number := number
      · cases h
        exact .item
      · cases h
        exact .function (by simpa using hne)
      · simp at h
  · rintro (_ | hne)
    · split <;> rfl
    · rw [if_neg (by simpa using hne)]
      rfl

/-! ### Comments -/

/-- What a comment gives for a function at a place. -/
def given? (path : Path) (line : Nat) (name : String) (place : Nat) (comment : Nat × Comment) :
    Option PatchDescriptor :=
  if comment.1 == place && (comment.2.block && DocComment.isDocumentation comment.2.text.toList) then
    (PatchDescriptor.ofTags? name (DocComment.parse comment.2.text)).map (·.located path.text line)
  else none

theorem isDocumentation_iff {text : List Char} : DocComment.isDocumentation text = true ↔ text.head? = some '*' := by
  unfold DocComment.isDocumentation
  split
  · simp
  next h =>
    cases text with
    | nil => simp
    | cons c text =>
        have hc : c ≠ '*' := by
          rintro rfl
          exact h text rfl
        simp [hc]

theorem given?_eq_some_iff {line place : Nat} {name : String} {comment : Nat × Comment} :
    given? path line name place comment = some descriptor
      ↔ ∃ text type, comment = (place, ⟨true, text⟩) ∧ text.toList.head? = some '*'
        ∧ PatchDescriptor.lastText? .type (DocComment.parse text) = some type ∧ type ≠ ""
        ∧ descriptor = (PatchDescriptor.reading name (DocComment.parse text)).located path.text line := by
  obtain ⟨at', block, text⟩ := comment
  simp only [given?, Bool.and_eq_true, beq_iff_eq, isDocumentation_iff, Prod.mk.injEq, Comment.mk.injEq]
  constructor
  · intro h
    split at h
    next hcomment =>
        obtain ⟨rfl, rfl, hopener⟩ := hcomment
        obtain ⟨found, hfound, rfl⟩ := Option.map_eq_some_iff.1 h
        have hreads := PatchDescriptor.reads_of_ofTags? hfound
        obtain ⟨rfl, hne⟩ := PatchDescriptor.ofTags?_eq_some hfound
        exact ⟨text, _, ⟨rfl, rfl, rfl⟩, hopener, hreads.type, hne, rfl⟩
    · cases h
  · rintro ⟨text, type, ⟨rfl, rfl, rfl⟩, hopener, htype, hne, rfl⟩
    rw [if_pos ⟨rfl, rfl, hopener⟩, PatchDescriptor.ofTags?_eq, if_neg]
    · rfl
    · simpa [PatchDescriptor.reading, htype] using hne

/-- The comments that lead a place are found one by one. -/
theorem filterMap_leading (path : Path) (module : Module) (line : Nat) (name : String) (place : Nat) :
    ((module.leading place).filter fun comment =>
        comment.block && DocComment.isDocumentation comment.text.toList).filterMap (fun comment =>
          (PatchDescriptor.ofTags? name (DocComment.parse comment.text)).map (·.located path.text line))
      = module.comments.flatMap fun comment => (given? path line name place comment).toList := by
  rw [← List.filterMap_eq_flatMap_toList, Module.leading, List.filterMap_filter, List.filterMap_map,
    List.filterMap_filter]
  refine List.filterMap_congr fun comment _ => ?_
  simp only [given?, Function.comp_apply]
  cases comment.1 == place <;> rfl

/-! ### Items -/

theorem itemDescriptors_named {name : String} {start : Nat} (h : item.function = some ⟨some name, start⟩) :
    itemDescriptors path module item = (documentedPlaces item.start ⟨some name, start⟩).flatMap fun place =>
      module.comments.flatMap fun comment => (given? path (module.lineAt item.start) name place comment).toList := by
  simp only [itemDescriptors, h, documentation, List.filter_flatMap, List.filterMap_flatMap, filterMap_leading]

theorem itemDescriptors_unnamed (h : ∀ name start, item.function ≠ some ⟨some name, start⟩) :
    itemDescriptors path module item = [] := by
  unfold itemDescriptors
  split
  · rfl
  next function hfunction =>
      split
      · rfl
      next name hname =>
          obtain ⟨_, start⟩ := function
          obtain rfl : _ = some name := hname
          exact absurd hfunction (h name start)

/-- What an item gives, each descriptor with the number of the place and of the comment. -/
def itemAnnotations (path : Path) (module : Module) (item : Item) : List (Nat × Nat × PatchDescriptor) :=
  match item.function with
  | some ⟨some name, start⟩ =>
    numbered (fun place =>
      numbered (fun comment => (given? path (module.lineAt item.start) name place comment).toList) module.comments)
      (documentedPlaces item.start ⟨some name, start⟩)
  | _ => []

theorem itemAnnotations_cases (path : Path) (module : Module) (item : Item) :
    (∃ name start, item.function = some ⟨some name, start⟩ ∧ itemAnnotations path module item = numbered (fun place =>
      numbered (fun comment => (given? path (module.lineAt item.start) name place comment).toList) module.comments)
        (documentedPlaces item.start ⟨some name, start⟩))
    ∨ (∀ name start, item.function ≠ some ⟨some name, start⟩) ∧ itemAnnotations path module item = [] := by
  unfold itemAnnotations
  split
  next name start hfunction => exact .inl ⟨name, start, hfunction, rfl⟩
  next hnone => exact .inr ⟨hnone, rfl⟩

theorem itemAnnotations_map (path : Path) (module : Module) (item : Item) :
    (itemAnnotations path module item).map (·.2.2) = itemDescriptors path module item := by
  have hsplit {α β γ : Type} (l : List (α × β × γ)) : l.map (·.2.2) = (l.map (·.2)).map (·.2) := by simp
  obtain ⟨name, start, hfunction, heq⟩ | ⟨hnone, heq⟩ := itemAnnotations_cases path module item
  · rw [heq, itemDescriptors_named hfunction, hsplit, numbered_map_snd, List.map_flatMap]
    simp only [numbered_map_snd]
  · rw [heq, itemDescriptors_unnamed hnone, List.map_nil]

theorem mem_itemAnnotations {number k : Nat} :
    (number, k, descriptor) ∈ itemAnnotations path module item
      ↔ ∃ name start place comment, item.function = some ⟨some name, start⟩ ∧ Documented item start number place
        ∧ module.comments[k]? = some comment
        ∧ given? path (module.lineAt item.start) name place comment = some descriptor := by
  obtain ⟨name, start, hfunction, heq⟩ | ⟨hnone, heq⟩ := itemAnnotations_cases path module item
  · simp only [heq, mem_numbered, documented_iff, Option.mem_toList]
    constructor
    · rintro ⟨place, hplace, comment, hcomment, hgiven⟩
      exact ⟨name, start, place, comment, hfunction, hplace, hcomment, hgiven⟩
    · rintro ⟨name', start', place, comment, hfunction', hplace, hcomment, hgiven⟩
      cases hfunction.symm.trans hfunction'
      exact ⟨place, hplace, comment, hcomment, hgiven⟩
  · rw [heq]
    refine iff_of_false List.not_mem_nil ?_
    rintro ⟨name, start, -, -, hfunction, -⟩
    exact hnone name start hfunction

theorem pairwise_itemAnnotations (path : Path) (module : Module) (item : Item) :
    (itemAnnotations path module item).Pairwise fun a b => a.1 < b.1 ∨ a.1 = b.1 ∧ a.2.1 < b.2.1 := by
  obtain ⟨name, start, -, heq⟩ | ⟨-, heq⟩ := itemAnnotations_cases path module item
  · have hsingle (o : Option PatchDescriptor) : o.toList.Pairwise fun _ _ => False := by
      cases o with
      | none => exact .nil
      | some _ => exact List.pairwise_singleton _ _
    have hplace (place : Nat) : (numbered (fun comment =>
        (given? path (module.lineAt item.start) name place comment).toList) module.comments).Pairwise
          fun a b => a.1 < b.1 := by
      refine (pairwise_numbered fun comment => hsingle _).imp ?_
      rintro a b (hlt | ⟨-, ⟨⟩⟩)
      exact hlt
    rw [heq]
    exact pairwise_numbered hplace
  · rw [heq]
    exact .nil

/-! ### Modules -/

/-- What a module gives, each descriptor with its site. -/
def annotations (path : Path) (module : Module) : List (Site × PatchDescriptor) :=
  (numbered (itemAnnotations path module) module.items).map fun a => (⟨a.1, a.2.1, a.2.2.1⟩, a.2.2.2)

theorem annotations_map (path : Path) (module : Module) :
    (annotations path module).map (·.2) = moduleDescriptors path module := by
  -- The numbers are dropped loop by loop, from the outermost one.
  have hsplit {α β γ δ : Type} (l : List (α × β × γ × δ)) : l.map (·.2.2.2) = (l.map (·.2)).map (·.2.2) := by simp
  rw [annotations, List.map_map]
  simp only [Function.comp_def]
  rw [hsplit, numbered_map_snd, List.map_flatMap]
  simp only [itemAnnotations_map, moduleDescriptors]

theorem pairwise_annotations (path : Path) (module : Module) :
    (annotations path module).Pairwise fun a b => a.1.Before b.1 :=
  List.pairwise_map.2 (pairwise_numbered (pairwise_itemAnnotations path module))

theorem mem_annotations : (site, descriptor) ∈ annotations path module ↔ Yields path module site descriptor := by
  have hmem : (site, descriptor) ∈ annotations path module
      ↔ ∃ item, module.items[site.item]? = some item
        ∧ (site.place, site.comment, descriptor) ∈ itemAnnotations path module item := by
    rw [← mem_numbered, annotations, List.mem_map]
    constructor
    · rintro ⟨a, ha, heq⟩
      cases heq
      exact ha
    · intro h
      exact ⟨_, h, rfl⟩
  rw [hmem]
  constructor
  · rintro ⟨item, hitem, hannotation⟩
    obtain ⟨name, start, place, comment, hfunction, hplace, hcomment, hgiven⟩ := mem_itemAnnotations.1 hannotation
    obtain ⟨text, type, rfl, hopener, htype, hne, rfl⟩ := given?_eq_some_iff.1 hgiven
    exact .block hitem hfunction hplace hcomment hopener htype hne
  · rintro ⟨hitem, hfunction, hplace, hcomment, hopener, htype, hne⟩
    refine ⟨_, hitem, mem_itemAnnotations.2 ⟨_, _, _, _, hfunction, hplace, hcomment, ?_⟩⟩
    exact given?_eq_some_iff.2 ⟨_, _, rfl, hopener, htype, hne, rfl⟩

/-! ### Comments that give nothing -/

/-- A comment that is no documentation block, or stands in front of no named function, may as well be left out. -/
theorem moduleDescriptors_leave {before after : List (Nat × Comment)} {place : Nat} {comment : Comment}
    (hcomments : module.comments = before ++ (place, comment) :: after)
    (hidle : comment.block = true → comment.text.toList.head? = some '*' → ∀ item ∈ module.items,
      ∀ name start number, item.function = some ⟨some name, start⟩ → ¬Documented item start number place) :
    moduleDescriptors path { module with comments := before ++ after } = moduleDescriptors path module := by
  refine List.flatMap_congr fun item hitem => ?_
  by_cases hnamed : ∃ name start, item.function = some ⟨some name, start⟩
  · obtain ⟨name, start, hfunction⟩ := hnamed
    rw [itemDescriptors_named hfunction, itemDescriptors_named hfunction]
    refine List.flatMap_congr fun place' hplace' => ?_
    -- If the comment gave something here, it would be a documentation block in front of the function after all.
    have hnone : given? path (module.lineAt item.start) name place' (place, comment) = none := by
      by_contra hsome
      obtain ⟨descriptor, hgiven⟩ := Option.ne_none_iff_exists'.1 hsome
      obtain ⟨text, type, heq, hopener, -⟩ := given?_eq_some_iff.1 hgiven
      cases heq
      obtain ⟨number, hnumber⟩ := List.mem_iff_getElem?.1 hplace'
      exact hidle rfl hopener item hitem name start number hfunction (documented_iff.1 hnumber)
    simp only [hcomments, List.flatMap_append, List.flatMap_cons, hnone, Option.toList_none, List.nil_append]
    rfl
  · rw [itemDescriptors_unnamed (by simpa using hnamed), itemDescriptors_unnamed (by simpa using hnamed)]

/-! ### Each block once -/

theorem Documented.bounds {start number place : Nat} (h : Documented item start number place)
    (hle : item.start ≤ start) : item.start ≤ place ∧ place ≤ start := by
  cases h with
  | item => exact ⟨Nat.le_refl _, hle⟩
  | function => exact ⟨hle, Nat.le_refl _⟩

theorem Documented.number_inj {start number number' place : Nat} (h : Documented item start number place)
    (h' : Documented item start number' place) : number = number' := by
  cases h with
  | item =>
      cases h' with
      | item => rfl
      | function hne => exact absurd rfl hne
  | function hne =>
      cases h' with
      | item => exact absurd rfl hne
      | function => rfl

/-- The documentation of an earlier item leads earlier places. -/
theorem Yields.comment_ne {site' : Site} {descriptor' : PatchDescriptor}
    (hmodule : Module.Declared module.text module.items) (h : Yields path module site descriptor)
    (h' : Yields path module site' descriptor') (hlt : site.item < site'.item) : site.comment ≠ site'.comment := by
  intro hsame
  obtain ⟨hitem, hfunction, hplace, hcomment⟩ := h
  obtain ⟨hitem', hfunction', hplace', hcomment'⟩ := h'
  rw [hsame, hcomment'] at hcomment
  cases hcomment
  obtain ⟨hi, rfl⟩ := List.getElem?_eq_some_iff.1 hitem
  obtain ⟨hj, rfl⟩ := List.getElem?_eq_some_iff.1 hitem'
  -- The places of the earlier item end with its function, and the later item begins behind that.
  have hbefore := List.pairwise_iff_getElem.1 hmodule.2 _ _ hi hj hlt _ hfunction
  have hle := (hmodule.1 _ (List.getElem_mem hi) _ hfunction).1
  have hle' := (hmodule.1 _ (List.getElem_mem hj) _ hfunction').1
  have hfront := (hplace.bounds hle).2
  have hback := (hplace'.bounds hle').1
  simp only at hbefore
  omega

/-- Where items end behind their functions, no comment leads two of them, nor one of them twice. -/
theorem Yields.site_inj {site' : Site} {descriptor' : PatchDescriptor}
    (hmodule : Module.Declared module.text module.items) (h : Yields path module site descriptor)
    (h' : Yields path module site' descriptor') (hsame : site.comment = site'.comment) : site = site' := by
  obtain hlt | heq | hgt := Nat.lt_trichotomy site.item site'.item
  · exact absurd hsame (h.comment_ne hmodule h' hlt)
  · obtain ⟨hitem, hfunction, hplace, hcomment⟩ := h
    obtain ⟨hitem', hfunction', hplace', hcomment'⟩ := h'
    rw [hsame, hcomment'] at hcomment
    cases hcomment
    rw [heq, hitem'] at hitem
    cases hitem
    rw [hfunction'] at hfunction
    cases hfunction
    obtain ⟨item, number, comment⟩ := site
    obtain ⟨item', number', comment'⟩ := site'
    obtain rfl : item = item' := heq
    obtain rfl : comment = comment' := hsame
    obtain rfl : number = number' := hplace.number_inj hplace'
    rfl
  · exact absurd hsame.symm (h'.comment_ne hmodule h hgt)

/-! ### The search -/

/-- A source in which an exported function has documentation at both its places, besides an inner function and a
nameless one. -/
def exportedSource : String :=
  "/** @lovelyType p */ export /** @lovelyType q */ function f() \x7b\n"
    ++ "/** @lovelyType r */ function g() \x7b\x7d \x7d\n"
    ++ "// @lovelyType s\n/** @lovelyType t */ export default function () \x7b\x7d\n"

end ModPackager.Scan
