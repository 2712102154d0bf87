import Mathlib.Data.List.Basic
import Mathlib.Data.List.Induction
import ModPackager.Patch.Descriptor

/-!
# The last word of a block

A descriptor is made by a fold over the tags of a block, one record after the other. What the fold comes to can
be read off the tags without it: each field but one is the text of the last tag of its name, and the captured
locals are the texts of all tags of theirs (`reading`). The step adds one tag at the end (`record_reading`), so
the induction over a block goes from its end (`foldl_record`). Since a name sees no tags but its own, neither
tags of other names nor the order among tags of different names make a difference (`ofTags?_congr`).
-/

namespace ModPackager

/-! ### The names of patch tags -/

/-- The name that a patch tag is written with. -/
def PatchTag.name : PatchTag → String
  | .target => "lovelyTarget"
  | .pattern => "lovelyPattern"
  | .position => "lovelyPosition"
  | .type => "lovelyType"
  | .matchIndent => "lovelyMatchIndent"
  | .captureLocal => "lovelyCaptureLocal"
  | .payloadBefore => "lovelyPayloadPrefix"
  | .payloadAfter => "lovelyPayloadSuffix"

@[simp]
theorem PatchTag.ofName?_name (kind : PatchTag) : ofName? kind.name = some kind := by
  cases kind <;> rfl

theorem PatchTag.name_of_ofName? {kind : PatchTag} {name : String} (h : ofName? name = some kind) :
    name = kind.name := by
  unfold ofName? at h
  split at h <;> cases h <;> rfl

@[simp]
theorem PatchTag.name_inj {kind other : PatchTag} : kind.name = other.name ↔ kind = other := by
  refine ⟨fun h => ?_, congrArg name⟩
  have hkind := congrArg ofName? h
  simpa using hkind

theorem PatchTag.ofName?_eq_none_iff {name : String} : ofName? name = none ↔ ∀ kind : PatchTag, name ≠ kind.name := by
  constructor
  · rintro h kind rfl
    simp at h
  · intro h
    cases hkind : ofName? name with
    | none => rfl
    | some kind => exact absurd (name_of_ofName? hkind) (h kind)

namespace PatchDescriptor

variable {kind : PatchTag} {tag : Tag} {tags tags' : List Tag} {functionName text : String}

/-! ### The tags of a name -/

/-- The texts of the tags of a kind, in order. -/
def textsOf (kind : PatchTag) (tags : List Tag) : List String := (tags.filter (·.name == kind.name)).map (·.text)

/-- The text of the last tag of a kind. -/
def lastText? (kind : PatchTag) (tags : List Tag) : Option String := (textsOf kind tags).getLast?

theorem textsOf_concat (kind : PatchTag) (tags : List Tag) (tag : Tag) :
    textsOf kind (tags ++ [tag]) = textsOf kind tags ++ if tag.name = kind.name then [tag.text] else [] := by
  by_cases h : tag.name = kind.name <;> simp [textsOf, h]

theorem lastText?_concat (kind : PatchTag) (tags : List Tag) (tag : Tag) :
    lastText? kind (tags ++ [tag]) = if tag.name = kind.name then some tag.text else lastText? kind tags := by
  by_cases h : tag.name = kind.name <;> simp [lastText?, textsOf_concat, h]

/-! ### Quotes -/

/-- A text and what is left of it without one pair of double quotes around it. A lone quote counts as a pair
around nothing, and a text without a quote at both ends stays as it is. -/
inductive Unquoted : String → String → Prop
  | pair (inner : String) : Unquoted ("\"" ++ inner ++ "\"") inner
  | lone : Unquoted "\"" ""
  | bare {text : String} (h : ¬(text.toList.head? = some '"' ∧ text.toList.getLast? = some '"')) : Unquoted text text

theorem unquoted_stripQuotes (text : String) : Unquoted text (String.ofList (stripQuotes text.toList)) := by
  unfold stripQuotes
  split
  next hquotes =>
      obtain ⟨hhead, hlast⟩ : text.toList.head? = some '"' ∧ text.toList.getLast? = some '"' := by
        simpa using hquotes
      obtain ⟨tail, htext⟩ := List.head?_eq_some_iff.1 hhead
      rcases List.eq_nil_or_concat' tail with rfl | ⟨inner, last, rfl⟩
      · obtain rfl : text = "\"" := String.toList_inj.1 htext
        exact .lone
      · rw [htext] at hlast ⊢
        rw [← List.cons_append, List.getLast?_concat] at hlast
        obtain rfl := Option.some.inj hlast
        obtain rfl : text = "\"" ++ String.ofList inner ++ "\"" := String.toList_inj.1 (by simp [htext])
        simpa using Unquoted.pair (String.ofList inner)
  next hquotes =>
      rw [String.ofList_toList]
      exact .bare (by simpa using hquotes)

/-! ### What a block comes to -/

/-- The descriptor that the tags of a block amount to, whether or not they name a type. -/
def reading (functionName : String) (tags : List Tag) : PatchDescriptor where
  functionName
  target := (lastText? .target tags).getD ""
  pattern := (lastText? .pattern tags).getD ""
  position := (lastText? .position tags).getD ""
  type := (lastText? .type tags).getD ""
  matchIndent := (lastText? .matchIndent tags).all (· == "true")
  locals := textsOf .captureLocal tags
  payloadBefore := (lastText? .payloadBefore tags).map fun text => String.ofList (stripQuotes text.toList)
  payloadAfter := lastText? .payloadAfter tags

/-- Recording one more tag is reading it at the end. -/
theorem record_reading (functionName : String) (tags : List Tag) (tag : Tag) :
    record (reading functionName tags) tag = reading functionName (tags ++ [tag]) := by
  cases hkind : PatchTag.ofName? tag.name with
  | none =>
      have hother := PatchTag.ofName?_eq_none_iff.1 hkind
      simp only [record, hkind]
      simp [reading, lastText?_concat, textsOf_concat, hother]
  | some kind =>
      have hname := PatchTag.name_of_ofName? hkind
      simp only [record, hkind]
      cases kind <;> simp [reading, lastText?_concat, textsOf_concat, hname]

theorem foldl_record (functionName : String) (tags : List Tag) :
    tags.foldl record { functionName } = reading functionName tags := by
  induction tags using List.reverseRecOn with
  | nil => rfl
  | append_singleton tags tag ih => rw [List.foldl_append, ih, List.foldl_cons, List.foldl_nil, record_reading]

theorem ofTags?_eq (functionName : String) (tags : List Tag) :
    ofTags? functionName tags
      = if (reading functionName tags).type = "" then none else some (reading functionName tags) := by
  simp only [ofTags?, foldl_record, String.isEmpty_iff]

/-! ### The last word -/

/-- A descriptor that says what the tags of a function's block say: in each field the text of the last tag of
its kind, and all captured locals. The payload calls the function on them, between the texts around it. -/
structure Reads (function : String) (tags : List Tag) (descriptor : PatchDescriptor) : Prop where
  functionName : descriptor.functionName = function
  target : descriptor.target = (lastText? .target tags).getD ""
  pattern : descriptor.pattern = (lastText? .pattern tags).getD ""
  position : descriptor.position = (lastText? .position tags).getD ""
  type : lastText? .type tags = some descriptor.type
  matchIndent : descriptor.matchIndent = true ↔ ∀ text ∈ lastText? .matchIndent tags, text = "true"
  locals : descriptor.locals = textsOf .captureLocal tags
  payloadBefore : Option.Rel Unquoted (lastText? .payloadBefore tags) descriptor.payloadBefore
  payloadAfter : descriptor.payloadAfter = lastText? .payloadAfter tags
  payload : descriptor.payload = descriptor.payloadBefore.getD "" ++ function ++ "("
    ++ ", ".intercalate (textsOf .captureLocal tags) ++ ")" ++ (lastText? .payloadAfter tags).getD ""
  unlocated : descriptor.source = "" ∧ descriptor.line = 0

theorem ofTags?_eq_none_iff :
    ofTags? functionName tags = none ↔ lastText? .type tags = none ∨ lastText? .type tags = some "" := by
  rw [ofTags?_eq]
  cases htype : lastText? .type tags with
  | none => simp [reading, htype]
  | some type => simp [reading, htype]

theorem ofTags?_eq_some {descriptor : PatchDescriptor} (h : ofTags? functionName tags = some descriptor) :
    descriptor = reading functionName tags ∧ descriptor.type ≠ "" := by
  rw [ofTags?_eq] at h
  split at h
  · cases h
  next htype =>
      obtain rfl := Option.some.inj h
      exact ⟨rfl, htype⟩

theorem reads_of_ofTags? {descriptor : PatchDescriptor} (h : ofTags? functionName tags = some descriptor) :
    Reads functionName tags descriptor := by
  obtain ⟨rfl, htype⟩ := ofTags?_eq_some h
  refine ⟨rfl, rfl, rfl, rfl, ?_, ?_, rfl, ?_, rfl, rfl, rfl, rfl⟩
  · cases hlast : lastText? .type tags with
    | none => simp [reading, hlast] at htype
    | some type => simp [reading, hlast]
  · cases hlast : lastText? .matchIndent tags <;> simp [reading, hlast]
  · cases hlast : lastText? .payloadBefore tags with
    | none => simp [reading, hlast]
    | some text => simpa [reading, hlast] using Option.Rel.some (unquoted_stripQuotes text)

/-- Blocks with the same tags of every kind, each kind in its order, give the same descriptor. -/
theorem ofTags?_congr (h : ∀ kind : PatchTag, textsOf kind tags = textsOf kind tags') :
    ofTags? functionName tags = ofTags? functionName tags' := by
  have hreading : reading functionName tags = reading functionName tags' := by
    simp only [reading, lastText?, h]
  rw [ofTags?_eq, ofTags?_eq, hreading]

/-- A block gives no descriptor just if it has no type tag or the last one is empty, and otherwise the one that
its last tags speak of. Tags that do not speak about patches may stand anywhere in it, and tags of different
names in any order. -/
theorem ofTags?_reads (functionName : String) (tags : List Tag) :
    (ofTags? functionName tags = none ↔ lastText? .type tags = none ∨ lastText? .type tags = some "")
      ∧ (∀ descriptor, ofTags? functionName tags = some descriptor → Reads functionName tags descriptor)
      ∧ (∀ before after other, tags = before ++ after → (∀ kind : PatchTag, other.name ≠ kind.name) →
          ofTags? functionName (before ++ other :: after) = ofTags? functionName tags)
      ∧ ∀ tags', (∀ name, tags'.filter (·.name == name) = tags.filter (·.name == name)) →
          ofTags? functionName tags' = ofTags? functionName tags := by
  refine ⟨ofTags?_eq_none_iff, fun _ => reads_of_ofTags?, ?_, ?_⟩
  · rintro before after other rfl hother
    refine ofTags?_congr fun kind => ?_
    simp [textsOf, hother kind]
  · intro tags' hnames
    refine ofTags?_congr fun kind => ?_
    rw [textsOf, textsOf, hnames]

/-- Tags of a block that sets its type twice and captures a local twice. -/
def repeatedTags : List Tag :=
  [⟨"lovelyType", "regex"⟩, ⟨"lovelyCaptureLocal", "a"⟩, ⟨"lovelyType", "copy"⟩, ⟨"lovelyCaptureLocal", "a"⟩,
    ⟨"lovelyPayloadPrefix", "\"x = \""⟩, ⟨"lovelyMatchIndent", "yes"⟩]

/-- The second type stands, both locals are kept, and the quotes around the prefix go. An unknown tag in the
middle and another order of the kinds change nothing. -/
theorem ofTags?_reads_repeatedTags :
    ∃ descriptor, ofTags? "f" repeatedTags = some descriptor ∧ Reads "f" repeatedTags descriptor
      ∧ (descriptor.type, descriptor.locals, descriptor.matchIndent, descriptor.payload)
          = ("copy", ["a", "a"], false, "x = f(a, a)")
      ∧ ofTags? "f" (repeatedTags.take 2 ++ ⟨"author", "me"⟩ :: repeatedTags.drop 2) = some descriptor
      ∧ ofTags? "f" (repeatedTags.drop 4 ++ repeatedTags.take 4) = some descriptor := by
  obtain ⟨hnone, hreads, hinsert, horder⟩ := ofTags?_reads "f" repeatedTags
  have hsome : (ofTags? "f" repeatedTags).isSome := by
    rw [Option.isSome_iff_ne_none, ne_eq, hnone]
    decide
  obtain ⟨descriptor, hdescriptor⟩ := Option.isSome_iff_exists.1 hsome
  refine ⟨descriptor, hdescriptor, hreads descriptor hdescriptor, ?_, ?_, ?_⟩
  · obtain rfl : _ = descriptor := Option.some.inj hdescriptor
    decide
  · rw [hinsert _ _ ⟨"author", "me"⟩ (List.take_append_drop 2 repeatedTags).symm
      (PatchTag.ofName?_eq_none_iff.1 rfl), hdescriptor]
  · refine (horder _ fun name => ?_).trans hdescriptor
    by_cases hbefore : "lovelyPayloadPrefix" = name
    · subst hbefore
      decide
    · by_cases hindent : "lovelyMatchIndent" = name
      · subst hindent
        decide
      · simp [repeatedTags, List.filter_cons, hbefore, hindent]

end PatchDescriptor

end ModPackager
