import ModPackager.Patch.Manifest
import ModPackager.Proofs.Toml.Document

/-!
# Manifests are read back

A manifest writes its values without escapes. Where the values need none, the document is well formed and
decodes to the version and one repeated table for each patch, in order and with nothing merged
(`manifests_decode`). Both manifests are the header and a sequence of blocks with blank lines between them, so
each is shown to be made of chunks that add one table (`Adds`), and one induction on the chunks reads both.
-/

namespace ModPackager.Manifest

open Toml

variable {name : List Char} {descriptor : PatchDescriptor}

/-! ### What a manifest says -/

/-- The entries of a manifest with the given patches. -/
def entriesOf (patches : List Value) : List (String × Value) :=
  ("manifest", .table [("version", .string "1.0.0")]) ::
    match patches with
    | [] => []
    | patches => [("patches", .array patches)]

/-- The patch that a descriptor asks for. -/
def patchValue (honorMatchIndent : Bool) (descriptor : PatchDescriptor) : Value :=
  .table [(descriptor.type, .table [
    ("target", .string descriptor.target),
    ("pattern", .string descriptor.pattern),
    ("position", .string descriptor.position),
    ("match_indent", .boolean (if honorMatchIndent then descriptor.matchIndent else true)),
    ("payload", .string descriptor.payload)])]

/-- The patch that appends a deployed script to the host's entry file. -/
def scriptValue (file : String) : Value :=
  .table [("copy", .table [
    ("target", .string "main.lua"),
    ("sources", .array [.string ("extra_lua/" ++ file)]),
    ("position", .string "append")])]

/-- A descriptor whose values need no escapes. -/
structure Writable (descriptor : PatchDescriptor) : Prop where
  type : BareKey descriptor.type.toList
  target : Quotable descriptor.target.toList
  pattern : Quotable descriptor.pattern.toList
  position : Quotable descriptor.position.toList
  payload : Blockable descriptor.payload.toList
  payload_head : descriptor.payload.toList.head? ≠ some '\n'

/-! ### Lines of a manifest -/

/-- A line of a block with what it enters. -/
def field (name equals : String) (text : List Char) (value : Value) : List Char × String × Value :=
  (name.toList ++ equals.toList ++ text, name, value)

/-- A string between quotes. -/
def quoted (text : String) : List Char := '"' :: (text.toList ++ ['"'])

theorem enters_field {name equals : String} {text : List Char} {value : Value} (hname : BareKey name.toList)
    (hequals : equals.toList = " = ".toList ∨ equals.toList = "=".toList) (hspells : Spells text value) :
    Enters (field name equals text value).1 (field name equals text value).2.1 (field name equals text value).2.2 := by
  have hentered := enters hname hequals hspells
  rwa [String.ofList_toList] at hentered

theorem spells_string {text : String} (h : Quotable text.toList) : Spells (quoted text) (.string text) := by
  have hspells := spells_quoted h
  rwa [String.ofList_toList] at hspells

/-! ### Chunks of a manifest -/

/-- Between two chunks of a manifest: the patches so far. -/
def Holds (draft : Draft) (patches : List Value) : Prop :=
  draft.Holds [("manifest", .table [("version", .string "1.0.0")])] "patches" patches

/-- A chunk that adds one patch. -/
def Adds (chunk : List Char) (patch : Value) : Prop :=
  ∀ draft patches rest, Holds draft patches →
    ∃ draft', Leads draft (chunk ++ rest) draft' rest ∧ Holds draft' (patches ++ [patch])

theorem Adds.blank {chunk : List Char} {patch : Value} (h : Adds chunk patch) : Adds ('\n' :: chunk) patch := by
  intro draft patches rest hholds
  obtain ⟨draft', hleads, hholds'⟩ := h draft patches rest hholds
  exact ⟨draft', Leads.blank.trans hleads, hholds'⟩

/-- A block adds the patch whose one table has the values of its lines. -/
theorem adds_block {fields : List (List Char × String × Value)} (hname : BareKey name)
    (hfields : ∀ field ∈ fields, Enters field.1 field.2.1 field.2.2) (hnames : (fields.map (·.2.1)).Nodup) :
    Adds (blockText "patches".toList name fields) (.table [(String.ofList name, .table (fields.map Prod.snd))]) := by
  intro draft patches rest hholds
  have htables : BareKey "patches".toList := by decide
  exact Draft.Holds.block hholds (by decide) htables hname hfields hnames

theorem leads_chunks {chunks : List (List Char × Value)} (hchunks : ∀ chunk ∈ chunks, Adds chunk.1 chunk.2)
    {draft : Draft} {patches : List Value} (hholds : Holds draft patches) :
    ∃ draft', Leads draft (chunks.flatMap Prod.fst) draft' [] ∧ Holds draft' (patches ++ chunks.map Prod.snd) := by
  induction chunks generalizing draft patches with
  | nil => exact ⟨draft, .refl, by simpa using hholds⟩
  | cons chunk chunks ih =>
      obtain ⟨hchunk, hrest⟩ := List.forall_mem_cons.1 hchunks
      obtain ⟨draft', hleads, hholds'⟩ := hchunk draft patches (chunks.flatMap Prod.fst) hholds
      obtain ⟨draft'', hleads', hholds''⟩ := ih hrest hholds'
      exact ⟨draft'', hleads.trans hleads', by simpa using hholds''⟩

/-- The header of a manifest leaves a draft without patches. -/
theorem leads_header {tail left : List Char} (hline : EndsLine tail left) :
    ∃ draft, Leads .empty (header.toList ++ tail) draft left ∧ Holds draft [] := by
  have htable : BareKey "manifest".toList := by decide
  have hversion : Enters (field "version" " = " (quoted "1.0.0") (.string "1.0.0")).1 "version" (.string "1.0.0") :=
    enters_field (by decide) (.inl rfl) (spells_string (by decide))
  generalize hentry : (field "version" " = " (quoted "1.0.0") (.string "1.0.0")).1 = entry at hversion
  have htext : header.toList ++ tail = '[' :: ("manifest".toList ++ ']' :: '\n' :: (entry ++ tail)) := by
    subst hentry
    rfl
  obtain ⟨key, place, hname, hopen⟩ := leads_table .empty htable (entry ++ tail)
  have hopened := hopen ⟨⟨.header, []⟩, some ⟨[], key⟩, false, ⟨.header, []⟩, some place⟩ rfl
  obtain ⟨versionKey, node, span, hversionKey, hnode, hentered⟩ :=
    hversion ⟨⟨.header, []⟩, some ⟨[], key⟩, false, ⟨.header, []⟩, some place⟩ tail left hline rfl rfl
  refine ⟨_, htext ▸ hopened.trans hentered, .empty [(key, .table .header [(versionKey, node)] span)] ?_ rfl⟩
  simp [entryValues, Node.value, hname, hversionKey, hnode]

theorem entryValues_of_holds {draft : Draft} {patches : List Value} (h : Holds draft patches) :
    ∃ root, draft.close = some root ∧ entryValues root.entries = entriesOf patches := by
  cases h with
  | empty entries hentries hclose => exact ⟨_, hclose, hentries⟩
  | filled entries key elements hentries hkey hne hclose =>
      refine ⟨_, hclose, ?_⟩
      cases elements with
      | nil => exact absurd rfl hne
      | cons element elements =>
          simp [withTables, entryValues_append, hentries, entryValues, hkey, Node.value, valuesOf, entriesOf]

/-- A header with chunks behind it, perhaps with a blank line between them, decodes to the patches of the
chunks. -/
theorem parse_chunks (chunks : List (List Char × Value)) {tail left : List Char}
    (hchunks : ∀ chunk ∈ chunks, Adds chunk.1 chunk.2) (hline : EndsLine tail left)
    (hleft : left = chunks.flatMap Prod.fst ∨ left = '\n' :: chunks.flatMap Prod.fst) :
    (parse (header.toList ++ tail)).map entryValues = some (entriesOf (chunks.map Prod.snd)) := by
  obtain ⟨draft, hheader, hholds⟩ := leads_header hline
  obtain ⟨draft', hleads, hholds'⟩ := leads_chunks hchunks hholds
  have hall : Leads .empty (header.toList ++ tail) draft' [] := by
    rcases hleft with rfl | rfl
    · exact hheader.trans hleads
    · exact hheader.trans (Leads.blank.trans hleads)
  obtain ⟨root, hclose, hentries⟩ := entryValues_of_holds hholds'
  rw [Leads.parse rfl hall hclose, Option.map_some, hentries]
  rfl

/-! ### Both manifests -/

/-- The lines of a scanned patch. -/
def patchFields (honorMatchIndent : Bool) (descriptor : PatchDescriptor) : List (List Char × String × Value) :=
  let matchIndent := if honorMatchIndent then descriptor.matchIndent else true
  [field "target" " = " (quoted descriptor.target) (.string descriptor.target),
    field "pattern" " = " (quoted descriptor.pattern) (.string descriptor.pattern),
    field "position" " = " (quoted descriptor.position) (.string descriptor.position),
    field "match_indent" " = " (if matchIndent then "true" else "false").toList (.boolean matchIndent),
    field "payload" " = " ("\"\"\"".toList ++ (descriptor.payload.toList ++ "\"\"\"".toList))
      (.string descriptor.payload)]

/-- The lines that append a deployed script. -/
def scriptFields (file : String) : List (List Char × String × Value) :=
  [field "target" "=" (quoted "main.lua") (.string "main.lua"),
    field "sources" "=" ('[' :: '"' :: (("extra_lua/" ++ file).toList ++ ['"', ']']))
      (.array [.string ("extra_lua/" ++ file)]),
    field "position" "=" (quoted "append") (.string "append")]

theorem adds_patch (h : Writable descriptor) (honorMatchIndent : Bool) :
    Adds (blockText "patches".toList descriptor.type.toList (patchFields honorMatchIndent descriptor))
      (patchValue honorMatchIndent descriptor) := by
  have hpayload := spells_block h.payload h.payload_head
  rw [String.ofList_toList] at hpayload
  have hfields : ∀ line ∈ patchFields honorMatchIndent descriptor, Enters line.1 line.2.1 line.2.2 := by
    simp only [patchFields, List.forall_mem_cons, List.not_mem_nil, false_implies, implies_true, and_true]
    exact ⟨enters_field (by decide) (.inl rfl) (spells_string h.target),
      enters_field (by decide) (.inl rfl) (spells_string h.pattern),
      enters_field (by decide) (.inl rfl) (spells_string h.position),
      enters_field (by decide) (.inl rfl) (spells_boolean _),
      enters_field (by decide) (.inl rfl) hpayload⟩
  have hadds := adds_block h.type hfields (by simp [patchFields, field])
  rwa [String.ofList_toList] at hadds

theorem adds_script {file : String} (h : Quotable file.toList) :
    Adds (blockText "patches".toList "copy".toList (scriptFields file)) (scriptValue file) := by
  have hpath : Quotable ("extra_lua/" ++ file).toList := by
    rw [String.toList_append]
    exact .append (by decide) h
  have hsources := spells_array hpath
  rw [String.ofList_toList] at hsources
  have hfields : ∀ line ∈ scriptFields file, Enters line.1 line.2.1 line.2.2 := by
    simp only [scriptFields, List.forall_mem_cons, List.not_mem_nil, false_implies, implies_true, and_true]
    exact ⟨enters_field (by decide) (.inr rfl) (spells_string (by decide)),
      enters_field (by decide) (.inr rfl) hsources,
      enters_field (by decide) (.inr rfl) (spells_string (by decide))⟩
  have hname : BareKey "copy".toList := by decide
  exact adds_block hname hfields (by simp [scriptFields, field])

theorem toList_renderPatch (honorMatchIndent : Bool) (descriptor : PatchDescriptor) :
    (renderPatch honorMatchIndent descriptor).toList = '\n' :: '\n' ::
      blockText "patches".toList descriptor.type.toList (patchFields honorMatchIndent descriptor) := by
  have hindent : (!honorMatchIndent || descriptor.matchIndent)
      = if honorMatchIndent then descriptor.matchIndent else true := by
    cases honorMatchIndent <;> rfl
  unfold renderPatch blockText
  simp only [hindent, patchFields, field, quoted, payloadDelimiter, String.toList_append,
    String.reduceToList, List.flatMap_cons, List.flatMap_nil, List.append_assoc, List.cons_append, List.nil_append]

theorem toList_renderScript (file : String) :
    (renderScript file).toList = blockText "patches".toList "copy".toList (scriptFields file) := by
  unfold renderScript blockText
  simp only [scriptFields, field, quoted, String.toList_append, String.reduceToList,
    List.flatMap_cons, List.flatMap_nil, List.append_assoc, List.cons_append, List.nil_append]

theorem parse_renderPatches {descriptors : List PatchDescriptor} (h : ∀ descriptor ∈ descriptors, Writable descriptor)
    (honorMatchIndent : Bool) :
    (parse (renderPatches descriptors honorMatchIndent).toList).map entryValues
      = some (entriesOf (descriptors.map (patchValue honorMatchIndent))) := by
  rw [renderPatches, String.toList_append, String.toList_join, List.flatMap_map]
  cases descriptors with
  | nil => exact parse_chunks [] (by simp) (.inl ⟨rfl, rfl⟩) (.inl rfl)
  | cons first more =>
      obtain ⟨hfirst, hmore⟩ := List.forall_mem_cons.1 h
      have hchunks := parse_chunks
        ((blockText "patches".toList first.type.toList (patchFields honorMatchIndent first),
            patchValue honorMatchIndent first)
          :: more.map fun d => ((renderPatch honorMatchIndent d).toList, patchValue honorMatchIndent d))
        (List.forall_mem_cons.2 ⟨adds_patch hfirst honorMatchIndent, ?_⟩) (.inr rfl) (.inr rfl)
      · simpa [toList_renderPatch, List.flatMap_map, Function.comp_def] using hchunks
      · intro chunk hchunk
        obtain ⟨d, hd, rfl⟩ := List.mem_map.1 hchunk
        rw [toList_renderPatch]
        exact (adds_patch (hmore d hd) honorMatchIndent).blank.blank

theorem intercalate_cons (separator first : List Char) (more : List (List Char)) :
    separator.intercalate (first :: more) = first ++ more.flatMap (separator ++ ·) := by
  induction more generalizing first with
  | nil => simp
  | cons next more ih => simp [List.intercalate_cons_cons, ih]

theorem parse_renderScripts {files : List String} (h : ∀ file ∈ files, Quotable file.toList) :
    (parse (renderScripts files).toList).map entryValues = some (entriesOf (files.map scriptValue)) := by
  rw [renderScripts, String.toList_append, String.toList_append, String.toList_intercalate, List.append_assoc]
  cases files with
  | nil => exact parse_chunks [] (by simp) (.inr rfl) (.inr rfl)
  | cons first more =>
      obtain ⟨hfirst, hmore⟩ := List.forall_mem_cons.1 h
      have hchunks := parse_chunks
        (((renderScript first).toList, scriptValue first)
          :: more.map fun file => ('\n' :: (renderScript file).toList, scriptValue file))
        (List.forall_mem_cons.2 ⟨toList_renderScript first ▸ adds_script hfirst, ?_⟩) (.inr rfl) (.inr rfl)
      · simpa [intercalate_cons, List.flatMap_map, Function.comp_def] using hchunks
      · intro chunk hchunk
        obtain ⟨file, hfile, rfl⟩ := List.mem_map.1 hchunk
        rw [toList_renderScript]
        exact (adds_script (hmore file hfile)).blank

/-- Manifests decode to what was rendered: the version and one patch for each descriptor or script, in order. -/
theorem manifests_decode :
    (∀ descriptors honorMatchIndent, (∀ descriptor ∈ descriptors, Writable descriptor) →
      (parse (renderPatches descriptors honorMatchIndent).toList).map entryValues
        = some (entriesOf (descriptors.map (patchValue honorMatchIndent))))
      ∧ ∀ files, (∀ file ∈ files, Quotable file.toList) →
        (parse (renderScripts files).toList).map entryValues = some (entriesOf (files.map scriptValue)) :=
  ⟨fun _ honorMatchIndent h => parse_renderPatches h honorMatchIndent, fun _ => parse_renderScripts⟩

/-- A patch whose payload begins and ends with two quotes. -/
def quotedCall : PatchDescriptor where
  functionName := "f"
  target := "main.lua"
  pattern := "x = 'y'"
  position := "after"
  type := "pattern"
  matchIndent := false
  locals := ["a", "b"]
  payloadBefore := some "\"\"x = \""
  payloadAfter := some "\n\"\""

/-- The same patch twice is two patches, with their quotes. -/
theorem manifests_decode_quotedCall :
    Writable quotedCall ∧ quotedCall.payload = "\"\"x = \"f(a, b)\n\"\""
      ∧ (parse (renderPatches [quotedCall, quotedCall] true).toList).map entryValues
        = some (entriesOf [patchValue true quotedCall, patchValue true quotedCall])
      ∧ Quotable "a b.lua".toList
      ∧ (parse (renderScripts ["a b.lua"]).toList).map entryValues = some (entriesOf [scriptValue "a b.lua"]) := by
  have hpayload : quotedCall.payload = "\"\"x = \"f(a, b)\n\"\"" := by decide +kernel
  have hwritable : Writable quotedCall :=
    ⟨by decide, by decide, by decide, by decide, hpayload ▸ by decide, hpayload ▸ by decide⟩
  have hfile : Quotable "a b.lua".toList := by decide
  exact ⟨hwritable, hpayload, manifests_decode.1 _ true (by simpa using hwritable), hfile,
    manifests_decode.2 _ (by simpa using hfile)⟩

end ModPackager.Manifest
