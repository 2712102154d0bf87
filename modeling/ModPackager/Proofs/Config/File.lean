import Mathlib
import ModPackager.Config.Settings
import ModPackager.Proofs.FileSystem.Action
import ModPackager.Proofs.Toml.Distinct

/-!
# What a configuration file sets

The documented keys of a configuration file come with the kinds of their values (`ConfigFile.keys`,
`CompilerSettings.keys`). Entries are decoded one by one, and each either fits, and is then what its key stands for, or
makes the file unsuitable (`foldlM_reads`). So a document is accepted just where all of its entries fit, and its reading
gives every key the value that the document has for it (`ConfigFile.ofEntries_eq_ok`).

At the top an entry fits if its key is documented and its value of the right kind. The table of the compiler is less
strict: a key that is not documented fits as well and is passed over, and instead of a table there may be a list, read
by position, or a date, which sets nothing (`ConfigFile.conforms_iff`).
-/

namespace ModPackager

open Toml FileAction

/-! ### Kinds of values -/

namespace Toml

/-- The text that a value is. -/
def Value.text? : Value → Option String
  | .string text => some text
  | _ => none

/-- The flag that a value is. -/
def Value.flag? : Value → Option Bool
  | .boolean b => some b
  | _ => none

/-- The number, not negative, that a value is. -/
def Value.count? : Value → Option Nat
  | .integer n => if 0 ≤ n then some n.toNat else none
  | _ => none

/-- The texts that a value lists. -/
def Value.texts? : Value → Option (List String)
  | .array items => items.mapM Value.text?
  | _ => none

/-- A kind of values. -/
inductive Kind
  | text
  | flag
  | count
  | texts
deriving DecidableEq, Repr

/-- Whether a value is of a kind. -/
def Kind.holds : Kind → Value → Bool
  | .text, value => value.text?.isSome
  | .flag, value => value.flag?.isSome
  | .count, value => value.count?.isSome
  | .texts, value => value.texts?.isSome

/-! ### Decoders -/

section Decoders

variable {α β : Type} {node : Node}

theorem Decoded.bind_eq_ok {decoded : Decoded α} {next : α → Decoded β} {b : β} :
    decoded >>= next = .ok b ↔ ∃ a, decoded = .ok a ∧ next a = .ok b := by
  change Except.bind decoded next = _ ↔ _
  cases decoded <;> simp [Except.bind]

theorem decodeText_eq_ok {expected text : String} :
    decodeText expected node = .ok text ↔ node.value.text? = some text := by
  rcases node with ⟨_ | _ | _ | _ | _, _⟩ | _ | _ | _ <;>
    simp [decodeText, wrongType, Node.value, Scalar.value, Value.text?]

theorem decodeFlag_eq_ok {b : Bool} : decodeFlag node = .ok b ↔ node.value.flag? = some b := by
  rcases node with ⟨_ | _ | _ | _ | _, _⟩ | _ | _ | _ <;>
    simp [decodeFlag, wrongType, Node.value, Scalar.value, Value.flag?]

theorem decodeCount_eq_ok {n : Nat} : decodeCount node = .ok n ↔ node.value.count? = some n := by
  rcases node with ⟨_ | m | _ | _ | _, _⟩ | _ | _ | _
  case scalar.integer =>
    simp only [decodeCount, Node.value, Scalar.value, Value.count?]
    split <;> simp
  all_goals simp [decodeCount, wrongType, Node.value, Scalar.value, Value.count?]

theorem valuesOf_eq (nodes : List Node) : valuesOf nodes = nodes.map Node.value := by
  induction nodes with
  | nil => rfl
  | cons node nodes ih => rw [valuesOf, ih, List.map_cons]

theorem entryValues_eq (entries : Entries) :
    entryValues entries = entries.map fun entry => (entry.1.name, entry.2.value) := by
  induction entries with
  | nil => rfl
  | cons entry entries ih => rw [entryValues, ih, List.map_cons]

theorem mapM_decodeText_eq_ok {expected : String} {nodes : List Node} {texts : List String} :
    nodes.mapM (decodeText expected) = .ok texts ↔ (nodes.map Node.value).mapM Value.text? = some texts := by
  induction nodes generalizing texts with
  | nil => simp [pure, Except.pure]
  | cons node nodes ih =>
      rw [List.mapM_cons, List.map_cons, List.mapM_cons, Decoded.bind_eq_ok]
      simp only [Decoded.bind_eq_ok, decodeText_eq_ok, ih, Option.bind_eq_bind, Option.bind_eq_some_iff, pure,
        Except.pure, Except.ok.injEq, Option.some.injEq]

theorem decodeTexts_eq_ok {texts : List String} : decodeTexts node = .ok texts ↔ node.value.texts? = some texts := by
  rcases node with ⟨_ | _ | _ | _ | _, _⟩ | _ | _ | _
  case array items _ => simp [decodeTexts, Node.items?, Node.value, Value.texts?, valuesOf_eq, mapM_decodeText_eq_ok]
  case tables elements => simp [decodeTexts, Node.items?, Node.value, Value.texts?, valuesOf_eq, mapM_decodeText_eq_ok]
  all_goals simp [decodeTexts, Node.items?, wrongType, Node.value, Scalar.value, Value.texts?]

/-- A field that is set to what a value is read as. -/
theorem set_eq_ok {γ : Type} {read : Value → Option γ} {decoded : Decoded γ} {set : γ → α} {value : Value} {target a : α}
    (hdecoded : ∀ {c}, decoded = .ok c ↔ read value = some c) (htarget : ∀ c, read value = some c → set c = target) :
    (do return set (← decoded)) = (.ok a : Decoded α) ↔ (read value).isSome ∧ a = target := by
  rw [Decoded.bind_eq_ok]
  constructor
  · rintro ⟨c, hc, hset⟩
    have hread := hdecoded.1 hc
    cases hset
    exact ⟨Option.isSome_of_eq_some hread, htarget c hread⟩
  · rintro ⟨hsome, rfl⟩
    obtain ⟨c, hread⟩ := Option.isSome_iff_exists.1 hsome
    exact ⟨c, hdecoded.2 hread, congrArg Except.ok (htarget c hread)⟩

theorem decodeEntry_eq_ok {key : Key} {decode : Node → Decoded α} {a : α} :
    decodeEntry key node decode = .ok a ↔ decode node = .ok a := by
  unfold decodeEntry
  cases decode node <;> simp

end Decoders

/-! ### Entries one by one -/

/-- Where every item fits and is then what its name stands for, or fails, a list of items is read just where all of
them fit, and as what their names stand for. The last of several items of one name counts. -/
theorem foldlM_reads {α β : Type} {decode : α → β → Decoded α} {reading : (String → Option Value) → α}
    {named : β → String × Value} {fits : String × Value → Prop} {items : List β}
    (hstep : ∀ item ∈ items, ∀ values a, decode (reading (valueOf values)) item = .ok a ↔
      fits (named item) ∧ a = reading (valueOf (named item :: values))) {a : α} :
    items.foldlM decode (reading (valueOf [])) = .ok a ↔
      (∀ item ∈ items, fits (named item)) ∧ a = reading (valueOf (items.map named).reverse) := by
  -- The induction is on the end of the list, where the item is that overrides the ones before it.
  induction items using List.reverseRecOn generalizing a with
  | nil => simp [pure, Except.pure, eq_comm]
  | append_singleton front last ih =>
      have hfront := fun item hitem => hstep item (List.mem_append_left _ hitem)
      have hlast := hstep last (List.mem_append_right _ (List.mem_singleton_self last))
      rw [List.foldlM_append, Decoded.bind_eq_ok]
      simp only [ih hfront, List.foldlM_cons, List.foldlM_nil, bind_pure, List.forall_mem_append, List.map_append,
        List.reverse_append, List.map_cons, List.map_nil, List.reverse_singleton, List.singleton_append,
        List.forall_mem_singleton]
      constructor
      · rintro ⟨_, ⟨hfits, rfl⟩, hrun⟩
        obtain ⟨hfit, rfl⟩ := (hlast _ _).1 hrun
        exact ⟨⟨hfits, hfit⟩, rfl⟩
      · rintro ⟨⟨hfits, hfit⟩, rfl⟩
        exact ⟨_, ⟨hfits, rfl⟩, (hlast _ _).2 ⟨hfit, rfl⟩⟩

end Toml

/-! ### The compiler's table -/

namespace CompilerSettings

/-- The documented keys of the compiler's table, and the kinds of their values. -/
def keys : List (String × Kind) :=
  [("program", .text), ("args", .texts), ("timeout_secs", .count), ("poll_interval_ms", .count)]

/-- An entry is documented and of its kind. -/
def Conforms (entry : String × Value) : Prop := ∃ kind, (entry.1, kind) ∈ keys ∧ kind.holds entry.2

/-- An entry is of its kind if it is documented. -/
def Fits (entry : String × Value) : Prop := ∀ kind, (entry.1, kind) ∈ keys → kind.holds entry.2

/-- The settings for what keys stand for. A key that stands for nothing has its default. -/
def reading (get : String → Option Value) : CompilerSettings :=
  let default : CompilerSettings := {}
  { program := ((get "program").bind Value.text?).getD default.program
    args := ((get "args").bind Value.texts?).getD default.args
    timeoutSecs := ((get "timeout_secs").bind Value.count?).getD default.timeoutSecs
    pollIntervalMs := ((get "poll_interval_ms").bind Value.count?).getD default.pollIntervalMs }

/-- The entries that a value gives: those of a table, or the items of a list by position. A date gives none. -/
def given? : Value → Option (List (String × Value))
  | .table entries => some entries
  | .array items => some ((keys.map Prod.fst).zip items)
  | .dateTime => some []
  | _ => none

theorem fits_iff {name : String} {kind : Kind} {value : Value} (h : (name, kind) ∈ keys) :
    Fits (name, value) ↔ kind.holds value := by
  have hsame : ∀ first ∈ keys, ∀ second ∈ keys, first.1 = second.1 → first.2 = second.2 := by decide
  constructor
  · exact fun hfits => hfits kind h
  · intro hholds other hother
    have hkind : kind = other := hsame _ h _ hother rfl
    exact hkind ▸ hholds

theorem conforms_iff {entry : String × Value} : Conforms entry ↔ Fits entry ∧ entry.1 ∈ keys.map Prod.fst := by
  constructor
  · rintro ⟨kind, hkind, hholds⟩
    exact ⟨(fits_iff hkind).2 hholds, List.mem_map.2 ⟨_, hkind, rfl⟩⟩
  · rintro ⟨hfits, hname⟩
    obtain ⟨⟨_, kind⟩, hkind, rfl⟩ := List.mem_map.1 hname
    exact ⟨kind, hkind, hfits kind hkind⟩

variable {values : List (String × Value)} {name : String} {node : Node} {settings : CompilerSettings}

/-- A field that is decoded is what its key stands for from then on. -/
theorem field_eq_ok {decode : CompilerSettings → Node → Decoded CompilerSettings} (h : (name, decode) ∈ fields) :
    decode (reading (valueOf values)) node = .ok settings ↔
      Fits (name, node.value) ∧ settings = reading (valueOf ((name, node.value) :: values)) := by
  simp only [fields, List.mem_cons, List.not_mem_nil, or_false, Prod.mk.injEq] at h
  rcases h with ⟨rfl, rfl⟩ | ⟨rfl, rfl⟩ | ⟨rfl, rfl⟩ | ⟨rfl, rfl⟩
  · rw [fits_iff (show ("program", Kind.text) ∈ keys by decide)]
    exact set_eq_ok decodeText_eq_ok fun c hc => by simp [reading, valueOf, List.lookup_cons, hc]
  · rw [fits_iff (show ("args", Kind.texts) ∈ keys by decide)]
    exact set_eq_ok decodeTexts_eq_ok fun c hc => by simp [reading, valueOf, List.lookup_cons, hc]
  · rw [fits_iff (show ("timeout_secs", Kind.count) ∈ keys by decide)]
    exact set_eq_ok decodeCount_eq_ok fun c hc => by simp [reading, valueOf, List.lookup_cons, hc]
  · rw [fits_iff (show ("poll_interval_ms", Kind.count) ∈ keys by decide)]
    exact set_eq_ok decodeCount_eq_ok fun c hc => by simp [reading, valueOf, List.lookup_cons, hc]

/-- An entry that is not documented changes nothing. -/
theorem reading_cons_of_undocumented (h : name ∉ keys.map Prod.fst) (value : Value) (values : List (String × Value)) :
    reading (valueOf ((name, value) :: values)) = reading (valueOf values) := by
  simp only [keys, List.map_cons, List.map_nil, List.mem_cons, List.not_mem_nil, or_false, not_or] at h
  obtain ⟨hprogram, hargs, htimeout, hpoll⟩ := h
  simp [reading, valueOf, List.lookup_cons, beq_false_of_ne (Ne.symm hprogram), beq_false_of_ne (Ne.symm hargs),
    beq_false_of_ne (Ne.symm htimeout), beq_false_of_ne (Ne.symm hpoll)]

theorem decodeField_eq_ok (key : Key) :
    decodeField (reading (valueOf values)) (key, node) = .ok settings ↔
      Fits (key.name, node.value) ∧ settings = reading (valueOf ((key.name, node.value) :: values)) := by
  unfold decodeField
  split
  next decode hfield =>
      obtain ⟨before, after, hfields, -⟩ := List.lookup_eq_some_iff.1 hfield
      rw [decodeEntry_eq_ok]
      exact field_eq_ok (hfields ▸ List.mem_append_right _ List.mem_cons_self)
  next hnone =>
      -- A key without a field is not documented, so that nothing is asked of its value.
      have hname : key.name ∉ keys.map Prod.fst := by
        rw [List.lookup_eq_none_iff] at hnone
        change key.name ∉ fields.map Prod.fst
        rintro hmem
        obtain ⟨field, hfield, hsame⟩ := List.mem_map.1 hmem
        simpa [hsame] using hnone field hfield
      have hfits : Fits (key.name, node.value) := fun kind hkind => absurd (List.mem_map.2 ⟨_, hkind, rfl⟩) hname
      rw [reading_cons_of_undocumented hname]
      simp [hfits, eq_comm]

theorem reading_nil : reading (valueOf []) = {} := rfl

/-- The items of a list are read as the fields in order. -/
theorem zip_eq_ok {items : List Node} :
    (fields.zip items).foldlM (fun settings (field, item) => field.2 settings item) {} = .ok settings ↔
      (∀ entry ∈ (keys.map Prod.fst).zip (valuesOf items), Fits entry)
        ∧ settings = reading (valueOf ((keys.map Prod.fst).zip (valuesOf items))) := by
  have hnames : (keys.map Prod.fst).zip (valuesOf items)
      = (fields.zip items).map fun pair => (pair.1.1, pair.2.value) := by
    rw [valuesOf_eq]
    change (fields.map Prod.fst).zip (items.map Node.value) = (fields.zip items).map (Prod.map Prod.fst Node.value)
    exact List.zip_map
  have hdistinct : (((keys.map Prod.fst).zip (valuesOf items)).map Prod.fst).Nodup := by
    rw [List.zip_eq_zip_take_min, List.map_fst_zip (by simp)]
    exact (List.take_sublist _ _).nodup (by decide)
  have hstep : ∀ pair ∈ fields.zip items, ∀ values settings,
      (fun settings ((field, item) : (String × _) × Node) => field.2 settings item) (reading (valueOf values)) pair
          = .ok settings ↔
        Fits (pair.1.1, pair.2.value) ∧ settings = reading (valueOf ((pair.1.1, pair.2.value) :: values)) :=
    fun pair hpair values settings => field_eq_ok (List.of_mem_zip hpair).1
  rw [← reading_nil, foldlM_reads hstep, ← valueOf_reverse hdistinct, hnames, List.forall_mem_map]

/-- The settings are accepted just where all that the value gives fits, and are read from that. -/
theorem ofNode_eq_ok (h : node.Distinct) : ofNode node = .ok settings ↔
    ∃ given, given? node.value = some given ∧ (∀ entry ∈ given, Fits entry) ∧ settings = reading (valueOf given) := by
  rcases node with ⟨_ | _ | _ | _ | _, _⟩ | ⟨items, _⟩ | elements | ⟨_, entries, _⟩
  case scalar.dateTime => simp [ofNode, Node.value, Scalar.value, given?, reading_nil, eq_comm]
  case array => simp [ofNode, Node.items?, Node.value, given?, zip_eq_ok]
  case tables => simp [ofNode, Node.items?, Node.value, given?, zip_eq_ok]
  case table =>
    have hnames := (Node.distinct_table_iff.1 h).names
    rw [← Entries.names_eq] at hnames
    simp only [ofNode, Node.value, given?, Option.some.injEq, exists_eq_left']
    rw [← valueOf_reverse hnames, entryValues_eq, List.forall_mem_map, ← reading_nil]
    exact foldlM_reads fun entry _ values settings => decodeField_eq_ok entry.1
  all_goals simp [ofNode, Node.items?, wrongType, Node.value, Scalar.value, given?]

end CompilerSettings

/-! ### The file -/

namespace ConfigFile

/-- The documented keys of a configuration file apart from the compiler's, and the kinds of their values. -/
def keys : List (String × Kind) :=
  [("include", .text), ("build_dir", .text), ("aux_dir", .text), ("deploy_dir", .text), ("host_app", .text),
    ("honor_match_indent", .flag)]

/-- An entry is documented and of its kind; that of the compiler is a table of such entries. -/
def Conforms (entry : String × Value) : Prop :=
  (∃ kind, (entry.1, kind) ∈ keys ∧ kind.holds entry.2)
    ∨ entry.1 = "compiler" ∧ ∃ inner, entry.2 = .table inner ∧ ∀ entry ∈ inner, CompilerSettings.Conforms entry

/-- An entry is documented and of its kind; all that the one of the compiler gives fits there. -/
def Fits (entry : String × Value) : Prop :=
  (∃ kind, (entry.1, kind) ∈ keys ∧ kind.holds entry.2)
    ∨ entry.1 = "compiler" ∧ ∃ given, CompilerSettings.given? entry.2 = some given
      ∧ ∀ entry ∈ given, CompilerSettings.Fits entry

/-- The file for what keys stand for. -/
def reading (get : String → Option Value) : ConfigFile where
  sources := (get "include").bind Value.text?
  buildDir := (get "build_dir").bind Value.text?
  auxDir := (get "aux_dir").bind Value.text?
  deployDir := (get "deploy_dir").bind Value.text?
  hostApp := (get "host_app").bind Value.text?
  honorMatchIndent := (get "honor_match_indent").bind Value.flag?
  compiler := ((get "compiler").bind CompilerSettings.given?).map fun given => CompilerSettings.reading (valueOf given)

/-- What conforms is what fits, the compiler's settings being a table of documented keys. -/
theorem conforms_iff {entry : String × Value} : Conforms entry ↔ Fits entry
    ∧ (entry.1 = "compiler" → ∃ inner, entry.2 = .table inner
      ∧ ∀ entry ∈ inner, entry.1 ∈ CompilerSettings.keys.map Prod.fst) := by
  obtain ⟨name, value⟩ := entry
  constructor
  · rintro (⟨kind, hkind, hholds⟩ | ⟨rfl, inner, rfl, hinner⟩)
    · refine ⟨.inl ⟨kind, hkind, hholds⟩, ?_⟩
      rintro rfl
      simp [keys] at hkind
    · exact ⟨.inr ⟨rfl, inner, rfl, fun entry hentry => (CompilerSettings.conforms_iff.1 (hinner entry hentry)).1⟩,
        fun _ => ⟨inner, rfl, fun entry hentry => (CompilerSettings.conforms_iff.1 (hinner entry hentry)).2⟩⟩
  · rintro ⟨hfits | ⟨rfl, given, hgiven, hfits⟩, hcompiler⟩
    · exact .inl hfits
    · obtain ⟨inner, rfl, hnames⟩ := hcompiler rfl
      cases hgiven
      exact .inr ⟨rfl, given, rfl, fun entry hentry =>
        CompilerSettings.conforms_iff.2 ⟨hfits entry hentry, hnames entry hentry⟩⟩

theorem fits_iff {name : String} {kind : Kind} {value : Value} (h : (name, kind) ∈ keys) :
    Fits (name, value) ↔ kind.holds value := by
  have hsame : ∀ first ∈ keys, ∀ second ∈ keys, first.1 = second.1 → first.2 = second.2 := by decide
  constructor
  · rintro (⟨other, hother, hholds⟩ | ⟨hname, -⟩)
    · have hkind : kind = other := hsame _ h _ hother rfl
      exact hkind ▸ hholds
    · have hapart : ∀ entry ∈ keys, entry.1 ≠ "compiler" := by decide
      exact absurd hname (hapart _ h)
  · exact fun hholds => .inl ⟨kind, h, hholds⟩

theorem fits_compiler_iff {value : Value} : Fits ("compiler", value) ↔
    ∃ given, CompilerSettings.given? value = some given ∧ ∀ entry ∈ given, CompilerSettings.Fits entry := by
  simp [Fits, keys]

variable {values : List (String × Value)} {name : String} {node : Node} {file : ConfigFile}

theorem mem_of_fits {value : Value} (h : Fits (name, value)) : name ∈ fields.map Prod.fst := by
  rcases h with ⟨kind, hkind, -⟩ | ⟨rfl, -⟩
  · have hall : ∀ entry ∈ keys, entry.1 ∈ fields.map Prod.fst := by decide
    exact hall _ hkind
  · decide

theorem withCompiler_eq_ok (h : node.Distinct) : withCompiler (reading (valueOf values)) node = .ok file ↔
    Fits ("compiler", node.value) ∧ file = reading (valueOf (("compiler", node.value) :: values)) := by
  unfold withCompiler
  rw [Decoded.bind_eq_ok, fits_compiler_iff]
  constructor
  · rintro ⟨settings, hsettings, hfile⟩
    obtain ⟨given, hgiven, hfits, rfl⟩ := (CompilerSettings.ofNode_eq_ok h).1 hsettings
    cases hfile
    exact ⟨⟨given, hgiven, hfits⟩, by simp [reading, valueOf, List.lookup_cons, hgiven]⟩
  · rintro ⟨⟨given, hgiven, hfits⟩, rfl⟩
    refine ⟨_, (CompilerSettings.ofNode_eq_ok h).2 ⟨given, hgiven, hfits, rfl⟩, ?_⟩
    simp [reading, valueOf, List.lookup_cons, hgiven, pure, Except.pure]

/-- A field that is decoded is what its key stands for from then on. -/
theorem field_eq_ok (hdistinct : node.Distinct) {decode : ConfigFile → Node → Decoded ConfigFile}
    (h : (name, decode) ∈ fields) : decode (reading (valueOf values)) node = .ok file ↔
      Fits (name, node.value) ∧ file = reading (valueOf ((name, node.value) :: values)) := by
  simp only [fields, List.mem_cons, List.not_mem_nil, or_false, Prod.mk.injEq] at h
  rcases h with ⟨rfl, rfl⟩ | ⟨rfl, rfl⟩ | ⟨rfl, rfl⟩ | ⟨rfl, rfl⟩ | ⟨rfl, rfl⟩ | ⟨rfl, rfl⟩ | ⟨rfl, rfl⟩
  · rw [fits_iff (show ("include", Kind.text) ∈ keys by decide)]
    exact set_eq_ok decodeText_eq_ok fun c hc => by simp [reading, valueOf, List.lookup_cons, hc]
  · rw [fits_iff (show ("build_dir", Kind.text) ∈ keys by decide)]
    exact set_eq_ok decodeText_eq_ok fun c hc => by simp [reading, valueOf, List.lookup_cons, hc]
  · rw [fits_iff (show ("aux_dir", Kind.text) ∈ keys by decide)]
    exact set_eq_ok decodeText_eq_ok fun c hc => by simp [reading, valueOf, List.lookup_cons, hc]
  · rw [fits_iff (show ("deploy_dir", Kind.text) ∈ keys by decide)]
    exact set_eq_ok decodeText_eq_ok fun c hc => by simp [reading, valueOf, List.lookup_cons, hc]
  · rw [fits_iff (show ("host_app", Kind.text) ∈ keys by decide)]
    exact set_eq_ok decodeText_eq_ok fun c hc => by simp [reading, valueOf, List.lookup_cons, hc]
  · rw [fits_iff (show ("honor_match_indent", Kind.flag) ∈ keys by decide)]
    exact set_eq_ok decodeFlag_eq_ok fun c hc => by simp [reading, valueOf, List.lookup_cons, hc]
  · exact withCompiler_eq_ok hdistinct

theorem decodeField_eq_ok (key : Key) (h : node.Distinct) :
    decodeField (reading (valueOf values)) (key, node) = .ok file ↔
      Fits (key.name, node.value) ∧ file = reading (valueOf ((key.name, node.value) :: values)) := by
  unfold decodeField
  split
  next decode hfield =>
      obtain ⟨before, after, hfields, -⟩ := List.lookup_eq_some_iff.1 hfield
      rw [decodeEntry_eq_ok]
      exact field_eq_ok h (hfields ▸ List.mem_append_right _ List.mem_cons_self)
  next hnone =>
      -- Other than for the compiler, a key without a field is refused.
      refine ⟨nofun, fun ⟨hfits, _⟩ => ?_⟩
      obtain ⟨field, hfield, hsame⟩ := List.mem_map.1 (mem_of_fits hfits)
      simpa [hsame] using List.lookup_eq_none_iff.1 hnone field hfield

/-- A document is accepted just where all of its entries fit, and is read as what its keys stand for. -/
theorem ofEntries_eq_ok {entries : Entries} (h : Entries.Distinct entries) : ofEntries entries = .ok file ↔
    (∀ entry ∈ entryValues entries, Fits entry) ∧ file = reading (valueOf (entryValues entries)) := by
  have hnames := h.names
  rw [← Entries.names_eq] at hnames
  rw [← valueOf_reverse hnames, entryValues_eq, List.forall_mem_map]
  exact foldlM_reads fun entry hentry values file => decodeField_eq_ok entry.1 (h.nodes entry hentry)

/-- A configuration file that is there is read. -/
theorem load_eq {fs : FileSystem} {projectDir : Path} {text : String}
    (h : readText (projectDir.child configFileName) fs = .ok text fs) :
    load projectDir fs = .ok (some (parse text)) fs := by
  have hholds : fs.holds (projectDir.child configFileName) = true := by
    obtain ⟨bytes, between, hbytes, -⟩ := bind_eq_ok.1 h
    obtain ⟨-, location, hresolve⟩ := readBytes_inv hbytes
    rw [FileSystem.holds, FileSystem.lookup?_eq_some_iff.2 hresolve, Option.isSome_some]
  unfold load
  simp only [bind, EStateM.bind, run_get, hholds, if_true, h]
  rfl

end ConfigFile

/-- A configuration file that is a document names nothing twice. It is accepted just where all of its entries fit, and
then sets what its keys stand for; otherwise loading fails, and so it does for a text that is no document. What fits is
what conforms, save that the compiler's settings need not be a table, and that keys in it that are not documented are
passed over. -/
theorem Settings.load_reads {fs : FileSystem} {projectDir : Path} {text : String}
    (h : readText (projectDir.child configFileName) fs = .ok text fs) (deployText? : Option String)
    (overrides : Overrides) :
    match Toml.parse text.toList with
    | none => ConfigFile.load projectDir fs = .ok (some (.error .malformed)) fs
        ∧ load fs projectDir deployText? overrides = .error .configMalformed
    | some entries => Entries.Distinct entries
        ∧ ((∀ entry ∈ entryValues entries, ConfigFile.Fits entry)
            ∧ ConfigFile.load projectDir fs = .ok (some (.ok (ConfigFile.reading (valueOf (entryValues entries))))) fs
            ∧ load fs projectDir deployText? overrides
              = .ok (ofSources projectDir (ConfigFile.reading (valueOf (entryValues entries)))
                ((deployText?.filter (!·.isEmpty)).map Path.mk) overrides)
          ∨ (∃ entry ∈ entryValues entries, ¬ ConfigFile.Fits entry)
            ∧ ∃ message, ConfigFile.load projectDir fs = .ok (some (.error (.unsuitable message))) fs
              ∧ load fs projectDir deployText? overrides = .error (.configUnsuitable message))
        ∧ ∀ entry ∈ entryValues entries, ConfigFile.Conforms entry ↔ ConfigFile.Fits entry
          ∧ (entry.1 = "compiler" → ∃ inner, entry.2 = .table inner
            ∧ ∀ entry ∈ inner, entry.1 ∈ CompilerSettings.keys.map Prod.fst) := by
  have hload := ConfigFile.load_eq h
  unfold ConfigFile.parse at hload
  unfold load
  split
  next hparse =>
      rw [hparse] at hload
      rw [hload]
      exact ⟨rfl, rfl⟩
  next entries hparse =>
      have hdistinct := parse_distinct hparse
      refine ⟨hdistinct, ?_, fun entry _ => ConfigFile.conforms_iff⟩
      rw [hparse] at hload
      dsimp only at hload
      cases hfile : ConfigFile.ofEntries entries with
      | ok file =>
          obtain ⟨hfits, rfl⟩ := (ConfigFile.ofEntries_eq_ok hdistinct).1 hfile
          rw [hfile] at hload
          rw [hload]
          exact .inl ⟨hfits, rfl, rfl⟩
      | error mismatch =>
          have hunfit : ¬ ∀ entry ∈ entryValues entries, ConfigFile.Fits entry := by
            intro hfits
            cases hfile.symm.trans ((ConfigFile.ofEntries_eq_ok hdistinct).2 ⟨hfits, rfl⟩)
          rw [hfile] at hload
          rw [hload]
          push Not at hunfit
          exact .inr ⟨hunfit, _, rfl, rfl⟩

/-- A project with a configuration file. -/
def configuredProject (text : String) : FileSystem :=
  .ofEntries ⟨"/w"⟩ [(["w"], .directory), (["w", "lovepack.toml"], .file text.toUTF8)]

/-- A configuration with documented keys, both at the top and for the compiler. -/
def tunedConfig : String := "build_dir = \"out\"\n[compiler]\ntimeout_secs = 5\n"

theorem readText_tunedConfig :
    readText ((⟨"."⟩ : Path).child configFileName) (configuredProject tunedConfig)
      = .ok tunedConfig (configuredProject tunedConfig) := by
  have hfile : (configuredProject tunedConfig).lookup ((⟨"."⟩ : Path).child configFileName)
      = .ok (["w", "lovepack.toml"], .file tunedConfig.toUTF8) := by
    decide +kernel
  have htext : String.fromUTF8? tunedConfig.toUTF8 = some tunedConfig := by decide +kernel
  rw [readText_eq, readBytes_eq, hfile]
  dsimp only
  rw [htext]

/-- What the keys of that configuration stand for is in the settings. -/
theorem Settings.load_reads_tunedConfig :
    readText ((⟨"."⟩ : Path).child configFileName) (configuredProject tunedConfig)
        = .ok tunedConfig (configuredProject tunedConfig)
      ∧ load (configuredProject tunedConfig) ⟨"."⟩ none {}
        = .ok (ofSources ⟨"."⟩ { buildDir := some "out", compiler := some { timeoutSecs := 5 } } none {}) := by
  have hvalues : (Toml.parse tunedConfig.toList).map entryValues
      = some [("build_dir", .string "out"), ("compiler", .table [("timeout_secs", .integer 5)])] := by
    cbv
  have hfits : ∀ entry ∈ [("build_dir", .string "out"), ("compiler", .table [("timeout_secs", .integer 5)])],
      ConfigFile.Conforms entry := by
    simp [ConfigFile.Conforms, ConfigFile.keys, CompilerSettings.Conforms, CompilerSettings.keys, Kind.holds,
      Value.text?, Value.count?]
  have hread := readText_tunedConfig
  -- What the text is does not matter any more.
  generalize tunedConfig = text at hvalues hread ⊢
  obtain ⟨entries, hparse, hentries⟩ := Option.map_eq_some_iff.1 hvalues
  have hreads := load_reads hread none {}
  rw [hparse] at hreads
  obtain ⟨-, hcases, hconforms⟩ := hreads
  refine ⟨hread, ?_⟩
  rcases hcases with ⟨-, -, hload⟩ | ⟨⟨entry, hentry, hunfit⟩, -⟩
  · rw [hload, hentries]
    decide +kernel
  · exact absurd ((hconforms entry hentry).1 (hfits entry (hentries ▸ hentry))).1 hunfit

/-- A configuration with a misspelt key for the compiler. -/
def misspeltConfig : String := "[compiler]\ntimout_secs = 5\n"

/-- A misspelt key of the compiler's table is passed over, and the default is taken. -/
theorem Settings.load_passes_over :
    ∃ entries, Toml.parse misspeltConfig.toList = some entries
      ∧ entryValues entries = [("compiler", .table [("timout_secs", .integer 5)])]
      ∧ (∃ entry ∈ entryValues entries, ¬ ConfigFile.Conforms entry)
      ∧ load (configuredProject misspeltConfig) ⟨"."⟩ none {}
        = .ok (ofSources ⟨"."⟩ { compiler := some { timeoutSecs := 120 } } none {}) := by
  have hvalues : (Toml.parse misspeltConfig.toList).map entryValues
      = some [("compiler", .table [("timout_secs", .integer 5)])] := by
    cbv
  obtain ⟨entries, hparse, hentries⟩ := Option.map_eq_some_iff.1 hvalues
  refine ⟨entries, hparse, hentries, ⟨_, hentries ▸ List.mem_singleton_self _, ?_⟩, by decide +kernel⟩
  simp [ConfigFile.Conforms, ConfigFile.keys, CompilerSettings.Conforms, CompilerSettings.keys]

end ModPackager
