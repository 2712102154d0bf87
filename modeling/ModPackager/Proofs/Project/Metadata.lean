import ModPackager.Project.Metadata
import ModPackager.Proofs.Project.Fields

/-!
# The metadata document carries the package

The document of any metadata is read back as it is, as far as its dependencies hold integers only (`parse_render`).
For a package that was read from an object this says what the document holds in terms of the object's fields
(`render_carries`): strings are the same strings, absent fields and nulls are left out, the author has become a list
of names, and the dependencies are the given value, in which a repeated key counts once.
-/

namespace ModPackager.Metadata

open Json Reader

/-! ### Reading a document back -/

/-- The members of the document. -/
def members (metadata : Metadata) : List (String × Json) :=
  [("id", .string metadata.id)]
    ++ (metadata.name.map fun name => ("name", Json.string name)).toList
    ++ [("author", Json.ofStrings metadata.author)]
    ++ (metadata.description.map fun description => ("description", Json.string description)).toList
    ++ [("prefix", .string metadata.modPrefix)]
    ++ (metadata.version.map fun version => ("version", Json.string version)).toList
    ++ (metadata.dependencies.map fun dependencies => ("dependencies", dependencies)).toList
    ++ [("main_file", .string metadata.mainFile)]

theorem toJson_eq (metadata : Metadata) : metadata.toJson = .object metadata.members := by
  simp [toJson, members, Option.map_map, Function.comp_def]

theorem keys_optional {α : Type} (key : String) (f : α → Json) (value : Option α) :
    ((value.map fun v => (key, f v)).toList.map Prod.fst).Sublist [key] := by
  cases value <;> simp

/-- Each key stands once. -/
theorem nodup_keys (metadata : Metadata) : (metadata.members.map Prod.fst).Nodup := by
  have hkeys : (metadata.members.map Prod.fst).Sublist
      ["id", "name", "author", "description", "prefix", "version", "dependencies", "main_file"] := by
    simp only [members, List.map_append]
    exact ((((((((List.Sublist.refl ["id"]).append (keys_optional "name" _ _)).append (.refl ["author"])).append
      (keys_optional "description" _ _)).append (.refl ["prefix"])).append (keys_optional "version" _ _)).append
      (keys_optional "dependencies" _ _)).append (.refl ["main_file"]))
  exact List.Nodup.sublist hkeys (by decide)

/-- Settled values of integers, as deep as a field may nest. -/
structure Legible (v : Json) : Prop where
  regular : Regular Package.fieldDepth v
  integers : ∀ n ∈ v.numbers, n.isInteger = true
  settled : v.settle = v

theorem legible_string (s : String) : Legible (.string s) := ⟨⟨.string s, nofun⟩, nofun, rfl⟩

theorem legible_ofStrings (items : List String) : Legible (ofStrings items) := by
  have hstrings : ∀ item ∈ items.map Json.string, item.numbers = [] ∧ item.settle = item :=
    List.forall_mem_map.2 fun s _ => ⟨rfl, rfl⟩
  have hnone : (ofStrings items).numbers = [] := by
    rw [ofStrings, numbers_array]
    exact List.flatMap_eq_nil_iff.2 fun item hitem => (hstrings item hitem).1
  refine ⟨⟨.array (List.forall_mem_map.2 fun s _ => .string s), ?_⟩, ?_, ?_⟩
  · rw [hnone]
    exact nofun
  · rw [hnone]
    exact nofun
  · rw [ofStrings, settle_array, List.map_congr_left fun item hitem => (hstrings item hitem).2, List.map_id']

/-- Every value of the document is legible when the dependencies are. -/
theorem legible_members {metadata : Metadata} (h : ∀ v, metadata.dependencies = some v → Legible v) :
    ∀ member ∈ metadata.members, Legible member.2 := by
  have hoptional : ∀ {α : Type} (key : String) (f : α → Json) (value : Option α),
      (∀ v, value = some v → Legible (f v)) →
      ∀ member ∈ (value.map fun v => (key, f v)).toList, Legible member.2 := by
    intro α key f value hvalue member hmember
    cases value with
    | none => cases hmember
    | some v =>
        obtain rfl := List.mem_singleton.1 hmember
        exact hvalue v rfl
  have hsingle : ∀ (key : String) {v : Json}, Legible v → ∀ member ∈ [(key, v)], Legible member.2 :=
    fun key v hv member hmember => List.mem_singleton.1 hmember ▸ hv
  have hstring := fun key s => hsingle key (legible_string s)
  have hstring? := fun key value => hoptional key Json.string value fun s _ => legible_string s
  simp only [members, List.forall_mem_append]
  exact ⟨⟨⟨⟨⟨⟨⟨hstring _ _, hstring? _ _⟩, hsingle _ (legible_ofStrings _)⟩, hstring? _ _⟩, hstring _ _⟩,
    hstring? _ _⟩, hoptional _ (fun v => v) _ h⟩, hstring _ _⟩

/-- The document is read as what it was made of. -/
theorem parse_document {metadata : Metadata} (h : ∀ v, metadata.dependencies = some v → Legible v) :
    Json.parse metadata.render = .ok (.object metadata.members) := by
  have hmembers := legible_members h
  have hregular : Regular maxDepth (.object metadata.members) :=
    .object fun member hmember => (hmembers member hmember).regular
  rw [render, toJson_eq]
  refine Json.parse_render hregular.nests (fun n hn => ⟨?_, hregular.proper n hn⟩)
    (settle_object_eq metadata.nodup_keys fun member hmember => (hmembers member hmember).settled)
  obtain ⟨member, hmember, hn⟩ := List.mem_flatMap.1 (numbers_object metadata.members ▸ hn)
  exact (hmembers member hmember).integers n hn

/-- The document ends with its bracket. -/
theorem getLast?_render (metadata : Metadata) : metadata.render.toList.getLast? = some '\x7d' := by
  rw [render, toJson_eq, Json.render]
  cases metadata.members with
  | nil => rfl
  | cons member rest =>
      rw [renderAt, String.toList_append]
      exact List.getLast?_concat

/-! ### The fields of the document -/

/-- The names that an author field stands for. -/
inductive AuthorNames : Option Json → List String → Prop
  | absent : AuthorNames none []
  | null : AuthorNames (some .null) []
  | one (name : String) : AuthorNames (some (.string name)) [name]
  | many (names : List String) : AuthorNames (some (.array (names.map .string))) names
  | person {members : List (String × Json)} {name : String} (h : members.lookup "name" = some (.string name)) :
      AuthorNames (some (.object members)) [name]

/-- How the document carries a field: not at all when it is missing or null. -/
def carried (key : String) : Option Json → List (String × Json)
  | none => []
  | some .null => []
  | some v => [(key, v.settle)]

theorem strings?_eq_some {items : List Json} {names : List String} (h : Package.strings? items = some names) :
    items = names.map .string := by
  induction items generalizing names with
  | nil =>
      cases h
      rfl
  | cons item rest ih =>
      simp only [Package.strings?, List.mapM_cons] at h
      cases item with
      | string name =>
          obtain ⟨first, hfirst, h⟩ := Option.bind_eq_some_iff.1 h
          obtain ⟨others, hothers, h⟩ := Option.bind_eq_some_iff.1 h
          cases hfirst
          cases h
          exact congrArg (Json.string name :: ·) (ih hothers)
      | _ => cases h

theorem lookup_of_filter {members : List (String × Json)} {key : String} {entry : String × Json}
    (h : members.filter (·.1 == key) = [entry]) : members.lookup key = some entry.2 := by
  induction members with
  | nil => cases h
  | cons first rest ih =>
      by_cases heq : first.1 = key
      · rw [List.filter_cons_of_pos (by simpa using heq)] at h
        obtain ⟨rfl, -⟩ := List.cons.inj h
        rw [List.lookup_cons, beq_iff_eq.2 heq.symm]
      · rw [List.filter_cons_of_neg (by simpa using heq)] at h
        rw [List.lookup_cons, beq_false_of_ne (Ne.symm heq)]
        exact ih h

theorem authorNames_of_authorOf? {v : Json} {author : Author} (h : Package.authorOf? v = some author) :
    AuthorNames (some v) author.names := by
  cases v with
  | string name =>
      cases h
      exact .one name
  | array items =>
      obtain ⟨names, hnames, rfl⟩ := Option.map_eq_some_iff.1 h
      rw [strings?_eq_some hnames]
      exact .many names
  | object members =>
      simp only [Package.authorOf?] at h
      split at h
      next key name hperson =>
          cases h
          exact .person (lookup_of_filter hperson)
      next => cases h
  | _ => cases h

theorem authorNames_of_means {v : Option Json} {author : Option Author} (h : Package.Means Package.authorOf? v author) :
    AuthorNames v ((author.map Author.names).getD []) := by
  cases h with
  | absent => exact .absent
  | null => exact .null
  | given _ hdecode => exact authorNames_of_authorOf? hdecode

theorem carried_of_ne (key : String) {v : Json} (h : v ≠ .null) : carried key (some v) = [(key, v.settle)] := by
  cases v <;> first | rfl | exact absurd rfl h

theorem carried_string {v : Option Json} {s : Option String} (h : Package.Means Package.string? v s) (key : String) :
    (s.map fun s => (key, Json.string s)).toList = carried key v := by
  cases h with
  | absent => rfl
  | null => rfl
  | @given v s hvalue hdecode =>
      cases v <;> cases hdecode
      rfl

theorem carried_dependencies {v dependencies : Option Json}
    (h : Package.Means (fun v => some v.settle) v dependencies) (key : String) :
    (dependencies.map fun dependencies => (key, dependencies)).toList = carried key v := by
  cases h with
  | absent => rfl
  | null => rfl
  | given hvalue hdecode =>
      cases hdecode
      exact (carried_of_ne key hvalue).symm

theorem string_of_means {v : Json} {s : Option String} (h : Package.Means Package.string? (some v) s) :
    v = .null ∨ ∃ text, v = .string text := by
  cases h with
  | null => exact .inl rfl
  | given _ hdecode =>
      cases v with
      | string text => exact .inr ⟨text, rfl⟩
      | _ => cases hdecode

/-- The document of the fields that a package's text gives, for its name, entry file and authors. -/
def documentOf (given : List (Package.Field × Json)) (id main : String) (authors : List String) : Json :=
  .object ([("id", .string id)]
    ++ carried "name" (given.lookup .displayName)
    ++ [("author", ofStrings authors)]
    ++ carried "description" (given.lookup .description)
    ++ [("prefix", .string (modPrefixOf id))]
    ++ carried "version" (given.lookup .version)
    ++ carried "dependencies" (given.lookup .dependencies)
    ++ [("main_file", .string (targetFileOf main))])

/-- The metadata document of a package that was read from an object carries the object's fields: it is read back, with
its keys in their order, as an object of the same strings, the author's names and the settled dependencies, and leaves
out what is missing or null. It ends with its bracket. -/
theorem render_carries {text : String} {package : Package} (hparse : Package.parse text = .ok package)
    (hobject : (text.toList.dropWhile isSpace).head? = some '\x7b')
    (hintegers : ∀ dependencies, package.dependencies = some dependencies →
      ∀ n ∈ dependencies.numbers, n.isInteger = true) :
    ∃ given id main authors, Package.given? text = some given
      ∧ given.lookup .name = some (.string id)
      ∧ given.lookup .main = some (.string main)
      ∧ (∀ field ∈ [Package.Field.displayName, .description, .version], ∀ v, given.lookup field = some v →
        v = .null ∨ ∃ s, v = .string s)
      ∧ AuthorNames (given.lookup .author) authors
      ∧ Json.parse (ofPackage package).render = .ok (documentOf given id main authors)
      ∧ (ofPackage package).render.toList.getLast? = some '\x7d' := by
  obtain ⟨given, hgiven, hmatches⟩ := Package.parse_given hparse hobject
  have hlegible : ∀ v, (ofPackage package).dependencies = some v → Legible v := by
    intro v hv
    have hmeans := hmatches.dependencies
    rw [show package.dependencies = some v from hv] at hmeans
    generalize hfield : given.lookup .dependencies = field at hmeans
    cases hmeans with
    | given _ hdecode =>
        cases hdecode
        have hregular := Package.regular_of_given hgiven hfield
        exact ⟨hregular.settle, hintegers _ hv, hregular.nests.settle_settle⟩
  have hdocument : Json.parse (ofPackage package).render
      = .ok (documentOf given package.name package.main ((package.author.map Author.names).getD [])) := by
    rw [parse_document hlegible, documentOf, ← carried_string hmatches.displayName,
      ← carried_string hmatches.description, ← carried_string hmatches.version,
      ← carried_dependencies hmatches.dependencies]
    rfl
  refine ⟨given, package.name, package.main, _, hgiven, hmatches.name, hmatches.main, ?_,
    authorNames_of_means hmatches.author, hdocument, getLast?_render _⟩
  intro field hfield v hv
  simp only [List.mem_cons, List.not_mem_nil, or_false] at hfield
  rcases hfield with rfl | rfl | rfl
  · exact string_of_means (hv ▸ hmatches.displayName)
  · exact string_of_means (hv ▸ hmatches.description)
  · exact string_of_means (hv ▸ hmatches.version)

/-- A package with nested dependencies, a person and a null. -/
def nestedPackage : String :=
  "\x7b\"name\": \"my-mod\", \"author\": \x7b\"name\": \"Jane\"\x7d, \"version\": null, "
    ++ "\"smod_deps\": [\x7b\"id\": \"\\u0001\", \"since\": -3\x7d, 18446744073709551615], \"main\": \"main.ts\"\x7d"

theorem render_carries_nestedPackage : ∃ package dependencies, Package.parse nestedPackage = .ok package
    ∧ package.dependencies = some dependencies
    ∧ ∃ given id main authors, Package.given? nestedPackage = some given
      ∧ AuthorNames (given.lookup .author) authors
      ∧ Json.parse (ofPackage package).render = .ok (documentOf given id main authors) := by
  have hread : ((Package.parse nestedPackage).toOption.any fun package =>
      package.dependencies.any fun v => v.numbers.all Number.isInteger) = true := by decide +kernel
  cases hparse : Package.parse nestedPackage with
  | error problem =>
      rw [hparse] at hread
      cases hread
  | ok package =>
      rw [hparse] at hread
      obtain ⟨_, hpackage, hread⟩ := (Option.any_eq_true _ _).1 hread
      cases hpackage
      obtain ⟨dependencies, hdependencies, hall⟩ := (Option.any_eq_true _ _).1 hread
      have hintegers : ∀ v, package.dependencies = some v → ∀ n ∈ v.numbers, n.isInteger = true := by
        intro v hv
        cases hdependencies.symm.trans hv
        exact List.all_eq_true.1 hall
      obtain ⟨given, id, main, authors, hgiven, -, -, -, hauthors, hdocument, -⟩ :=
        render_carries hparse (by decide +kernel) hintegers
      exact ⟨package, dependencies, rfl, hdependencies, given, id, main, authors, hgiven, hauthors, hdocument⟩

end ModPackager.Metadata
