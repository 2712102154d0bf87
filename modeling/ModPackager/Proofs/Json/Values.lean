import ModPackager.Proofs.Json.RoundTrip

/-!
# The values that reading gives

What a reader of values returns nests no deeper than the reader goes, and its numbers have their proper form
(`value_gives`). Settling keeps both, adds no number, and settles for good: what is left has each key once, so that
settling it again changes nothing (`settle_settle`).
-/

namespace ModPackager.Json

/-- What is known of a value that was read: how deep it nests, and that its numbers are proper. -/
structure Regular (depth : Nat) (v : Json) : Prop where
  nests : Nests depth v
  proper : ∀ n ∈ v.numbers, n.Proper

theorem Regular.array {depth : Nat} {items : List Json} (h : ∀ item ∈ items, Regular depth item) :
    Regular (depth + 1) (.array items) := by
  refine ⟨.array fun item hitem => (h item hitem).nests, fun n hn => ?_⟩
  obtain ⟨item, hitem, hn⟩ := List.mem_flatMap.1 (numbers_array items ▸ hn)
  exact (h item hitem).proper n hn

theorem Regular.object {depth : Nat} {members : List (String × Json)} (h : ∀ member ∈ members, Regular depth member.2) :
    Regular (depth + 1) (.object members) := by
  refine ⟨.object fun member hmember => (h member hmember).nests, fun n hn => ?_⟩
  obtain ⟨member, hmember, hn⟩ := List.mem_flatMap.1 (numbers_object members ▸ hn)
  exact (h member hmember).proper n hn

namespace Reader

variable {α β : Type} {P : α → Prop} {text rest : List Char}

/-! ### Results of readers -/

theorem enclosed_eq_ok {body : Reader α} {closing : Reader Unit} {result : α} :
    enclosed body closing text = .ok result rest ↔
      ∃ between, body text = .ok result between ∧ closing between = .ok () rest := by
  refine ⟨fun h => ?_, fun ⟨_, hbody, hclosing⟩ => run_enclosed hbody hclosing⟩
  rw [enclosed] at h
  cases hbody : body text with
  | ok first between =>
      rw [hbody] at h
      cases hclosing : closing between with
      | ok result last =>
          simp only [hclosing, EStateM.Result.ok.injEq] at h
          obtain ⟨rfl, rfl⟩ := h
          exact ⟨between, rfl, hclosing⟩
      | error problem last => simp [hclosing] at h
  | error problem between =>
      rw [hbody] at h
      cases hclosing : closing between <;> simp [hclosing] at h

theorem gives_fail (fault : Fault) : Gives (fail fault : Reader α) P := .throw

theorem gives_failHere (fault : Fault) : Gives (failHere fault : Reader α) P := .last fun _ => .throw

theorem gives_failAhead (fault : Fault) : Gives (failAhead fault : Reader α) P := .last fun _ => .throw

/-! ### Numbers -/

theorem gives_double (positive : Bool) (significand : Nat) (exponent : Int) :
    Gives (double positive significand exponent) Number.Proper := by
  rw [double]
  cases scale significand.toUInt64.toFloat exponent (exponent.natAbs / 308 + 2) with
  | none => exact gives_failHere _
  | some f => exact Gives.pure trivial

theorem gives_exponent (positive : Bool) (significand : Nat) (start : Int) :
    Gives (exponent positive significand start) Number.Proper := by
  refine .last fun _ => .last fun sign => .ite (fun _ => .last fun _ => ?_) fun _ => ?_
  all_goals
    refine .last fun c => ?_
    cases c with
    | none => exact gives_failHere _
    | some c =>
        refine .ite (fun _ => gives_failHere _) fun _ => .last fun left => .last fun _ => ?_
        split
        · exact gives_double _ _ _
        · exact .ite (fun _ => gives_failHere _) fun _ => .last fun _ => .pure trivial

theorem gives_exponent? (positive : Bool) (significand : Nat) (start : Int) :
    Gives (exponent? positive significand start) Number.Proper :=
  .last fun _ => .ite (fun _ => gives_exponent _ _ _) fun _ => gives_double _ _ _

theorem gives_fraction (positive : Bool) (significand : Nat) (start : Int) :
    Gives (fraction positive significand start) Number.Proper := by
  refine .last fun _ => .last fun left => .last fun _ => .last fun more => ?_
  refine .ite (fun _ => .last fun _ => gives_exponent? _ _ _) fun _ => .ite (fun _ => .last fun c => ?_) fun _ =>
    gives_exponent? _ _ _
  cases c with
  | none => exact gives_failAhead _
  | some c => exact gives_failAhead _

theorem gives_numberRest (positive : Bool) (significand : Nat) :
    Gives (numberRest positive significand) Number.Proper := by
  refine .last fun c => ?_
  split
  · exact gives_fraction _ _ _
  · exact gives_exponent _ _ _
  · exact gives_exponent _ _ _
  · refine .ite (fun _ => .pure trivial) fun _ => .ite (fun _ => .pure trivial) fun hform => .pure ?_
    simp only [Bool.or_eq_true, beq_iff_eq, decide_eq_true_eq, not_or, Nat.not_lt] at hform
    have hsize : significand.toUInt64.toNat = significand :=
      Nat.mod_eq_of_lt (Nat.lt_of_le_of_lt hform.2 (by decide))
    rw [Number.Proper, hsize]
    exact ⟨Nat.pos_of_ne_zero hform.1, hform.2⟩

/-- A number is read in its proper form. -/
theorem gives_number (positive : Bool) : Gives (number positive) Number.Proper := by
  refine .last fun c => ?_
  cases c with
  | none => exact gives_failHere _
  | some c =>
      refine .ite (fun _ => .last fun _ => .ite (fun _ => gives_failAhead _) fun _ => gives_numberRest _ _)
        fun _ => .ite (fun _ => .last fun left => .last fun _ => .last fun _ => ?_) fun _ => gives_failHere _
      refine .ite (fun _ => .last fun _ => .last fun mark => ?_) fun _ => gives_numberRest _ _
      exact .ite (fun _ => gives_fraction _ _ _) fun _ => gives_exponent? _ _ _

/-! ### Values -/

/-- Where a value comes from, by the character that it begins with: numbers are proper, and what stands inside
brackets was read by the inner reader. -/
inductive Origin (inner : Option (Reader Json)) (first : Option Char) : Json → Prop
  | null (h : first = some 'n') : Origin inner first .null
  | bool (value : Bool) : Origin inner first (.bool value)
  | string (value : String) : Origin inner first (.string value)
  | number {n : Number} (h : n.Proper) : Origin inner first (.number n)
  | array {reader : Reader Json} {items : List Json} {fuel : Nat} {before after : List Char} (hinner : inner = some reader)
      (h : itemsFrom reader true fuel before = .ok items after) : Origin inner first (.array items)
  | object {reader : Reader Json} {members : List (String × Json)} {fuel : Nat} {before after : List Char}
      (hinner : inner = some reader) (h : membersFrom reader true fuel before = .ok members after) :
      Origin inner first (.object members)

/-- What follows depends on the next character only. -/
theorem peekValue_bind_eq_ok {next : Option Char → Reader β} {Q : Option Char → β → Prop} {result : β}
    (hnext : ∀ c, Gives (next c) (Q c)) (h : (peekValue >>= next) text = .ok result rest) :
    Q (text.dropWhile isSpace).head? result := by
  rw [run_bind, run_peekValue] at h
  exact hnext _ _ _ _ h

theorem valueWith_origin {inner : Option (Reader Json)} {v : Json} (h : valueWith inner text = .ok v rest) :
    Origin inner (text.dropWhile isSpace).head? v := by
  refine peekValue_bind_eq_ok (Q := Origin inner) (fun c => ?_) h
  have hnumber : ∀ positive, Gives (do return Json.number (← number positive)) (Origin inner c) := by
    intro positive before v after hread
    obtain ⟨n, between, hn, hv⟩ := bind_eq_ok.1 hread
    cases hv
    exact .number (gives_number positive _ _ _ hn)
  split
  next => exact gives_failAhead _
  next => exact .last fun _ => .last fun _ => .pure (.null rfl)
  next => exact .last fun _ => .last fun _ => .pure (.bool true)
  next => exact .last fun _ => .last fun _ => .pure (.bool false)
  next => exact .last fun _ => .last fun s => .pure (.string s)
  next => exact .last fun _ => hnumber false
  next d _ _ _ _ _ =>
      refine .ite (fun _ => ?_) fun _ => .ite (fun _ => hnumber true) fun _ => gives_failAhead _
      cases inner with
      | none => exact gives_failAhead _
      | some reader =>
          refine .last fun _ => .last fun _ => .ite (fun _ => ?_) fun _ => ?_
          · intro before v after hread
            obtain ⟨items, between, hitems, hv⟩ := bind_eq_ok.1 hread
            cases hv
            obtain ⟨_, hitems, -⟩ := enclosed_eq_ok.1 hitems
            exact .array rfl hitems
          · intro before v after hread
            obtain ⟨members, between, hmembers, hv⟩ := bind_eq_ok.1 hread
            cases hv
            obtain ⟨_, hmembers, -⟩ := enclosed_eq_ok.1 hmembers
            exact .object rfl hmembers

theorem gives_itemsFrom {reader : Reader Json} {P : Json → Prop} (h : Gives reader P) (first : Bool) (fuel : Nat) :
    Gives (itemsFrom reader first fuel) fun items => ∀ item ∈ items, P item := by
  induction fuel generalizing first with
  | zero => exact .pure fun item hitem => nomatch hitem
  | succ fuel ih =>
      refine .last fun more => .ite (fun _ => ?_) fun _ => .pure fun item hitem => nomatch hitem
      intro before items after hread
      obtain ⟨item, between, hitem, hread⟩ := bind_eq_ok.1 hread
      obtain ⟨others, _, hothers, hitems⟩ := bind_eq_ok.1 hread
      cases hitems
      exact List.forall_mem_cons.2 ⟨h _ _ _ hitem, ih false _ _ _ hothers⟩

theorem gives_membersFrom {reader : Reader Json} {P : Json → Prop} (h : Gives reader P) (first : Bool) (fuel : Nat) :
    Gives (membersFrom reader first fuel) fun members => ∀ member ∈ members, P member.2 := by
  induction fuel generalizing first with
  | zero => exact .pure fun member hmember => nomatch hmember
  | succ fuel ih =>
      refine .last fun more => .ite (fun _ => .last fun name => .last fun _ => ?_)
        fun _ => .pure fun member hmember => nomatch hmember
      intro before members after hread
      obtain ⟨value, between, hvalue, hread⟩ := bind_eq_ok.1 hread
      obtain ⟨others, _, hothers, hmembers⟩ := bind_eq_ok.1 hread
      cases hmembers
      exact List.forall_mem_cons.2 ⟨h _ _ _ hvalue, ih false _ _ _ hothers⟩

/-- A value whose inner reader gives regular values is regular itself, one bracket deeper. -/
theorem gives_valueWith {inner : Option (Reader Json)} {depth : Nat}
    (h : ∀ reader, inner = some reader → ∃ below, depth = below + 1 ∧ Gives reader (Regular below)) :
    Gives (valueWith inner) (Regular depth) := by
  intro text v rest hread
  cases valueWith_origin hread with
  | null => exact ⟨.null, nofun⟩
  | bool b => exact ⟨.bool b, nofun⟩
  | string s => exact ⟨.string s, nofun⟩
  | number hproper => exact ⟨.number _, by simpa [numbers] using hproper⟩
  | array hinner hitems =>
      obtain ⟨below, rfl, hreader⟩ := h _ hinner
      exact .array (gives_itemsFrom hreader true _ _ _ _ hitems)
  | object hinner hmembers =>
      obtain ⟨below, rfl, hreader⟩ := h _ hinner
      exact .object (gives_membersFrom hreader true _ _ _ _ hmembers)

/-- A value that was read is regular. -/
theorem gives_value (depth : Nat) : Gives (value depth) (Regular depth) := by
  induction depth with
  | zero => exact gives_valueWith nofun
  | succ depth ih =>
      refine gives_valueWith fun reader hreader => ⟨depth, rfl, ?_⟩
      cases hreader
      exact ih

end Reader

/-! ### Settling -/

section Settling

variable {depth : Nat} {v value : Json} {key : String} {member : String × Json} {members : List (String × Json)}

theorem settleItems_eq_map (items : List Json) : settleItems items = items.map settle := by
  induction items with
  | nil => rfl
  | cons item rest ih => rw [settleItems, ih, List.map_cons]

theorem settleValues_eq_map (members : List (String × Json)) :
    settleValues members = members.map fun member => (member.1, member.2.settle) := by
  induction members with
  | nil => rfl
  | cons member rest ih => rw [settleValues, ih, List.map_cons]

theorem settle_array (items : List Json) : settle (.array items) = .array (items.map settle) := by
  rw [settle, settleItems_eq_map]

theorem settle_object (members : List (String × Json)) :
    settle (.object members) = .object (settleMembers (members.map fun member => (member.1, member.2.settle))) := by
  rw [settle, settleValues_eq_map]

theorem mem_setMember (h : member ∈ setMember members key value) : member ∈ members ∨ member = (key, value) := by
  induction members with
  | nil => exact .inr (List.mem_singleton.1 h)
  | cons first rest ih =>
      obtain ⟨known, old⟩ := first
      rw [setMember] at h
      split at h
      next heq =>
          obtain rfl := beq_iff_eq.1 heq
          exact (List.mem_cons.1 h).symm.imp (List.mem_cons_of_mem _) id
      next =>
          rcases List.mem_cons.1 h with rfl | h
          · exact .inl List.mem_cons_self
          · exact (ih h).imp_left (List.mem_cons_of_mem _)

/-- A key that is known keeps its place, and a new key goes last. -/
theorem keys_setMember (members : List (String × Json)) (key : String) (value : Json) :
    (setMember members key value).map Prod.fst
      = if key ∈ members.map Prod.fst then members.map Prod.fst else members.map Prod.fst ++ [key] := by
  induction members with
  | nil => rfl
  | cons first rest ih =>
      obtain ⟨known, old⟩ := first
      rw [setMember]
      by_cases heq : known = key
      · simp [heq]
      · simp only [beq_iff_eq, heq, if_false, List.map_cons, ih, List.mem_cons, Ne.symm heq, false_or]
        split <;> rfl

theorem setMember_of_notMem (h : key ∉ members.map Prod.fst) : setMember members key value = members ++ [(key, value)] := by
  induction members with
  | nil => rfl
  | cons first rest ih =>
      obtain ⟨known, old⟩ := first
      rw [List.map_cons, List.mem_cons, not_or] at h
      simp [setMember, Ne.symm h.1, ih h.2]

/-- Members with others set one after the other. -/
def setMembers (settled members : List (String × Json)) : List (String × Json) :=
  members.foldl (fun settled (key, value) => setMember settled key value) settled

theorem mem_setMembers {settled : List (String × Json)} (h : member ∈ setMembers settled members) :
    member ∈ settled ∨ member ∈ members := by
  induction members generalizing settled with
  | nil => exact .inl h
  | cons first rest ih =>
      rcases ih h with h | h
      · refine (mem_setMember h).imp_right ?_
        rintro rfl
        exact List.mem_cons_self
      · exact .inr (List.mem_cons_of_mem _ h)

theorem nodup_setMembers {settled : List (String × Json)} (h : (settled.map Prod.fst).Nodup) :
    ((setMembers settled members).map Prod.fst).Nodup := by
  induction members generalizing settled with
  | nil => exact h
  | cons first rest ih =>
      refine ih ?_
      rw [keys_setMember]
      split
      next => exact h
      next hnew =>
          refine List.nodup_append.2 ⟨h, List.pairwise_singleton _ _, fun known hknown key hkey heq => hnew ?_⟩
          rwa [← List.mem_singleton.1 hkey, ← heq]

theorem setMembers_of_nodup {settled : List (String × Json)} (h : ((settled ++ members).map Prod.fst).Nodup) :
    setMembers settled members = settled ++ members := by
  induction members generalizing settled with
  | nil => exact (List.append_nil settled).symm
  | cons first rest ih =>
      have hnew : first.1 ∉ settled.map Prod.fst := by
        rw [List.map_append, List.map_cons] at h
        exact fun hmem => (List.nodup_append.1 h).2.2 _ hmem _ List.mem_cons_self rfl
      rw [List.append_cons] at h ⊢
      rw [← ih h, ← setMember_of_notMem hnew]
      rfl

theorem mem_settleMembers (h : member ∈ settleMembers members) : member ∈ members :=
  (mem_setMembers h).resolve_left List.not_mem_nil

/-- No key is left twice. -/
theorem nodup_settleMembers (members : List (String × Json)) : ((settleMembers members).map Prod.fst).Nodup :=
  nodup_setMembers List.nodup_nil

theorem settleMembers_of_nodup (h : (members.map Prod.fst).Nodup) : settleMembers members = members :=
  setMembers_of_nodup h

theorem Nests.settle (h : Nests depth v) : Nests depth v.settle := by
  induction h with
  | null => exact .null
  | bool b => exact .bool b
  | number n => exact .number n
  | string s => exact .string s
  | array _ ih =>
      rw [settle_array]
      exact .array (List.forall_mem_map.2 ih)
  | object _ ih =>
      rw [settle_object]
      refine .object fun member hmember => ?_
      obtain ⟨old, hold, rfl⟩ := List.mem_map.1 (mem_settleMembers hmember)
      exact ih old hold

theorem Nests.numbers_settle (h : Nests depth v) : ∀ n ∈ v.settle.numbers, n ∈ v.numbers := by
  induction h with
  | null => exact fun n hn => hn
  | bool b => exact fun n hn => hn
  | number n => exact fun n hn => hn
  | string s => exact fun n hn => hn
  | array _ ih =>
      intro n hn
      rw [settle_array, numbers_array, List.flatMap_map] at hn
      obtain ⟨item, hitem, hn⟩ := List.mem_flatMap.1 hn
      exact numbers_array _ ▸ List.mem_flatMap.2 ⟨item, hitem, ih item hitem n hn⟩
  | object _ ih =>
      intro n hn
      rw [settle_object, numbers_object] at hn
      obtain ⟨member, hmember, hn⟩ := List.mem_flatMap.1 hn
      obtain ⟨old, hold, rfl⟩ := List.mem_map.1 (mem_settleMembers hmember)
      exact numbers_object _ ▸ List.mem_flatMap.2 ⟨old, hold, ih old hold n hn⟩

theorem Regular.settle (h : Regular depth v) : Regular depth v.settle :=
  ⟨h.nests.settle, fun n hn => h.proper n (h.nests.numbers_settle n hn)⟩

/-- An object whose members are settled and whose keys differ is settled. -/
theorem settle_object_eq (hkeys : (members.map Prod.fst).Nodup) (h : ∀ member ∈ members, member.2.settle = member.2) :
    settle (.object members) = .object members := by
  have hvalues : members.map (fun member => (member.1, member.2.settle)) = members :=
    (List.map_congr_left fun member hmember => by rw [h member hmember]).trans (List.map_id' members)
  rw [settle_object, hvalues, settleMembers_of_nodup hkeys]

/-- Settling happens once. -/
theorem Nests.settle_settle (h : Nests depth v) : v.settle.settle = v.settle := by
  induction h with
  | null => rfl
  | bool b => rfl
  | number n => rfl
  | string s => rfl
  | array _ ih =>
      rw [settle_array, settle_array, List.map_map]
      exact congrArg Json.array (List.map_congr_left ih)
  | object _ ih =>
      rw [settle_object]
      refine settle_object_eq (nodup_settleMembers _) fun member hmember => ?_
      obtain ⟨old, hold, rfl⟩ := List.mem_map.1 (mem_settleMembers hmember)
      exact ih old hold

end Settling

end ModPackager.Json
