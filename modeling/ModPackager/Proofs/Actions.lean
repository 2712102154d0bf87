/-!
# Actions on a state

`Maintains inv action result` says that an action keeps an invariant of the state, whether it ends in a
value or fails, and that every value it ends in is as told. It goes through sequences and loops.
`Gives action result` tells of the values alone, and `Succeeds action s` that there is one.
-/

namespace ModPackager

/-! ### Single steps -/

section Steps

variable {σ ε α β : Type}

theorem run_bind (action : EStateM ε σ α) (next : α → EStateM ε σ β) (s : σ) :
    (action >>= next) s = match action s with
      | .ok value s' => next value s'
      | .error e s' => .error e s' := by
  change EStateM.bind action next s = _
  unfold EStateM.bind
  cases action s <;> rfl

theorem run_map (f : α → β) (action : EStateM ε σ α) (s : σ) :
    (f <$> action) s = match action s with
      | .ok value s' => .ok (f value) s'
      | .error e s' => .error e s' := by
  change EStateM.map f action s = _
  unfold EStateM.map
  cases action s <;> rfl

theorem run_get (s : σ) : (get : EStateM ε σ σ) s = .ok s s := rfl

theorem run_throw (e : ε) (s : σ) : (throw e : EStateM ε σ α) s = .error e s := rfl

theorem run_modify (f : σ → σ) (s : σ) : (modify f : EStateM ε σ PUnit) s = .ok ⟨⟩ (f s) := rfl

/-- Whether an action ends in a value, and in a state, of some kind. -/
def endsIn (test : α → σ → Bool) : EStateM.Result ε σ α → Bool
  | .ok value s => test value s
  | .error _ _ => false

theorem exists_of_endsIn {test : α → σ → Bool} {result : EStateM.Result ε σ α} (h : endsIn test result = true) :
    ∃ value s, result = .ok value s ∧ test value s = true := by
  cases result with
  | ok value s => exact ⟨value, s, rfl, h⟩
  | error e s => cases h

end Steps

/-! ### Invariants of actions -/

section Maintains

variable {σ ε α β : Type} {inv : σ → Prop} {action : EStateM ε σ α} {result wider : α → Prop}

/-- An action keeps an invariant, and ends in values of some kind if it does not fail. -/
def Maintains (inv : σ → Prop) (action : EStateM ε σ α) (result : α → Prop) : Prop :=
  ∀ s, inv s →
    match action s with
    | .ok value s' => inv s' ∧ result value
    | .error _ s' => inv s'

namespace Maintains

theorem ok (h : Maintains inv action result) {s s' : σ} {value : α} (hs : inv s)
    (hrun : action s = .ok value s') : inv s' ∧ result value := by
  simpa only [hrun] using h s hs

theorem error (h : Maintains inv action result) {s s' : σ} {e : ε} (hs : inv s)
    (hrun : action s = .error e s') : inv s' := by
  simpa only [hrun] using h s hs

theorem weaken (h : Maintains inv action result) (hwider : ∀ {value}, result value → wider value) :
    Maintains inv action wider := by
  intro s hs
  have hstep := h s hs
  split at hstep
  · exact ⟨hstep.1, hwider hstep.2⟩
  · exact hstep

theorem pure {value : α} (h : result value) :
    Maintains inv (Pure.pure value : EStateM ε σ α) result := fun _ hs => ⟨hs, h⟩

theorem throw {e : ε} : Maintains inv (throw e : EStateM ε σ α) result := fun _ hs => hs

/-- The state that is read satisfies the invariant. -/
theorem get : Maintains inv (MonadState.get : EStateM ε σ σ) inv := fun _ hs => ⟨hs, hs⟩

theorem set {s : σ} (h : inv s) : Maintains inv (MonadState.set s : EStateM ε σ PUnit) (fun _ => True) :=
  fun _ _ => ⟨h, trivial⟩

theorem modify {f : σ → σ} (h : ∀ {s}, inv s → inv (f s)) :
    Maintains inv (modify f : EStateM ε σ PUnit) (fun _ => True) := fun _ hs => ⟨h hs, trivial⟩

theorem bind {next : α → EStateM ε σ β} {result' : β → Prop} (h : Maintains inv action result)
    (hnext : ∀ value, result value → Maintains inv (next value) result') :
    Maintains inv (action >>= next) result' := by
  intro s hs
  have hstep := h s hs
  change match EStateM.bind action next s with | .ok .. => _ | .error .. => _
  unfold EStateM.bind
  rcases hrun : action s with ⟨value, s'⟩ | ⟨e, s'⟩
  · simp only [hrun] at hstep ⊢
    exact hnext value hstep.2 s' hstep.1
  · simpa only [hrun] using hstep

theorem forM {f : α → EStateM ε σ PUnit} {items : List α}
    (h : ∀ item ∈ items, Maintains inv (f item) fun _ => True) :
    Maintains inv (items.forM f) fun _ => True := by
  induction items with
  | nil => exact pure trivial
  | cons item rest ih =>
      refine bind (h item (by simp)) fun _ _ => ih fun item' hitem => h item' ?_
      exact List.mem_cons_of_mem _ hitem

theorem mapM {f : α → EStateM ε σ β} {items : List α} {result : β → Prop}
    (h : ∀ item ∈ items, Maintains inv (f item) result) :
    Maintains inv (items.mapM f) fun values => ∀ value ∈ values, result value := by
  induction items with
  | nil => exact pure (by simp)
  | cons item rest ih =>
      rw [List.mapM_cons]
      refine bind (h item (by simp)) fun value hvalue =>
        bind (ih fun item' hitem => h item' ?_) fun values hvalues => pure (List.forall_mem_cons.2 ⟨hvalue, hvalues⟩)
      exact List.mem_cons_of_mem _ hitem

theorem foldlM {f : β → α → EStateM ε σ β} {items : List α}
    (h : ∀ so, ∀ item ∈ items, Maintains inv (f so item) fun _ => True) (start : β) :
    Maintains inv (items.foldlM f start) fun _ => True := by
  induction items generalizing start with
  | nil => exact pure trivial
  | cons item rest ih =>
      rw [List.foldlM_cons]
      refine bind (h start item (by simp)) fun so _ => ih (fun so' item' hitem => h so' item' ?_) so
      exact List.mem_cons_of_mem _ hitem

end Maintains

/-- An action that succeeds runs each of its parts with success. -/
theorem bind_eq_ok {next : α → EStateM ε σ β} {s s'' : σ} {value : β} :
    (action >>= next) s = .ok value s'' ↔
      ∃ first s', action s = .ok first s' ∧ next first s' = .ok value s'' := by
  change EStateM.bind action next s = _ ↔ _
  unfold EStateM.bind
  rcases action s with ⟨first, s'⟩ | ⟨e, s'⟩
  · constructor
    · exact fun h => ⟨first, s', rfl, h⟩
    · rintro ⟨_, _, heq, h⟩
      cases heq
      exact h
  · simp

theorem map_eq_ok {f : α → β} {s s' : σ} {value : β} :
    (f <$> action) s = .ok value s' ↔ ∃ first, action s = .ok first s' ∧ f first = value := by
  rw [run_map]
  rcases action s with ⟨first, between⟩ | ⟨e, between⟩
  · constructor
    · intro h
      cases h
      exact ⟨first, rfl, rfl⟩
    · rintro ⟨_, heq, rfl⟩
      cases heq
      rfl
  · simp

/-- An action that fails does so in its first part or in the one behind it. -/
theorem bind_eq_error {next : α → EStateM ε σ β} {s s'' : σ} {e : ε} :
    (action >>= next) s = .error e s'' ↔ action s = .error e s''
      ∨ ∃ first s', action s = .ok first s' ∧ next first s' = .error e s'' := by
  change EStateM.bind action next s = _ ↔ _
  unfold EStateM.bind
  rcases action s with ⟨first, s'⟩ | ⟨e, s'⟩
  · constructor
    · exact fun h => .inr ⟨first, s', rfl, h⟩
    · rintro (h | ⟨_, _, heq, h⟩)
      · cases h
      · cases heq
        exact h
  · simp

/-- A loop that succeeds has run for every item. -/
theorem exists_of_foldlM {f : β → α → EStateM ε σ β} {items : List α} {item : α} {start value : β}
    {s s' : σ} (h : items.foldlM f start s = .ok value s') (hitem : item ∈ items) :
    ∃ so t so' t', f so item t = .ok so' t' := by
  induction items generalizing start s with
  | nil => cases hitem
  | cons first rest ih =>
      rw [List.foldlM_cons] at h
      obtain ⟨so, between, hfirst, hrest⟩ := bind_eq_ok.1 h
      rcases List.mem_cons.1 hitem with rfl | hmem
      · exact ⟨_, _, _, _, hfirst⟩
      · exact ih hrest hmem

end Maintains

/-! ### Actions that succeed -/

section Succeeds

variable {σ ε α β : Type} {action : EStateM ε σ α} {s : σ}

/-- An action ends in a value, and not in an error. -/
def Succeeds (action : EStateM ε σ α) (s : σ) : Prop := ∃ value s', action s = .ok value s'

theorem succeeds_pure (value : α) (s : σ) : Succeeds (pure value : EStateM ε σ α) s := ⟨value, s, rfl⟩

theorem not_succeeds_throw {e : ε} : ¬ Succeeds (throw e : EStateM ε σ α) s := by
  rintro ⟨_, _, hrun⟩
  cases hrun

theorem succeeds_bind {next : α → EStateM ε σ β} :
    Succeeds (action >>= next) s ↔ ∃ value s', action s = .ok value s' ∧ Succeeds (next value) s' := by
  constructor
  · rintro ⟨_, _, hrun⟩
    obtain ⟨value, s', hfirst, hrest⟩ := bind_eq_ok.1 hrun
    exact ⟨value, s', hfirst, _, _, hrest⟩
  · rintro ⟨value, s', hfirst, _, _, hrest⟩
    exact ⟨_, _, bind_eq_ok.2 ⟨value, s', hfirst, hrest⟩⟩

/-- A loop succeeds just if every item is good, if a step succeeds just if its item is. The invariant may depend on the items
that are left. -/
theorem succeeds_foldlM {f : β → α → EStateM ε σ β} {good : α → Prop} (inv : List α → σ → Prop)
    (hstep : ∀ {item rest} so {s}, inv (item :: rest) s →
      (Succeeds (f so item) s ↔ good item) ∧ ∀ {so' s'}, f so item s = .ok so' s' → inv rest s')
    {items : List α} (start : β) (h : inv items s) :
    Succeeds (items.foldlM f start) s ↔ ∀ item ∈ items, good item := by
  induction items generalizing start s with
  | nil => exact iff_of_true (succeeds_pure start s) nofun
  | cons item rest ih =>
      obtain ⟨hgood, hkeeps⟩ := hstep start h
      rw [List.foldlM_cons, succeeds_bind, List.forall_mem_cons]
      constructor
      · rintro ⟨so, s', hfirst, hrest⟩
        exact ⟨hgood.1 ⟨so, s', hfirst⟩, (ih so (hkeeps hfirst)).1 hrest⟩
      · rintro ⟨hitem, hrest⟩
        obtain ⟨so, s', hfirst⟩ := hgood.2 hitem
        exact ⟨so, s', hfirst, (ih so (hkeeps hfirst)).2 hrest⟩

end Succeeds

/-! ### Values of actions -/

section Gives

variable {σ ε α β : Type} {action : EStateM ε σ α} {result : α → Prop}

/-- Whatever value an action ends in is of some kind. -/
def Gives (action : EStateM ε σ α) (result : α → Prop) : Prop :=
  ∀ s value s', action s = .ok value s' → result value

namespace Gives

theorem pure {value : α} (h : result value) : Gives (Pure.pure value : EStateM ε σ α) result := by
  intro s given s' hrun
  cases hrun
  exact h

theorem throw {e : ε} : Gives (throw e : EStateM ε σ α) result := by
  intro s value s' hrun
  cases hrun

/-- The last part of a sequence gives its value. -/
theorem last {next : α → EStateM ε σ β} {result : β → Prop} (h : ∀ first, Gives (next first) result) :
    Gives (action >>= next) result := by
  intro s value s'' hrun
  obtain ⟨first, s', -, hnext⟩ := bind_eq_ok.1 hrun
  exact h first s' value s'' hnext

theorem ite {condition : Prop} [Decidable condition] {yes no : EStateM ε σ α} (hyes : condition → Gives yes result)
    (hno : ¬ condition → Gives no result) : Gives (if condition then yes else no) result := by
  split
  next h => exact hyes h
  next h => exact hno h

end Gives

end Gives

end ModPackager
