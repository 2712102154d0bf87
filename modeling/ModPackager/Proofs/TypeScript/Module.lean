import ModPackager.TypeScript.Module

/-!
# Items in source order

Readers never go back, so the items of a module are found one behind the other: what is left of the source only
gets shorter, and items are placed by their distance from its end (`parse_sorted`). A place further on is on no
earlier line (`lineAt_mono`).
-/

namespace ModPackager.TypeScript

namespace Reader

variable {α β : Type} {reader : Reader α} {next : α → Reader β} {cursor moved : Cursor}

theorem run_bind (reader : Reader α) (next : α → Reader β) (cursor : Cursor) :
    (reader >>= next).run cursor = match reader.run cursor with
      | .ok value between => (next value).run between
      | .error refusal between => .error refusal between := rfl

/-- A sequence of readers gives what the last one gives, from where the one before it has stopped. -/
theorem bind_eq_ok {result : β} :
    (reader >>= next).run cursor = .ok result moved
      ↔ ∃ value between, reader.run cursor = .ok value between ∧ (next value).run between = .ok result moved := by
  rw [run_bind]
  cases reader.run cursor with
  | ok value between =>
      refine ⟨fun h => ⟨value, between, rfl, h⟩, ?_⟩
      rintro ⟨_, _, hreader, hnext⟩
      cases hreader
      exact hnext
  | error refusal between =>
      constructor
      · intro h
        cases h
      · rintro ⟨_, _, hreader, -⟩
        cases hreader

/-- A reader that looks at the cursor goes on from there. -/
theorem run_read_bind (look : Cursor → Reader β) : (read >>= look).run cursor = (look cursor).run cursor := rfl

theorem length_le_of_run {result : α} (h : reader.run cursor = .ok result moved) :
    moved.start.length ≤ cursor.start.length := by
  have hforward := reader.forward cursor
  rw [h] at hforward
  exact hforward.length_le

end Reader

namespace Module

/-! ### Items -/

/-- Items come in the order of their places, none before a given one. -/
def SortedFrom (place : Nat) (items : List Item) : Prop :=
  (∀ item ∈ items, place ≤ item.start) ∧ items.Pairwise fun a b => a.start ≤ b.start

theorem SortedFrom.cons {place : Nat} {item : Item} {items : List Item} (h : SortedFrom item.start items)
    (hplace : place ≤ item.start) : SortedFrom place (item :: items) := by
  refine ⟨fun other hother => ?_, List.pairwise_cons.2 h⟩
  rcases List.mem_cons.1 hother with rfl | hmem
  · exact hplace
  · exact Nat.le_trans hplace (h.1 other hmem)

theorem SortedFrom.of_le {place place' : Nat} {items : List Item} (h : SortedFrom place items)
    (hle : place' ≤ place) : SortedFrom place' items := ⟨fun item hitem => Nat.le_trans hle (h.1 item hitem), h.2⟩

/-- Items are read one behind the other, by induction on their number: what is left behind an item is no longer
than what was left before it. -/
theorem readItems_sorted {g : Grammar} {total fuel : Nat} {cursor moved : Cursor} {items : List Item}
    (h : (readItems g total fuel).run cursor = .ok items moved) :
    SortedFrom (total - cursor.start.length) items := by
  induction fuel generalizing cursor items with
  | zero => cases h
  | succ fuel ih =>
      rw [readItems, Reader.run_read_bind] at h
      split at h
      · cases h
        exact ⟨nofun, .nil⟩
      · rw [Reader.run_read_bind] at h
        obtain ⟨head, behind, hhead, hrest⟩ := Reader.bind_eq_ok.1 h
        obtain ⟨later, ended, hlater, hreturn⟩ := Reader.bind_eq_ok.1 hrest
        cases hreturn
        have hbehind := Reader.length_le_of_run hhead
        exact ((ih hlater).of_le (Nat.sub_le_sub_left hbehind total)).cons (Nat.le_refl _)

/-- The items of a module come in the order of their places. -/
theorem parse_sorted {markup : Bool} {source : String} {module : Module} (h : parse markup source = .ok module) :
    module.items.Pairwise fun a b => a.start ≤ b.start := by
  unfold parse at h
  extract_lets at h
  split at h
  next hread =>
      cases h
      exact (readItems_sorted hread).2
  · cases h

/-! ### Lines -/

theorem lineEnds_pos {c : Char} (h : (c == '\n' || c == '\r') = true) (text : List Char) :
    0 < lineEnds (c :: text) := by
  unfold lineEnds
  split
  · exact Nat.succ_pos _
  next heq =>
    cases heq
    rw [if_pos h]
    exact Nat.succ_pos _
  next heq => cases heq

/-- More text ends no fewer lines. Only at the end of the text may a carriage return be completed by a line
feed, and it has ended its line already. -/
theorem lineEnds_le_append (text more : List Char) : lineEnds text ≤ lineEnds (text ++ more) := by
  fun_induction lineEnds text with
  | case1 rest ih => exact Nat.succ_le_succ ih
  | case2 c rest hbreak hend ih =>
      rcases rest with _ | ⟨d, rest⟩
      · exact lineEnds_pos hend more
      · have hbreak' : ∀ rest', c = '\r' → d :: (rest ++ more) = '\n' :: rest' → False := fun _ hc hd =>
          hbreak rest hc (by rw [(List.cons.inj hd).1])
        rw [List.cons_append, List.cons_append, lineEnds.eq_2 _ _ hbreak', if_pos hend]
        exact Nat.succ_le_succ ih
  | case3 c rest hbreak hend ih =>
      have hbreak' : ∀ rest', c = '\r' → rest ++ more = '\n' :: rest' → False := fun _ hc _ => by simp [hc] at hend
      rw [List.cons_append, lineEnds.eq_2 _ _ hbreak', if_neg hend]
      exact ih
  | case4 => exact Nat.zero_le _

/-- A place further on is on no earlier line. -/
theorem lineAt_mono (module : Module) {place place' : Nat} (h : place ≤ place') :
    module.lineAt place ≤ module.lineAt place' := by
  have htake : module.text.take place' = module.text.take place ++ (module.text.drop place).take (place' - place) := by
    rw [← List.take_add, Nat.add_sub_cancel' h]
  rw [lineAt, lineAt, htake]
  exact Nat.succ_le_succ (lineEnds_le_append _ _)

end Module

end ModPackager.TypeScript
