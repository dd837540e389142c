import Mathlib.Tactic

set_option autoImplicit false

namespace Probing

variable {α : Type}

def before (cells : List α) (start idx : Nat) : List α :=
  if start ≤ idx then (cells.take idx).drop start else cells.drop start ++ cells.take idx

theorem mem_before_or {cells : List α} (start : Nat) {i j : Nat} {a b : α}
    (here : cells[i]? = some a) (there : cells[j]? = some b) (different : i ≠ j) :
    a ∈ before cells start j ∨ b ∈ before cells start i := by
  have pass (i j : Nat) (a : α) (here : cells[i]? = some a)
      (way : start ≤ i ∧ (j < start ∨ i < j) ∨ i < j ∧ j < start) : a ∈ before cells start j := by
    unfold before
    split
    · refine List.mem_iff_getElem?.mpr ⟨i - start, ?_⟩
      rw [List.getElem?_drop, List.getElem?_take, if_pos (by omega), Nat.add_sub_cancel' (by omega), here]
    · rcases way with ⟨later, -⟩ | ⟨less, -⟩
      · refine List.mem_append_left _ (List.mem_iff_getElem?.mpr ⟨i - start, ?_⟩)
        rw [List.getElem?_drop, Nat.add_sub_cancel' later, here]
      · refine List.mem_append_right _ (List.mem_iff_getElem?.mpr ⟨i, ?_⟩)
        rw [List.getElem?_take, if_pos less, here]
  by_cases order : start ≤ i ∧ (j < start ∨ i < j) ∨ i < j ∧ j < start
  · exact .inl (pass i j a here order)
  · exact .inr (pass j i b there (by omega))

theorem mem_before_set {cells : List α} {start idx at_ : Nat} {new cell : α}
    (passed : cell ∈ before (cells.set at_ new) start idx) :
    cell = new ∨ cell ∈ before cells start idx := by
  have settle (part : List α) (i : Nat) (member : cell ∈ part.set i new) : cell = new ∨ cell ∈ part :=
    (List.mem_or_eq_of_mem_set member).symm
  by_cases order : start ≤ idx
  · rw [before, if_pos order, List.take_set, List.drop_set] at passed
    rw [before, if_pos order]
    split at passed
    · exact .inr passed
    · exact settle _ _ passed
  · rw [before, if_neg order, List.take_set, List.drop_set] at passed
    rw [before, if_neg order]
    rcases List.mem_append.mp passed with later | earlier
    · split at later
      · exact .inr (List.mem_append_left _ later)
      · exact (settle _ _ later).imp_right (List.mem_append_left _)
    · exact (settle _ _ earlier).imp_right (List.mem_append_right _)

def search (stop : α → Bool) (cells : List α) (start : Nat) : Option Nat :=
  let idx := start + (cells.drop start).findIdx stop
  if idx < cells.length then some idx
  else
    let idx := (cells.take start).findIdx stop
    if idx < start then some idx else none

theorem not_stop_of_findIdx {stop : α → Bool} {cells : List α} {cell : α} {count : Nat}
    (early : count ≤ cells.findIdx stop) (member : cell ∈ cells.take count) : stop cell = false := by
  obtain ⟨i, found⟩ := List.mem_iff_getElem?.mp member
  rw [List.getElem?_take] at found
  split at found
  · next less =>
    obtain ⟨inside, same⟩ := List.getElem?_eq_some_iff.mp found
    have miss : stop cells[i] = false := List.not_of_lt_findIdx (by omega)
    rw [same] at miss
    simpa using miss
  · cases found

theorem not_stop_of_full {stop : α → Bool} {cells : List α} {cell : α}
    (whole : cells.length ≤ cells.findIdx stop) (member : cell ∈ cells) : stop cell = false :=
  not_stop_of_findIdx whole (by rwa [List.take_length])

theorem search_some {stop : α → Bool} {cells : List α} {start idx : Nat}
    (bound : start ≤ cells.length) (found : search stop cells start = some idx) :
    ∃ cell, cells[idx]? = some cell ∧ stop cell = true ∧
      ∀ passed ∈ before cells start idx, stop passed = false := by
  unfold search at found
  simp only at found
  -- Either the search stops behind `start`, or it has wrapped around and stops before it.
  split at found
  · next inside =>
    cases found
    have less : (cells.drop start).findIdx stop < (cells.drop start).length := by
      rw [List.length_drop]; omega
    refine ⟨(cells.drop start)[(cells.drop start).findIdx stop], ?_, List.findIdx_getElem, ?_⟩
    · rw [← List.getElem?_drop, List.getElem?_eq_getElem less]
    · intro passed member
      rw [before, if_pos (Nat.le_add_right _ _), ← List.take_drop] at member
      exact not_stop_of_findIdx (le_refl _) member
  · next outside =>
    split at found
    · next inside =>
      cases found
      -- The part behind `start` was passed as a whole before the search wrapped around.
      have none_later : ∀ cell ∈ cells.drop start, stop cell = false := by
        intro cell member
        refine not_stop_of_full ?_ member
        rw [List.length_drop]; omega
      have less : (cells.take start).findIdx stop < (cells.take start).length := by
        rw [List.length_take]; omega
      refine ⟨(cells.take start)[(cells.take start).findIdx stop], ?_, List.findIdx_getElem, ?_⟩
      · rw [← List.getElem?_eq_getElem less, List.getElem?_take, if_pos inside]
      · intro passed member
        rw [before, if_neg (by omega)] at member
        rcases List.mem_append.mp member with later | earlier
        · exact none_later passed later
        · refine not_stop_of_findIdx (le_refl ((cells.take start).findIdx stop)) ?_
          rwa [List.take_take, Nat.min_eq_left (by omega)]
    · cases found

theorem search_none {stop : α → Bool} {cells : List α} {start : Nat}
    (missed : search stop cells start = none) : ∀ cell ∈ cells, stop cell = false := by
  unfold search at missed
  simp only at missed
  split at missed
  · cases missed
  · next outside =>
    split at missed
    · cases missed
    · next whole =>
      intro cell member
      rw [← List.take_append_drop start cells] at member
      rcases List.mem_append.mp member with earlier | later
      · refine not_stop_of_full ?_ earlier
        have := List.length_take_le start cells
        omega
      · refine not_stop_of_full ?_ later
        rw [List.length_drop]; omega

theorem search_of_mem (stop : α → Bool) {cells : List α} {start : Nat} {cell : α}
    (bound : start ≤ cells.length) (member : cell ∈ cells) (stops : stop cell = true) :
    ∃ idx cell, search stop cells start = some idx ∧ cells[idx]? = some cell ∧ stop cell = true ∧
      ∀ passed ∈ before cells start idx, stop passed = false := by
  cases found : search stop cells start with
  | none => simp [search_none found cell member] at stops
  | some idx =>
    obtain ⟨at_, here, stopped, clear⟩ := search_some bound found
    exact ⟨idx, at_, rfl, here, stopped, clear⟩

end Probing
