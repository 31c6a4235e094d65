import Mathlib.Data.List.Basic

/-!
# The difference of two sequences, worked out piece by piece

Two sequences are gone through side by side. A piece of the first counts as removed and a piece of
the second as added, one cancelling the other, and a stretch both start with may be passed over
unseen. `Settles l r d d'` says that going through `l` and `r` so, in whatever order, takes the
count from `d` to `d'`.

The order does not matter to the outcome: what only `l` has is removed in the end, and what each
has once is not.
-/

namespace SetDiff

variable {α : Type} [DecidableEq α]

/-- What was put in and what was taken out, with what is on both sides taken off each. -/
structure Diff (α : Type) where
  added : List α
  removed : List α
deriving Repr

namespace Diff

def empty : Diff α := ⟨[], []⟩

def add (d : Diff α) (c : α) : Diff α :=
  if c ∈ d.removed then { d with removed := d.removed.filter (· ≠ c) }
  else { d with added := d.added.insert c }

def remove (d : Diff α) (c : α) : Diff α :=
  if c ∈ d.added then { d with added := d.added.filter (· ≠ c) }
  else { d with removed := d.removed.insert c }

variable {d : Diff α} {c x : α}

theorem mem_removed_add : x ∈ (d.add c).removed ↔ x ∈ d.removed ∧ x ≠ c := by
  unfold add
  split_ifs with h
  · simp
  · refine ⟨fun hx => ⟨hx, ?_⟩, And.left⟩
    rintro rfl
    exact h hx

theorem mem_added_add : x ∈ (d.add c).added ↔ x ∈ d.added ∨ x = c ∧ c ∉ d.removed := by
  unfold add
  split_ifs with h
  · simp [h]
  · simp [h, or_comm]

theorem mem_removed_remove : x ∈ (d.remove c).removed ↔ x ∈ d.removed ∨ x = c ∧ c ∉ d.added := by
  unfold remove
  split_ifs with h
  · simp [h]
  · simp [h, or_comm]

theorem mem_added_remove : x ∈ (d.remove c).added ↔ x ∈ d.added ∧ x ≠ c := by
  unfold remove
  split_ifs with h
  · simp
  · refine ⟨fun hx => ⟨hx, ?_⟩, And.left⟩
    rintro rfl
    exact h hx

end Diff

inductive Settles : List α → List α → Diff α → Diff α → Prop where
  | done (d : Diff α) : Settles [] [] d d
  | remove (c : α) {l r : List α} {d d' : Diff α} :
      Settles l r (d.remove c) d' → Settles (c :: l) r d d'
  | add (c : α) {l r : List α} {d d' : Diff α} :
      Settles l r (d.add c) d' → Settles l (c :: r) d d'
  | skip (s : List α) {l r : List α} {d d' : Diff α} :
      Settles l r d d' → Settles (s ++ l) (s ++ r) d d'

namespace Settles

variable {l r : List α} {d d' : Diff α} {x : α}

/-- What is not on the right is removed exactly if it is on the left. -/
theorem mem_removed (h : Settles l r d d') (hr : x ∉ r) (ha : x ∉ d.added) :
    x ∈ d'.removed ↔ x ∈ d.removed ∨ x ∈ l := by
  induction h with
  | done d => simp
  | @remove c l r d d' _ ih =>
    have hadded : x ∉ (d.remove c).added := fun hx => ha (Diff.mem_added_remove.mp hx).1
    rw [ih hr hadded, Diff.mem_removed_remove, List.mem_cons]
    constructor
    · rintro ((hx | ⟨hx, -⟩) | hx)
      · exact Or.inl hx
      · exact Or.inr (Or.inl hx)
      · exact Or.inr (Or.inr hx)
    · rintro (hx | rfl | hx)
      · exact Or.inl (Or.inl hx)
      · exact Or.inl (Or.inr ⟨rfl, ha⟩)
      · exact Or.inr hx
  | @add c l r d d' _ ih =>
    obtain ⟨hc, hr⟩ := not_or.mp fun hx => hr (List.mem_cons.mpr hx)
    have hadded : x ∉ (d.add c).added := fun hx =>
      (Diff.mem_added_add.mp hx).elim ha fun hx => hc hx.1
    rw [ih hr hadded, Diff.mem_removed_add]
    simp [hc]
  | skip s _ ih =>
    have hs : x ∉ s := fun hx => hr (List.mem_append_left _ hx)
    rw [ih (fun hx => hr (List.mem_append_right _ hx)) ha, List.mem_append]
    simp [hs]

/-- Only what is on the left is removed. -/
theorem mem_left_of_mem_removed (h : Settles l r d d') (hx : x ∈ d'.removed) :
    x ∈ d.removed ∨ x ∈ l := by
  induction h with
  | done d => exact Or.inl hx
  | remove c _ ih =>
    rcases ih hx with hx | hx
    · rcases Diff.mem_removed_remove.mp hx with hx | ⟨rfl, -⟩
      · exact Or.inl hx
      · exact Or.inr List.mem_cons_self
    · exact Or.inr (List.mem_cons_of_mem c hx)
  | add c _ ih => exact (ih hx).imp (fun hx => (Diff.mem_removed_add.mp hx).1) id
  | skip s _ ih => exact (ih hx).imp id fun hx => List.mem_append_right s hx

/-- What is at most once on either side is removed exactly if it is on the left alone. -/
theorem mem_removed_of_count (h : Settles l r d d') (hl : l.count x ≤ 1) (hr : r.count x ≤ 1)
    (hd : x ∈ d.removed → x ∉ l ∧ x ∉ d.added) (ha : x ∈ d.added → x ∉ r) :
    x ∈ d'.removed ↔ (x ∈ d.removed ∨ x ∈ l) ∧ x ∉ d.added ∧ x ∉ r := by
  induction h with
  | done d =>
    simp only [List.not_mem_nil, or_false, not_false_eq_true, and_true]
    exact ⟨fun hx => ⟨hx, (hd hx).2⟩, And.left⟩
  | @remove c l r d d' _ ih =>
    by_cases hc : x = c
    · subst hc
      have hn : x ∉ l := by
        rw [List.count_cons_self] at hl
        exact List.count_eq_zero.mp (by omega)
      have hrem : x ∉ d.removed := fun hx => (hd hx).1 List.mem_cons_self
      rw [ih (by rw [List.count_eq_zero.mpr hn]; omega) hr]
      · simp only [Diff.mem_removed_remove, Diff.mem_added_remove, hn, hrem, List.mem_cons_self]
        simp
      · exact fun hx => ⟨hn, fun hx' => (Diff.mem_added_remove.mp hx').2 rfl⟩
      · exact fun hx => absurd rfl (Diff.mem_added_remove.mp hx).2
    · rw [List.count_cons_of_ne (Ne.symm hc)] at hl
      have hmem : x ∈ (d.remove c).removed ↔ x ∈ d.removed := by simp [Diff.mem_removed_remove, hc]
      have hmem' : x ∈ (d.remove c).added ↔ x ∈ d.added := by simp [Diff.mem_added_remove, hc]
      rw [ih hl hr]
      · simp only [hmem, hmem', List.mem_cons, hc, false_or]
      · rw [hmem, hmem']
        exact fun hx => ⟨fun hx' => (hd hx).1 (List.mem_cons_of_mem c hx'), (hd hx).2⟩
      · rw [hmem']
        exact ha
  | @add c l r d d' _ ih =>
    by_cases hc : x = c
    · subst hc
      have hn : x ∉ r := by
        rw [List.count_cons_self] at hr
        exact List.count_eq_zero.mp (by omega)
      have hadd : x ∉ d.added := fun hx => ha hx List.mem_cons_self
      rw [ih hl (by rw [List.count_eq_zero.mpr hn]; omega)]
      · simp only [Diff.mem_removed_add, Diff.mem_added_add, hn, List.mem_cons_self]
        simp only [ne_eq, not_true_eq_false, and_false, false_or, true_and, not_or, not_not,
          not_false_eq_true, and_true, iff_false, not_and]
        exact fun hx _ hx' => (hd hx').1 hx
      · exact fun hx => absurd rfl (Diff.mem_removed_add.mp hx).2
      · exact fun _ => hn
    · rw [List.count_cons_of_ne (Ne.symm hc)] at hr
      have hmem : x ∈ (d.add c).removed ↔ x ∈ d.removed := by simp [Diff.mem_removed_add, hc]
      have hmem' : x ∈ (d.add c).added ↔ x ∈ d.added := by simp [Diff.mem_added_add, hc]
      rw [ih hl hr]
      · simp only [hmem, hmem', List.mem_cons, hc, false_or]
      · rw [hmem, hmem']
        exact hd
      · rw [hmem']
        exact fun hx hx' => ha hx (List.mem_cons_of_mem c hx')
  | @skip s l r d d' _ ih =>
    rw [List.count_append] at hl hr
    rw [ih (by omega) (by omega)]
    · by_cases hs : x ∈ s
      · have hpos : 0 < s.count x := List.count_pos_iff.mpr hs
        have hl' : x ∉ l := List.count_eq_zero.mp (by omega)
        have hrem : x ∉ d.removed := fun hx => (hd hx).1 (List.mem_append_left l hs)
        simp [hs, hl', hrem]
      · simp [hs]
    · exact fun hx => ⟨fun hx' => (hd hx).1 (List.mem_append_right s hx'), (hd hx).2⟩
    · exact fun hx hx' => ha hx (List.mem_append_right s hx')

end Settles

end SetDiff
