import Mathlib.Data.List.Basic
import Mathlib.Data.List.GetD
import Mathlib.Data.Set.Operations

/-!
# Words cut into groups

A word is read a group of `k` symbols at a time, and what the last group lacks is filled with a
symbol for nothing. `groups` says where in the word each symbol of each group stands. The lemmas
below take the groups off the front one by one, as a program that reads the word meets them.
-/

namespace Groups

variable {α β : Type*} {k : ℕ} {pad : α}

/-- The `j`th group, with `pad` wherever the word has ended. -/
def group (k : ℕ) (pad : α) (w : List α) (j : ℕ) : List α :=
  (List.range k).map fun r => w.getD (k * j + r) pad

/-- As many groups as it takes to hold the word. -/
def groups (k : ℕ) (pad : α) (w : List α) : List (List α) :=
  (List.range ((w.length + (k - 1)) / k)).map (group k pad w)

@[simp] theorem length_group (w : List α) (j : ℕ) : (group k pad w j).length = k := by simp [group]

@[simp] theorem length_groups (w : List α) :
    (groups k pad w).length = (w.length + (k - 1)) / k := by simp [groups]

theorem group_append_zero {g : List α} (hg : g.length = k) (w : List α) :
    group k pad (g ++ w) 0 = g := by
  apply List.ext_getElem
  · rw [length_group, hg]
  · intro r hr hr'
    simp only [group, List.getElem_map, List.getElem_range, Nat.mul_zero, Nat.zero_add]
    rw [List.getD_append _ _ _ _ hr', List.getD_eq_getElem _ _ hr']

theorem group_append_succ {g : List α} (hg : g.length = k) (w : List α) (j : ℕ) :
    group k pad (g ++ w) (j + 1) = group k pad w j := by
  apply List.map_congr_left
  intro r _
  have hle : g.length ≤ k * (j + 1) + r := by
    rw [hg, Nat.mul_succ]
    omega
  have hat : k * (j + 1) + r - g.length = k * j + r := by
    rw [hg, Nat.mul_succ]
    omega
  rw [List.getD_append_right _ _ _ _ hle, hat]

/-- A word read from its first group on. -/
theorem groups_append (hk : 0 < k) {g : List α} (hg : g.length = k) (w : List α) :
    groups k pad (g ++ w) = g :: groups k pad w := by
  have hcount : ((g ++ w).length + (k - 1)) / k = (w.length + (k - 1)) / k + 1 := by
    rw [List.length_append, hg, Nat.add_assoc, Nat.add_comm, Nat.add_div_right _ hk]
  rw [groups, hcount, List.range_succ_eq_map, List.map_cons, group_append_zero hg, List.map_map]
  apply congrArg (g :: ·)
  apply List.map_congr_left
  intro j _
  exact group_append_succ hg w j

@[simp] theorem groups_nil (hk : 0 < k) : groups k pad [] = [] := by
  rw [groups, List.length_nil, Nat.zero_add, Nat.div_eq_of_lt (by omega)]
  rfl

theorem groups_flatten_append (hk : 0 < k) {full : List (List α)} (hfull : ∀ g ∈ full, g.length = k)
    (w : List α) : groups k pad (full.flatten ++ w) = full ++ groups k pad w := by
  induction full with
  | nil => rfl
  | cons g full ih =>
    have hg := hfull g List.mem_cons_self
    have hrest := ih fun g hg => hfull g (List.mem_cons_of_mem _ hg)
    rw [List.flatten_cons, List.append_assoc, groups_append hk hg, hrest, List.cons_append]

/-- A word that fills its groups ends them. -/
theorem groups_append_of_length (hk : 0 < k) {n : ℕ} {v : List α} (hv : v.length = k * n)
    (w : List α) : groups k pad (v ++ w) = groups k pad v ++ groups k pad w := by
  induction n generalizing v with
  | zero =>
    obtain rfl := List.length_eq_zero_iff.mp (hv.trans (Nat.mul_zero k))
    rw [groups_nil hk, List.nil_append, List.nil_append]
  | succ n ih =>
    have hlen : v.length = k * n + k := hv
    have hfirst : (v.take k).length = k := by
      rw [List.length_take]
      omega
    have hrest : (v.drop k).length = k * n := by
      rw [List.length_drop]
      omega
    have hgroups : groups k pad (v.take k ++ v.drop k) = _ := groups_append hk hfirst (v.drop k)
    have happend : groups k pad (v.take k ++ (v.drop k ++ w)) = _ :=
      groups_append hk hfirst (v.drop k ++ w)
    rw [List.take_append_drop] at hgroups
    rw [← List.append_assoc, List.take_append_drop] at happend
    rw [hgroups, happend, ih hrest, List.cons_append]

/-- What is too short for a group is filled up to one. -/
theorem groups_of_short {w : List α} (h0 : 0 < w.length) (hk : w.length < k) :
    groups k pad w = [w ++ List.replicate (k - w.length) pad] := by
  have hcount : (w.length + (k - 1)) / k = 1 := by
    apply Nat.div_eq_of_lt_le <;> omega
  have hgroup : group k pad w 0 = w ++ List.replicate (k - w.length) pad := by
    apply List.ext_getElem
    · rw [length_group, List.length_append, List.length_replicate]
      omega
    · intro r hr hr'
      simp only [group, List.getElem_map, List.getElem_range, Nat.mul_zero, Nat.zero_add]
      by_cases h : r < w.length
      · rw [List.getD_eq_getElem _ _ h, List.getElem_append_left h]
      · rw [List.getD_eq_default _ _ (by omega), List.getElem_append_right (by omega),
          List.getElem_replicate]
  rw [groups, hcount, List.range_one, List.map_singleton, hgroup]

/-- Blocks of one length are the groups of what they make up. -/
theorem groups_flatMap (hk : 0 < k) {block : β → List α} (hblock : ∀ b, (block b).length = k)
    (l : List β) : groups k pad (l.flatMap block) = l.map block := by
  have hfull : ∀ g ∈ l.map block, g.length = k := by
    intro g hg
    obtain ⟨b, -, rfl⟩ := List.mem_map.mp hg
    exact hblock b
  rw [List.flatMap_def, ← List.append_nil (l.map block).flatten, groups_flatten_append hk hfull,
    groups_nil hk, List.append_nil]

theorem flatMap_injective (pad : α) (hk : 0 < k) {block : β → List α}
    (hblock : ∀ b, (block b).length = k) (hinj : Function.Injective block) :
    Function.Injective (List.flatMap block) := by
  intro l m h
  have hgroups := congrArg (groups k pad) h
  rw [groups_flatMap hk hblock, groups_flatMap hk hblock] at hgroups
  exact List.map_injective_iff.mpr hinj hgroups

theorem getD_group (pad : α) (w : List α) (j : ℕ) {r : ℕ} (hr : r < k) :
    (group k pad w j).getD r pad = w.getD (k * j + r) pad := by
  rw [List.getD_eq_getElem _ _ (by rwa [length_group])]
  simp [group]

/-- A word of a known length is read back from what stands for its groups. -/
theorem eq_of_map_groups_eq (hk : 0 < k) {f : List α → β}
    (hf : Set.InjOn f {g | g.length = k}) {v w : List α} (hl : v.length = w.length)
    (h : (groups k pad v).map f = (groups k pad w).map f) : v = w := by
  rw [groups, groups, hl, List.map_map, List.map_map, List.map_inj_left] at h
  apply List.ext_getElem hl
  intro i hv hw
  have hj : i / k < (w.length + (k - 1)) / k := by
    rw [Nat.div_lt_iff_lt_mul hk]
    have hmod := Nat.mod_lt (w.length + (k - 1)) hk
    have hdiv := Nat.div_add_mod' (w.length + (k - 1)) k
    omega
  have hgroup := hf (length_group v _) (length_group w _) (h (i / k) (List.mem_range.mpr hj))
  have hr : i % k < k := Nat.mod_lt i hk
  have hat := getD_group pad v (i / k) hr
  rw [hgroup, getD_group pad w _ hr, Nat.div_add_mod, List.getD_eq_getElem _ _ hv,
    List.getD_eq_getElem _ _ hw] at hat
  exact hat.symm

end Groups
