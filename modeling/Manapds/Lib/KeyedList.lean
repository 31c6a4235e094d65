import Mathlib.Data.List.Sort
import Mathlib.Order.Basic

/-!
# Lists kept in the order of a key

A finite map is a list whose keys strictly increase. `below` and `above` are the parts either side
of a key, `put` lays an element between them and `take` closes the gap again; the lemmas say how
these act on a list cut in pieces, which is how a tree over the list sees it.
-/

namespace KeyedList

variable {α κ : Type*} [LinearOrder κ] (key : α → κ)

def Ordered (l : List α) : Prop := l.Pairwise (fun x y => key x < key y)

def below (k : κ) (l : List α) : List α := l.filter (fun x => key x < k)

def above (k : κ) (l : List α) : List α := l.filter (fun x => k < key x)

def find (k : κ) (l : List α) : Option α := l.find? (fun x => key x = k)

def put (x : α) (l : List α) : List α := below key (key x) l ++ x :: above key (key x) l

def take (k : κ) (l : List α) : List α := below key k l ++ above key k l

variable {key} {k : κ} {x y : α} {l l' : List α}

@[simp] theorem mem_below : x ∈ below key k l ↔ x ∈ l ∧ key x < k := by simp [below]

@[simp] theorem mem_above : x ∈ above key k l ↔ x ∈ l ∧ k < key x := by simp [above]

@[simp] theorem below_nil : below key k [] = [] := rfl

@[simp] theorem above_nil : above key k [] = [] := rfl

@[simp] theorem below_append : below key k (l ++ l') = below key k l ++ below key k l' := by
  simp [below]

@[simp] theorem above_append : above key k (l ++ l') = above key k l ++ above key k l' := by
  simp [above]

theorem below_eq_self (h : ∀ x ∈ l, key x < k) : below key k l = l := by
  simpa [below, List.filter_eq_self] using h

theorem below_eq_nil (h : ∀ x ∈ l, k ≤ key x) : below key k l = [] := by
  simpa [below, List.filter_eq_nil_iff] using h

theorem above_eq_self (h : ∀ x ∈ l, k < key x) : above key k l = l := by
  simpa [above, List.filter_eq_self] using h

theorem above_eq_nil (h : ∀ x ∈ l, key x ≤ k) : above key k l = [] := by
  simpa [above, List.filter_eq_nil_iff] using h

section Middle

variable {pre post : List α} (hpre : ∀ y ∈ pre, key y < k) (hpost : ∀ y ∈ post, k < key y)

include hpre hpost

theorem below_middle : below key k (pre ++ (l ++ post)) = pre ++ below key k l := by
  rw [below_append, below_append, below_eq_self hpre, below_eq_nil fun y hy => (hpost y hy).le,
    List.append_nil]

theorem above_middle : above key k (pre ++ (l ++ post)) = above key k l ++ post := by
  rw [above_append, above_append, above_eq_nil fun y hy => (hpre y hy).le, above_eq_self hpost,
    List.nil_append]

/-- Laying an element in a list touches only the part its key falls in. -/
theorem put_middle (hx : key x = k) :
    put key x (pre ++ (l ++ post)) = pre ++ (put key x l ++ post) := by
  subst hx
  simp only [put, below_middle hpre hpost, above_middle hpre hpost, List.append_assoc,
    List.cons_append]

theorem take_middle : take key k (pre ++ (l ++ post)) = pre ++ (take key k l ++ post) := by
  simp only [take, below_middle hpre hpost, above_middle hpre hpost, List.append_assoc]

theorem below_between : below key k (pre ++ post) = pre := by
  rw [below_append, below_eq_self hpre, below_eq_nil fun y hy => (hpost y hy).le, List.append_nil]

theorem above_between : above key k (pre ++ post) = post := by
  rw [above_append, above_eq_nil fun y hy => (hpre y hy).le, above_eq_self hpost, List.nil_append]

theorem put_between (hx : key x = k) : put key x (pre ++ post) = pre ++ x :: post := by
  subst hx
  rw [put, below_between hpre hpost, above_between hpre hpost]

theorem put_at (hx : key x = k) (hy : key y = k) :
    put key x (pre ++ y :: post) = pre ++ x :: post := by
  have hb : below key k (y :: post) = below key k post := by simp [below, hy]
  have ha : above key k (y :: post) = above key k post := by simp [above, hy]
  subst hx
  rw [put, below_append, above_append, hb, ha, ← below_append, ← above_append,
    below_between hpre hpost, above_between hpre hpost]

theorem take_at (hy : key y = k) : take key k (pre ++ y :: post) = pre ++ post := by
  have hb : below key k (y :: post) = below key k post := by simp [below, hy]
  have ha : above key k (y :: post) = above key k post := by simp [above, hy]
  rw [take, below_append, above_append, hb, ha, ← below_append, ← above_append,
    below_between hpre hpost, above_between hpre hpost]

end Middle

@[simp] theorem put_nil : put key x [] = [x] := rfl

@[simp] theorem take_nil : take key k [] = [] := rfl

theorem find_eq_none : find key k l = none ↔ ∀ x ∈ l, key x ≠ k := by
  simp [find, List.find?_eq_none]

theorem find_append_left (h : ∀ x ∈ l', key x ≠ k) : find key k (l ++ l') = find key k l := by
  unfold find
  rw [List.find?_append, List.find?_eq_none (l := l') |>.mpr (by simpa using h), Option.or_none]

theorem find_append_right (h : ∀ x ∈ l, key x ≠ k) : find key k (l ++ l') = find key k l' := by
  unfold find
  rw [List.find?_append, List.find?_eq_none.mpr (by simpa using h), Option.none_or]

theorem find_cons_self (h : key x = k) : find key k (x :: l) = some x := by
  simp [find, h]

theorem find_mem (h : find key k l = some x) : x ∈ l ∧ key x = k := by
  unfold find at h
  exact ⟨List.mem_of_find?_eq_some h, by simpa using List.find?_some h⟩

@[simp] theorem mem_put : y ∈ put key x l ↔ y = x ∨ y ∈ l ∧ key y ≠ key x := by
  simp only [put, List.mem_append, List.mem_cons, mem_below, mem_above, ne_iff_lt_or_gt]
  tauto

@[simp] theorem mem_take : y ∈ take key k l ↔ y ∈ l ∧ key y ≠ k := by
  simp only [take, List.mem_append, mem_below, mem_above, ne_iff_lt_or_gt]
  tauto

theorem take_eq_self (h : ∀ x ∈ l, key x ≠ k) (hl : Ordered key l) : take key k l = l := by
  induction l with
  | nil => rfl
  | cons x l ih =>
    obtain ⟨hx, hl⟩ := List.pairwise_cons.mp hl
    have hi := ih (fun y hy => h y (List.mem_cons_of_mem x hy)) hl
    rcases lt_or_gt_of_ne (h x List.mem_cons_self) with hlt | hgt
    · have hb : below key k (x :: l) = x :: below key k l := by simp [below, hlt]
      have ha : above key k (x :: l) = above key k l := by simp [above, hlt.le]
      rw [take, hb, ha, List.cons_append]
      exact congrArg (x :: ·) hi
    · have hall : ∀ y ∈ x :: l, k < key y := by
        intro y hy
        rcases List.mem_cons.mp hy with rfl | hy
        · exact hgt
        · exact hgt.trans (hx y hy)
      rw [take, below_eq_nil (fun y hy => (hall y hy).le), above_eq_self hall, List.nil_append]

namespace Ordered

theorem below (h : Ordered key l) : Ordered key (below key k l) := List.Pairwise.filter _ h

theorem above (h : Ordered key l) : Ordered key (above key k l) := List.Pairwise.filter _ h

theorem append_iff : Ordered key (l ++ l') ↔
    Ordered key l ∧ Ordered key l' ∧ ∀ x ∈ l, ∀ y ∈ l', key x < key y := List.pairwise_append

/-- What stands before an element is below it, and what stands after it above. -/
theorem around {pre post : List α} (h : Ordered key (pre ++ x :: post)) :
    (∀ y ∈ pre, key y < key x) ∧ ∀ y ∈ post, key x < key y := by
  obtain ⟨-, h2, h3⟩ := append_iff.mp h
  exact ⟨fun y hy => h3 y hy x List.mem_cons_self, (List.pairwise_cons.mp h2).1⟩

theorem put (h : Ordered key l) : Ordered key (put key x l) := by
  refine append_iff.mpr ⟨h.below, List.pairwise_cons.mpr ⟨?_, h.above⟩, ?_⟩
  · intro y hy
    exact (mem_above.mp hy).2
  · intro y hy z hz
    rcases List.mem_cons.mp hz with rfl | hz
    · exact (mem_below.mp hy).2
    · exact (mem_below.mp hy).2.trans (mem_above.mp hz).2

theorem take (h : Ordered key l) : Ordered key (take key k l) :=
  append_iff.mpr ⟨h.below, h.above, fun _ hx _ hy =>
    (mem_below.mp hx).2.trans (mem_above.mp hy).2⟩

theorem nodup_keys (h : Ordered key l) : (l.map key).Nodup :=
  (List.pairwise_map.mpr h).imp ne_of_lt

theorem eq_of_key_eq (h : Ordered key l) (hx : x ∈ l) (hy : y ∈ l) (he : key x = key y) :
    x = y := List.inj_on_of_nodup_map h.nodup_keys hx hy he

theorem find_eq_some (h : Ordered key l) : find key k l = some x ↔ x ∈ l ∧ key x = k := by
  refine ⟨find_mem, fun ⟨hx, hk⟩ => ?_⟩
  cases hf : find key k l with
  | none => exact absurd hk (find_eq_none.mp hf x hx)
  | some y =>
    obtain ⟨hy, hyk⟩ := find_mem hf
    rw [h.eq_of_key_eq hy hx (hyk.trans hk.symm)]

/-- An ordered list is determined by what it holds. -/
theorem ext (h : Ordered key l) (h' : Ordered key l') (hm : ∀ x, x ∈ l ↔ x ∈ l') : l = l' := by
  have hp : l.Perm l' := (List.perm_ext_iff_of_nodup h.nodup_keys.of_map h'.nodup_keys.of_map).mpr hm
  exact hp.eq_of_pairwise (fun x y _ _ hxy hyx => absurd hxy hyx.not_gt) h h'

theorem find_put (h : Ordered key l) :
    find key k (KeyedList.put key x l) = if key x = k then some x else find key k l := by
  split_ifs with hk
  · exact h.put.find_eq_some.mpr ⟨mem_put.mpr (Or.inl rfl), hk⟩
  · cases hf : find key k l with
    | none =>
      refine find_eq_none.mpr fun y hy => ?_
      rcases mem_put.mp hy with rfl | ⟨hy, _⟩
      · exact hk
      · exact find_eq_none.mp hf y hy
    | some y =>
      obtain ⟨hy, rfl⟩ := find_mem hf
      exact h.put.find_eq_some.mpr ⟨mem_put.mpr (Or.inr ⟨hy, Ne.symm hk⟩), rfl⟩

theorem find_take (h : Ordered key l) {k' : κ} :
    find key k (KeyedList.take key k' l) = if k' = k then none else find key k l := by
  split_ifs with hk
  · exact find_eq_none.mpr fun y hy => hk ▸ (mem_take.mp hy).2
  · cases hf : find key k l with
    | none => exact find_eq_none.mpr fun y hy => find_eq_none.mp hf y (mem_take.mp hy).1
    | some y =>
      obtain ⟨hy, rfl⟩ := find_mem hf
      exact h.take.find_eq_some.mpr ⟨mem_take.mpr ⟨hy, Ne.symm hk⟩, rfl⟩

end Ordered

end KeyedList
