import Manapds.Lib.KeyedList
import Manapds.Repo.Mst

/-!
# The shape of a tree

A layer and the leaves at or under it say everything about a node: the leaves of the layer stand
in it and the runs between them are the nodes below. `nodeAt` is that node, `cidAt` its CID and
`nodesOf` every node from it down. Two nodes with something under them have the same CID only if
they are the same node.
-/

namespace Manapds

open KeyedList

variable {Cid : Type}

/-- Leaves in key order, each under a key the tree takes. -/
structure WellKeyed (xs : List (Leaf Cid)) : Prop where
  ordered : Ordered Leaf.key xs
  valid : ∀ x ∈ xs, (ensureValidKey x.key : Except (RepoError Cid) Unit) = .ok ()

namespace WellKeyed

variable {xs ys : List (Leaf Cid)}

theorem nil : WellKeyed ([] : List (Leaf Cid)) := ⟨List.Pairwise.nil, by simp⟩

theorem append_left (h : WellKeyed (xs ++ ys)) : WellKeyed xs :=
  ⟨(Ordered.append_iff.mp h.ordered).1, fun x hx => h.valid x (List.mem_append_left ys hx)⟩

theorem append_right (h : WellKeyed (xs ++ ys)) : WellKeyed ys :=
  ⟨(Ordered.append_iff.mp h.ordered).2.1, fun x hx => h.valid x (List.mem_append_right xs hx)⟩

theorem lt (h : WellKeyed (xs ++ ys)) {x y : Leaf Cid} (hx : x ∈ xs) (hy : y ∈ ys) :
    x.key < y.key := (Ordered.append_iff.mp h.ordered).2.2 x hx y hy

theorem sublist (h : WellKeyed xs) (hs : ys.Sublist xs) : WellKeyed ys :=
  ⟨List.Pairwise.sublist hs h.ordered, fun x hx => h.valid x (hs.subset hx)⟩

theorem disjoint (h : WellKeyed (xs ++ ys)) : xs.Disjoint ys := fun _ hx hy =>
  lt_irrefl _ (h.lt hx hy)

theorem put {x : Leaf Cid} (h : WellKeyed xs)
    (hv : (ensureValidKey x.key : Except (RepoError Cid) Unit) = .ok ()) :
    WellKeyed (KeyedList.put Leaf.key x xs) := by
  refine ⟨h.ordered.put, fun y hy => ?_⟩
  rcases mem_put.mp hy with rfl | hy
  · exact hv
  · exact h.valid y hy.1

theorem take {key : Str} (h : WellKeyed xs) : WellKeyed (KeyedList.take Leaf.key key xs) :=
  ⟨h.ordered.take, fun y hy => h.valid y (mem_take.mp hy).1⟩

end WellKeyed

namespace Shape

/-! ## Keys written against the key before -/

theorem sharedPrefix_spec (a b : Str) : sharedPrefix a b ≤ a.length ∧ sharedPrefix a b ≤ b.length ∧
    a.take (sharedPrefix a b) = b.take (sharedPrefix a b) := by
  induction a generalizing b with
  | nil => simp [sharedPrefix]
  | cons x a ih =>
    cases b with
    | nil => simp [sharedPrefix]
    | cons y b =>
      obtain ⟨h1, h2, h3⟩ := ih b
      unfold sharedPrefix at h1 h2 h3 ⊢
      rw [List.zip_cons_cons, List.takeWhile_cons]
      split_ifs with hxy
      · obtain rfl : x = y := by simpa using hxy
        simpa using ⟨h1, h2, h3⟩
      · simp

theorem take_append_drop_sharedPrefix (a b : Str) :
    a.take (sharedPrefix a b) ++ b.drop (sharedPrefix a b) = b := by
  rw [(sharedPrefix_spec a b).2.2, List.take_append_drop]

theorem of_ensureValidKey {key : Str}
    (h : (ensureValidKey key : Except (RepoError Cid) Unit) = .ok ()) :
    key.length ≤ maxKeyLen ∧ ∀ b ∈ key, b = ascii '/' ∨ isKeyByte b = true := by
  unfold ensureValidKey at h
  split at h
  · by_cases hv : key.length ≤ maxKeyLen ∧ ∀ b ∈ key, b = ascii '/' ∨ isKeyByte b = true
    · exact hv
    · rw [if_neg] at h
      · cases h
      · simp only [Bool.and_eq_true, decide_eq_true_eq, List.all_eq_true, Bool.or_eq_true]
        exact fun hall => hv ⟨hall.1.1.1, hall.2⟩
  · cases h

set_option maxRecDepth 2000 in
theorem ascii_of_isKeyByte : ∀ b : Byte, b = ascii '/' ∨ isKeyByte b = true → b.val < 128 := by
  decide

theorem ascii_of_ensureValidKey {key : Str}
    (h : (ensureValidKey key : Except (RepoError Cid) Unit) = .ok ()) : ∀ b ∈ key, b.val < 128 :=
  fun b hb => ascii_of_isKeyByte b ((of_ensureValidKey h).2 b hb)

/-- Leaves as a node stores them, each beside the CID of the node for the run after it. -/
def storedFrom (child : List (Leaf Cid) → Option Cid) :
    Str → List (Leaf Cid × List (Leaf Cid)) → List (TreeEntry Cid)
  | _, [] => []
  | last, (x, under) :: rest =>
    ⟨sharedPrefix last x.key, x.key.drop (sharedPrefix last x.key), x.value, child under⟩ ::
      storedFrom child x.key rest

/-- A run as a freshly read node holds it. -/
def lazyRun (child : List (Leaf Cid) → Option Cid) (under : Option ℕ) (ys : List (Leaf Cid)) :
    List (Entry Cid) :=
  Mst.toEntries ((child ys).map fun cid => .mk none under (some cid))

/-- The entries of a freshly read node. -/
def lazyEntries (child : List (Leaf Cid) → Option Cid) (under : Option ℕ)
    (g : List (Leaf Cid) × List (Leaf Cid × List (Leaf Cid))) : List (Entry Cid) :=
  lazyRun child under g.1 ++ g.2.flatMap fun p => .leaf p.1 :: lazyRun child under p.2

variable {child : List (Leaf Cid) → Option Cid} {under : Option ℕ} {last : Str}

theorem storedFrom_eq_nil {g : List (Leaf Cid × List (Leaf Cid))} :
    storedFrom child last g = [] ↔ g = [] := by
  cases g <;> simp [storedFrom]

theorem deserializeFrom_storedFrom {g : List (Leaf Cid × List (Leaf Cid))}
    (hv : ∀ p ∈ g, (ensureValidKey p.1.key : Except (RepoError Cid) Unit) = .ok ())
    (hl : ∀ b ∈ last, b.val < 128) :
    Mst.deserializeFrom under last (storedFrom child last g) =
      .ok (g.flatMap fun p => .leaf p.1 :: lazyRun child under p.2) := by
  induction g generalizing last with
  | nil => rfl
  | cons p g ih =>
    obtain ⟨x, ys⟩ := p
    have hx := hv (x, ys) List.mem_cons_self
    have ha := ascii_of_ensureValidKey hx
    have hu : Str.isUtf8 (x.key.drop (sharedPrefix last x.key)) = true :=
      Str.isUtf8_of_ascii fun b hb => ha b (List.mem_of_mem_drop hb)
    have hg := Str.getTo_of_ascii hl (sharedPrefix_spec last x.key).1
    have hi := ih (fun q hq => hv q (List.mem_cons_of_mem _ hq)) ha
    simp only [storedFrom, Mst.deserializeFrom, hu, if_true, hg, take_append_drop_sharedPrefix, hx,
      hi]
    rfl

theorem storedFrom_p_le {g : List (Leaf Cid × List (Leaf Cid))} {entry : TreeEntry Cid}
    (hv : ∀ p ∈ g, (ensureValidKey p.1.key : Except (RepoError Cid) Unit) = .ok ())
    (he : entry ∈ storedFrom child last g) : entry.p ≤ maxKeyLen := by
  induction g generalizing last with
  | nil => simp [storedFrom] at he
  | cons p g ih =>
    rcases List.mem_cons.mp he with rfl | he
    · exact (sharedPrefix_spec last p.1.key).2.1.trans
        (of_ensureValidKey (hv p List.mem_cons_self)).1
    · exact ih (fun q hq => hv q (List.mem_cons_of_mem p hq)) he

theorem storedFrom_inj {g g' : List (Leaf Cid × List (Leaf Cid))}
    (hc : ∀ p ∈ g, ∀ q ∈ g', child p.2 = child q.2 → p.2 = q.2)
    (h : storedFrom child last g = storedFrom child last g') : g = g' := by
  induction g generalizing last g' with
  | nil =>
    cases g' with
    | nil => rfl
    | cons q g' => simp [storedFrom] at h
  | cons p g ih =>
    cases g' with
    | nil => simp [storedFrom] at h
    | cons q g' =>
      simp only [storedFrom, List.cons.injEq, TreeEntry.mk.injEq] at h
      obtain ⟨⟨hp, hkey, hval, hchild⟩, hrest⟩ := h
      have hk : p.1.key = q.1.key := by
        have h1 := take_append_drop_sharedPrefix last p.1.key
        have h2 := take_append_drop_sharedPrefix last q.1.key
        rw [hkey, hp] at h1
        exact h1.symm.trans h2
      have hl : p.1 = q.1 := by
        cases hpl : p.1
        cases hql : q.1
        simp_all
      have hr := hc p List.mem_cons_self q List.mem_cons_self hchild
      rw [← hk] at hrest
      rw [Prod.ext hl hr, ih (fun a ha b hb => hc a (List.mem_cons_of_mem p ha) b
        (List.mem_cons_of_mem q hb)) hrest]

end Shape

/-! ## Layers -/

variable [Codec Cid]

def Leaf.zeros (leaf : Leaf Cid) : ℕ := leadingZeros Cid leaf.key

theorem byteLeadingZeros_le (b : Byte) : byteLeadingZeros b ≤ 8 := Nat.sub_le _ _

theorem leadingZerosFrom_le (bytes : List Byte) : leadingZerosFrom bytes ≤ 4 * bytes.length := by
  induction bytes with
  | nil => exact Nat.le_refl 0
  | cons b rest ih =>
    have hb := byteLeadingZeros_le b
    have hd : byteLeadingZeros b / 2 ≤ 4 := by omega
    simp only [leadingZerosFrom, List.length_cons]
    split_ifs <;> omega

/-- The ceiling the depth rule puts on a key. -/
theorem leadingZeros_le (key : Bytes) : leadingZeros Cid key ≤ 128 := by
  have h := leadingZerosFrom_le (Codec.sha256 Cid key).toList
  have hl : (Codec.sha256 Cid key).toList.length = 32 := by simp
  unfold leadingZeros
  omega

/-- Every leaf sits at or under a layer. -/
def Fits (ℓ : ℕ) (xs : List (Leaf Cid)) : Prop := ∀ x ∈ xs, x.zeros ≤ ℓ

/-- Every leaf sits under a layer. -/
def FitsUnder (ℓ : ℕ) (xs : List (Leaf Cid)) : Prop := ∀ x ∈ xs, x.zeros < ℓ

/-- The layer of the highest leaf. -/
def topLayer (xs : List (Leaf Cid)) : ℕ := xs.foldr (fun x m => max x.zeros m) 0

section

variable {ℓ : ℕ} {xs : List (Leaf Cid)}

theorem topLayer_eq (hf : Fits ℓ xs) {x : Leaf Cid} (hx : x ∈ xs) (hz : x.zeros = ℓ) :
    topLayer xs = ℓ := by
  refine le_antisymm ?_ ?_
  · clear hx
    induction xs with
    | nil => exact Nat.zero_le ℓ
    | cons y xs ih =>
      exact max_le (hf y List.mem_cons_self) (ih fun z hz => hf z (List.mem_cons_of_mem y hz))
  · clear hf
    subst hz
    induction xs with
    | nil => cases hx
    | cons y xs ih =>
      rcases List.mem_cons.mp hx with rfl | hx
      · exact le_max_left _ _
      · exact (ih hx).trans (le_max_right _ _)

theorem exists_zeros_eq_topLayer (h : xs ≠ []) : ∃ x ∈ xs, x.zeros = topLayer xs := by
  induction xs with
  | nil => exact absurd rfl h
  | cons x xs ih =>
    by_cases hx : topLayer xs ≤ x.zeros
    · exact ⟨x, List.mem_cons_self, (max_eq_left hx).symm⟩
    · have hne : xs ≠ [] := by
        rintro rfl
        exact hx (Nat.zero_le _)
      obtain ⟨y, hy, hz⟩ := ih hne
      exact ⟨y, List.mem_cons_of_mem x hy, hz.trans (max_eq_right (le_of_not_ge hx)).symm⟩

/-- A tree at the layer of its highest leaf. -/
def AtTop (ℓ : ℕ) (xs : List (Leaf Cid)) : Prop := xs ≠ [] → ℓ = topLayer xs

theorem topLayer_put {x : Leaf Cid} {m : ℕ} (hf : Fits ℓ xs) (htop : AtTop ℓ xs)
    (hm : m = if xs = [] then x.zeros else max ℓ x.zeros) (hkey : ∀ y ∈ xs, y.key ≠ x.key) :
    topLayer (KeyedList.put Leaf.key x xs) = m := by
  have hfit : Fits m (KeyedList.put Leaf.key x xs) := by
    intro y hy
    rcases mem_put.mp hy with rfl | ⟨hy, -⟩
    · rw [hm]
      split_ifs
      · exact Nat.le_refl _
      · exact le_max_right _ _
    · rw [hm, if_neg (List.ne_nil_of_mem hy)]
      exact (hf y hy).trans (le_max_left _ _)
  by_cases hx : m = x.zeros
  · exact topLayer_eq hfit (mem_put.mpr (Or.inl rfl)) hx.symm
  · have hne : xs ≠ [] := fun hn => hx (by rw [hm, if_pos hn])
    obtain ⟨y, hy, hz⟩ := exists_zeros_eq_topLayer hne
    rw [if_neg hne] at hm
    have hmℓ : m = ℓ := by omega
    refine topLayer_eq hfit (mem_put.mpr (Or.inr ⟨hy, hkey y hy⟩)) ?_
    rw [hz, hmℓ, htop hne]

theorem topLayer_put_of_mem {x : Leaf Cid} (hf : Fits ℓ xs) (htop : AtTop ℓ xs)
    (hkey : ∃ y ∈ xs, y.key = x.key) : topLayer (KeyedList.put Leaf.key x xs) = ℓ := by
  have hzeros : ∀ y : Leaf Cid, y.key = x.key → x.zeros = y.zeros := fun y hy => by
    rw [Leaf.zeros, Leaf.zeros, hy]
  obtain ⟨w, hw, hwk⟩ := hkey
  have hfit : Fits ℓ (KeyedList.put Leaf.key x xs) := by
    intro y hy
    rcases mem_put.mp hy with rfl | ⟨hy, -⟩
    · rw [hzeros w hwk]
      exact hf w hw
    · exact hf y hy
  obtain ⟨y, hy, hz⟩ := exists_zeros_eq_topLayer (List.ne_nil_of_mem hw)
  rw [← htop (List.ne_nil_of_mem hw)] at hz
  by_cases hyk : y.key = x.key
  · exact topLayer_eq hfit (mem_put.mpr (Or.inl rfl)) ((hzeros y hyk).trans hz)
  · exact topLayer_eq hfit (mem_put.mpr (Or.inr ⟨hy, hyk⟩)) hz

end

namespace Shape

/-- Cuts leaves at those of a layer: the run before the first of them, then each of them beside the
run after it. -/
def group (ℓ : ℕ) : List (Leaf Cid) → List (Leaf Cid) × List (Leaf Cid × List (Leaf Cid))
  | [] => ([], [])
  | x :: xs =>
    if x.zeros = ℓ then ([], (x, (group ℓ xs).1) :: (group ℓ xs).2)
    else (x :: (group ℓ xs).1, (group ℓ xs).2)

/-- A run between the leaves of a layer. -/
def IsRun (ℓ : ℕ) (xs ys : List (Leaf Cid)) : Prop :=
  ys = (group ℓ xs).1 ∨ ∃ x, (x, ys) ∈ (group ℓ xs).2

/-- The runs between the leaves of a layer that have anything in them. -/
def runs (ℓ : ℕ) (xs : List (Leaf Cid)) : List (List (Leaf Cid)) :=
  ((group ℓ xs).1 :: (group ℓ xs).2.map Prod.snd).filter fun ys => !ys.isEmpty

def nodeOf (child : List (Leaf Cid) → Option Cid) (ℓ : ℕ) (xs : List (Leaf Cid)) : NodeData Cid :=
  ⟨child (group ℓ xs).1, storedFrom child [] (group ℓ xs).2⟩

/-- The bytes of a node, which always encodes where its keys are keys. -/
def blockOf (data : NodeData Cid) : Bytes :=
  match encode data.toIpld with
  | .ok bytes => bytes
  | .error _ => []

/-- The node a run between the leaves of a layer makes, where there is anything in it. -/
def childAt : ℕ → List (Leaf Cid) → Option Cid
  | 0, _ => none
  | ℓ + 1, ys => if ys = [] then none else some (cidFor (blockOf (nodeOf (childAt ℓ) ℓ ys)))

def nodeAt (ℓ : ℕ) (xs : List (Leaf Cid)) : NodeData Cid := nodeOf (childAt ℓ) ℓ xs

def blockAt (ℓ : ℕ) (xs : List (Leaf Cid)) : Bytes := blockOf (nodeAt ℓ xs)

def cidAt (ℓ : ℕ) (xs : List (Leaf Cid)) : Cid := cidFor (blockAt ℓ xs)

/-- Every node from this one down, as the layer it is at and the leaves under it. -/
def nodesOf : ℕ → List (Leaf Cid) → List (ℕ × List (Leaf Cid))
  | 0, xs => [(0, xs)]
  | ℓ + 1, xs => (ℓ + 1, xs) :: (runs (ℓ + 1) xs).flatMap (nodesOf ℓ)

variable {ℓ : ℕ} {xs ys zs : List (Leaf Cid)} {x : Leaf Cid}
  {child : List (Leaf Cid) → Option Cid}

theorem childAt_succ (h : ys ≠ []) : childAt (ℓ + 1) ys = some (cidAt ℓ ys) := if_neg h

@[simp] theorem childAt_nil : childAt ℓ ([] : List (Leaf Cid)) = none := by
  cases ℓ <;> simp [childAt]

/-! ## Cutting at a layer -/

theorem group_cons_of_eq (h : x.zeros = ℓ) :
    group ℓ (x :: xs) = ([], (x, (group ℓ xs).1) :: (group ℓ xs).2) := if_pos h

theorem group_append_of_under (h : FitsUnder ℓ ys) :
    group ℓ (ys ++ xs) = (ys ++ (group ℓ xs).1, (group ℓ xs).2) := by
  induction ys with
  | nil => rfl
  | cons y ys ih =>
    have hy : y.zeros ≠ ℓ := (h y List.mem_cons_self).ne
    rw [List.cons_append, group, if_neg hy, ih fun x hx => h x (List.mem_cons_of_mem y hx)]
    rfl

/-- The pieces put back together. -/
def flat (g : List (Leaf Cid) × List (Leaf Cid × List (Leaf Cid))) : List (Leaf Cid) :=
  g.1 ++ g.2.flatMap fun p => p.1 :: p.2

theorem flat_group (ℓ : ℕ) (xs : List (Leaf Cid)) : flat (group ℓ xs) = xs := by
  induction xs with
  | nil => rfl
  | cons x xs ih =>
    rw [flat] at ih
    unfold group
    split_ifs <;> simp [flat, ih]

theorem group_leaf_zeros {p : Leaf Cid × List (Leaf Cid)} (h : p ∈ (group ℓ xs).2) :
    p.1.zeros = ℓ := by
  induction xs with
  | nil => simp [group] at h
  | cons x xs ih =>
    unfold group at h
    split_ifs at h with hx
    · rcases List.mem_cons.mp h with rfl | h
      · exact hx
      · exact ih h
    · exact ih h

/-- What stands between the leaves of a layer is not of it. -/
theorem IsRun.ne (hy : IsRun ℓ xs ys) (hx : x ∈ ys) : x.zeros ≠ ℓ := by
  induction xs generalizing ys with
  | nil => simp_all [IsRun, group]
  | cons z xs ih =>
    unfold IsRun group at hy
    split_ifs at hy with hz
    · rcases hy with rfl | ⟨w, hw⟩
      · simp at hx
      · rcases List.mem_cons.mp hw with heq | hw
        · exact ih (Or.inl (Prod.mk.inj heq).2) hx
        · exact ih (Or.inr ⟨w, hw⟩) hx
    · rcases hy with rfl | ⟨w, hw⟩
      · rcases List.mem_cons.mp hx with rfl | hx
        · exact hz
        · exact ih (Or.inl rfl) hx
      · exact ih (Or.inr ⟨w, hw⟩) hx

theorem mem_runs : ys ∈ runs ℓ xs ↔ ys ≠ [] ∧ IsRun ℓ xs ys := by
  simp only [runs, IsRun, List.mem_filter, List.mem_cons, List.mem_map, Prod.exists, exists_eq_right,
    Bool.not_eq_true', List.isEmpty_eq_false_iff]
  tauto

theorem runs_cons_of_eq (h : x.zeros = ℓ) : runs ℓ (x :: xs) = runs ℓ xs := by
  simp [runs, group_cons_of_eq h]

theorem runs_append_of_under (h : FitsUnder ℓ ys) (hne : ys ≠ []) (hg : (group ℓ xs).1 = []) :
    runs ℓ (ys ++ xs) = ys :: runs ℓ xs := by
  simp [runs, group_append_of_under h, hg, hne]

theorem sublist_of_mem_runs (h : ys ∈ runs ℓ xs) : ys.Sublist xs := by
  obtain ⟨-, rfl | ⟨z, hz⟩⟩ := mem_runs.mp h
  · conv_rhs => rw [← flat_group ℓ xs]
    exact List.sublist_append_left _ _
  · conv_rhs => rw [← flat_group ℓ xs]
    have hs : (z :: ys).Sublist ((group ℓ xs).2.flatMap fun p => p.1 :: p.2) := by
      obtain ⟨s, t, hst⟩ := List.append_of_mem hz
      rw [hst, List.flatMap_append, List.flatMap_cons]
      exact (List.sublist_append_left _ _).trans (List.sublist_append_right _ _)
    exact ((List.sublist_cons_self z ys).trans hs).trans (List.sublist_append_right _ _)

theorem fitsUnder_of_mem_runs (hf : Fits ℓ xs) (h : ys ∈ runs ℓ xs) : FitsUnder ℓ ys := by
  intro x hx
  exact lt_of_le_of_ne (hf x ((sublist_of_mem_runs h).subset hx)) ((mem_runs.mp h).2.ne hx)

theorem fits_of_fitsUnder (h : FitsUnder (ℓ + 1) xs) : Fits ℓ xs := fun x hx =>
  Nat.le_of_lt_succ (h x hx)

theorem mem_nodesOf_succ {p : ℕ × List (Leaf Cid)} : p ∈ nodesOf (ℓ + 1) xs ↔
    p = (ℓ + 1, xs) ∨ ∃ ys ∈ runs (ℓ + 1) xs, p ∈ nodesOf ℓ ys := by
  simp [nodesOf, List.mem_flatMap]

theorem mem_nodesOf {p : ℕ × List (Leaf Cid)} (hf : Fits ℓ xs) : p ∈ nodesOf ℓ xs ↔
    p = (ℓ, xs) ∨ ∃ ys ∈ runs ℓ xs, p ∈ nodesOf (ℓ - 1) ys := by
  cases ℓ with
  | zero =>
    have hr : runs 0 xs = [] := by
      refine List.eq_nil_iff_forall_not_mem.mpr fun ys hy => ?_
      obtain ⟨y, ys', rfl⟩ := List.exists_cons_of_ne_nil (mem_runs.mp hy).1
      exact absurd (fitsUnder_of_mem_runs hf hy y List.mem_cons_self) (Nat.not_lt_zero _)
    simp [nodesOf, hr]
  | succ ℓ => exact mem_nodesOf_succ

theorem self_mem_nodesOf (ℓ : ℕ) (xs : List (Leaf Cid)) : (ℓ, xs) ∈ nodesOf ℓ xs := by
  cases ℓ <;> simp [nodesOf]

theorem nodesOf_nil (ℓ : ℕ) : nodesOf ℓ ([] : List (Leaf Cid)) = [(ℓ, [])] := by
  cases ℓ with
  | zero => rfl
  | succ ℓ => simp [nodesOf, runs, group]

/-- A node from another one down is no higher, holds some of its leaves, and is empty only where
the other one is. -/
theorem of_mem_nodesOf {p : ℕ × List (Leaf Cid)} (hf : Fits ℓ xs) (h : p ∈ nodesOf ℓ xs) :
    p.1 ≤ ℓ ∧ p.2.Sublist xs ∧ Fits p.1 p.2 ∧ (p.2 = [] → p = (ℓ, xs)) := by
  induction ℓ generalizing xs with
  | zero =>
    obtain rfl : p = (0, xs) := by simpa [nodesOf] using h
    exact ⟨Nat.le_refl 0, List.Sublist.refl xs, hf, fun _ => rfl⟩
  | succ ℓ ih =>
    rcases mem_nodesOf_succ.mp h with rfl | ⟨ys, hy, hp⟩
    · exact ⟨Nat.le_refl _, List.Sublist.refl xs, hf, fun _ => rfl⟩
    · have hfy := fits_of_fitsUnder (fitsUnder_of_mem_runs hf hy)
      obtain ⟨h1, h2, h3, h4⟩ := ih hfy hp
      refine ⟨h1.trans (Nat.le_succ ℓ), h2.trans (sublist_of_mem_runs hy), h3, fun he => ?_⟩
      rw [h4 he] at he
      exact absurd he (mem_runs.mp hy).1

theorem nodesOf_trans {ℓ' : ℕ} {p : ℕ × List (Leaf Cid)} (hy : (ℓ', ys) ∈ nodesOf ℓ xs)
    (hp : p ∈ nodesOf ℓ' ys) : p ∈ nodesOf ℓ xs := by
  induction ℓ generalizing xs with
  | zero =>
    obtain ⟨rfl, rfl⟩ : ℓ' = 0 ∧ ys = xs := by simpa [nodesOf] using hy
    exact hp
  | succ ℓ ih =>
    rcases mem_nodesOf_succ.mp hy with heq | ⟨zs, hz, hy⟩
    · obtain ⟨rfl, rfl⟩ := Prod.mk.inj heq
      exact hp
    · exact mem_nodesOf_succ.mpr (Or.inr ⟨zs, hz, ih hy⟩)

/-- With no leaf of its own, a node stands for the one run under it. -/
theorem group_of_leafless (h : (group ℓ xs).2 = []) : (group ℓ xs).1 = xs := by
  have hf := flat_group ℓ xs
  rw [flat, h] at hf
  simpa using hf

/-- Reading a node back gives its leaves and the CIDs of the nodes below. -/
theorem deserialize_nodeOf {layer : Option ℕ}
    (hv : ∀ x ∈ xs, (ensureValidKey x.key : Except (RepoError Cid) Unit) = .ok ()) :
    Mst.deserialize (nodeOf child ℓ xs) layer = .ok (lazyEntries child
      (layer.bind fun layer => if layer = 0 then none else some (layer - 1)) (group ℓ xs)) := by
  have hg : ∀ p ∈ (group ℓ xs).2, (ensureValidKey p.1.key : Except (RepoError Cid) Unit) = .ok () := by
    intro p hp
    refine hv p.1 ?_
    rw [← flat_group ℓ xs]
    exact List.mem_append_right _ (List.mem_flatMap.mpr ⟨p, hp, List.mem_cons_self⟩)
  rw [Mst.deserialize, nodeOf, deserializeFrom_storedFrom hg (by simp)]
  rfl

/-! ## Nodes and their CIDs -/

theorem mem_of_mem_group {p : Leaf Cid × List (Leaf Cid)} (hp : p ∈ (group ℓ xs).2) : p.1 ∈ xs := by
  rw [← flat_group ℓ xs]
  exact List.mem_append_right _ (List.mem_flatMap.mpr ⟨p, hp, List.mem_cons_self⟩)

/-- The first entry shares no prefix, so its key is stored whole and gives the layer away. -/
theorem head_nodeAt (ℓ : ℕ) (xs : List (Leaf Cid)) :
    (nodeAt ℓ xs).e.head?.map (fun entry => leadingZeros Cid entry.k) = none ∨
      (nodeAt ℓ xs).e.head?.map (fun entry => leadingZeros Cid entry.k) = some ℓ := by
  cases hg : (group ℓ xs).2 with
  | nil => exact Or.inl (by simp [nodeAt, nodeOf, hg, storedFrom])
  | cons p rest =>
    have hp : p.1.zeros = ℓ := group_leaf_zeros (by rw [hg]; exact List.mem_cons_self)
    have hs : sharedPrefix [] p.1.key = 0 := by simp [sharedPrefix]
    rw [Leaf.zeros] at hp
    exact Or.inr (by simpa [nodeAt, nodeOf, hg, storedFrom, hs] using hp)

theorem nodeAt_nil (ℓ : ℕ) : nodeAt ℓ ([] : List (Leaf Cid)) = ⟨none, []⟩ := by
  simp [nodeAt, nodeOf, group, storedFrom]

theorem cidAt_nil (ℓ ℓ' : ℕ) : cidAt ℓ ([] : List (Leaf Cid)) = cidAt ℓ' [] := by
  simp only [cidAt, blockAt, nodeAt_nil]

theorem childAt_of_mem_runs (hf : Fits ℓ xs) (h : ys ∈ runs ℓ xs) :
    ∃ k, ℓ = k + 1 ∧ Fits k ys ∧ childAt ℓ ys = some (cidAt k ys) := by
  obtain ⟨y, ys', rfl⟩ := List.exists_cons_of_ne_nil (mem_runs.mp h).1
  have hu := fitsUnder_of_mem_runs hf h
  cases ℓ with
  | zero => exact absurd (hu y List.mem_cons_self) (Nat.not_lt_zero _)
  | succ k => exact ⟨k, rfl, fits_of_fitsUnder hu, childAt_succ (mem_runs.mp h).1⟩

section

variable [LawfulCodec Cid]

theorem encode_nodeAt (hk : WellKeyed xs) :
    encode (nodeAt ℓ xs).toIpld = .ok (blockAt ℓ xs) := by
  have hp : (nodeAt ℓ xs).toIpld.plain = true := by
    refine NodeData.plain_toIpld fun entry he => ?_
    have h := storedFrom_p_le (fun p hp => hk.valid p.1 (mem_of_mem_group hp)) he
    have hm : maxKeyLen = 1024 := rfl
    omega
  obtain ⟨b, hb⟩ := exists_encode (NodeData.wf_toIpld _) hp
  rw [blockAt, blockOf, hb]

theorem nodeAt_eq_of_cidAt_eq {ℓ' : ℕ} (hx : WellKeyed xs) (hy : WellKeyed ys)
    (h : cidAt ℓ xs = cidAt ℓ' ys) : nodeAt ℓ xs = nodeAt ℓ' ys := by
  have hb : blockAt ℓ xs = blockAt ℓ' ys := LawfulCodec.cidFor_injective h
  have he : encode (nodeAt ℓ' ys).toIpld = .ok (blockAt ℓ xs) := hb ▸ encode_nodeAt hy
  exact NodeData.toIpld_injective
    (encode_injective (NodeData.wf_toIpld _) (NodeData.wf_toIpld _) (encode_nodeAt hx) he)

/-- The node a CID names is the only one of its shape: a layer, and the leaves under it. -/
theorem cidAt_inj {ℓ' : ℕ} (hx : WellKeyed xs) (hy : WellKeyed ys) (hfx : Fits ℓ xs)
    (hfy : Fits ℓ' ys) (hne : xs ≠ []) (h : cidAt ℓ xs = cidAt ℓ' ys) : ℓ = ℓ' ∧ xs = ys := by
  induction ℓ using Nat.strong_induction_on generalizing ℓ' xs ys with
  | _ ℓ ih =>
    have hn := nodeAt_eq_of_cidAt_eq hx hy h
    obtain ⟨hl, he⟩ := NodeData.mk.inj hn
    cases hg : (group ℓ xs).2 with
    | nil =>
      -- A lone pointer on one side is a lone pointer on the other, so the nodes below agree.
      have hg' : (group ℓ' ys).2 = [] := by
        rw [hg] at he
        exact storedFrom_eq_nil.mp he.symm
      rw [group_of_leafless hg, group_of_leafless hg'] at hl
      obtain ⟨k, rfl, hk, hc⟩ := childAt_of_mem_runs hfx
        (mem_runs.mpr ⟨hne, Or.inl (group_of_leafless hg).symm⟩)
      have hne' : ys ≠ [] := by
        rintro rfl
        simp [hc] at hl
      obtain ⟨k', rfl, hk', hc'⟩ := childAt_of_mem_runs hfy
        (mem_runs.mpr ⟨hne', Or.inl (group_of_leafless hg').symm⟩)
      rw [hc, hc', Option.some_inj] at hl
      obtain ⟨rfl, rfl⟩ := ih k (Nat.lt_succ_self k) hx hy hk hk' hne hl
      exact ⟨rfl, rfl⟩
    | cons p rest =>
      cases hg' : (group ℓ' ys).2 with
      | nil =>
        rw [hg, hg'] at he
        simp [storedFrom] at he
      | cons q rest' =>
        -- The first key is stored whole, and says which layer the node is at.
        have hkey : p.1.key = q.1.key := by
          rw [hg, hg'] at he
          have hs : ∀ b, sharedPrefix [] b = 0 := fun b => by simp [sharedPrefix]
          simp only [storedFrom, hs, List.drop_zero, List.cons.injEq, TreeEntry.mk.injEq] at he
          exact he.1.2.1
        have hp : p.1.zeros = ℓ := group_leaf_zeros (by rw [hg]; exact List.mem_cons_self)
        have hq : q.1.zeros = ℓ' := group_leaf_zeros (by rw [hg']; exact List.mem_cons_self)
        obtain rfl : ℓ = ℓ' := by rw [← hp, ← hq, Leaf.zeros, Leaf.zeros, hkey]
        have hc : ∀ a b, IsRun ℓ xs a → IsRun ℓ ys b → childAt ℓ a = childAt ℓ b → a = b := by
          intro a b ha hb hab
          by_cases hna : a = []
          · by_contra hnb
            obtain ⟨k, -, -, hcb⟩ := childAt_of_mem_runs hfy
              (mem_runs.mpr ⟨fun hn => hnb (hna.trans hn.symm), hb⟩)
            rw [hna, hcb, childAt_nil] at hab
            cases hab
          · have hma := mem_runs.mpr ⟨hna, ha⟩
            obtain ⟨k, rfl, hka, hca⟩ := childAt_of_mem_runs hfx hma
            have hnb : b ≠ [] := by
              rintro rfl
              simp [hca] at hab
            have hmb := mem_runs.mpr ⟨hnb, hb⟩
            obtain ⟨k', hk', hkb, hcb⟩ := childAt_of_mem_runs hfy hmb
            obtain rfl : k = k' := Nat.succ.inj hk'
            rw [hca, hcb, Option.some_inj] at hab
            exact (ih k (Nat.lt_succ_self k) (hx.sublist (sublist_of_mem_runs hma))
              (hy.sublist (sublist_of_mem_runs hmb)) hka hkb hna hab).2
        have h1 := hc _ _ (Or.inl rfl) (Or.inl rfl) hl
        have h2 := storedFrom_inj (fun a ha b hb =>
          hc a.2 b.2 (Or.inr ⟨a.1, ha⟩) (Or.inr ⟨b.1, hb⟩)) he
        refine ⟨rfl, ?_⟩
        rw [← flat_group ℓ xs, ← flat_group ℓ ys, Prod.ext h1 h2]

end

end Shape

end Manapds
