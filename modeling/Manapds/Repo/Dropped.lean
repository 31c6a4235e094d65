import Manapds.Repo.Walker
import Manapds.Repo.Operations

/-!
# What a revision stops reaching

A walk over a tree comes by its blocks in a fixed order, each node before what is in it: `preorder`
is that sequence, and `Walks` says which part of it a walker has still to come by. One round of
`Mst.dropped` takes one block off the front of either sequence, or the same stretch off both, so
the walk settles the difference of the two, whatever order the layers put it in.
-/

namespace Manapds

open KeyedList Shape QueryProgram Routine SetDiff

variable {Cid : Type}

namespace Shape

/-- The blocks under the pieces of a node, in the order a walk comes by them. -/
def insideOf (run : List (Leaf Cid) → List Cid)
    (g : List (Leaf Cid) × List (Leaf Cid × List (Leaf Cid))) : List Cid :=
  run g.1 ++ g.2.flatMap fun p => p.1.value :: run p.2

theorem mem_insideOf {c : Cid} {run : List (Leaf Cid) → List Cid}
    {g : List (Leaf Cid) × List (Leaf Cid × List (Leaf Cid))} : c ∈ insideOf run g ↔
      c ∈ run g.1 ∨ (∃ p ∈ g.2, c = p.1.value) ∨ ∃ p ∈ g.2, c ∈ run p.2 := by
  simp only [insideOf, List.mem_append, List.mem_flatMap, List.mem_cons]
  constructor
  · rintro (h | ⟨p, hp, h | h⟩)
    · exact Or.inl h
    · exact Or.inr (Or.inl ⟨p, hp, h⟩)
    · exact Or.inr (Or.inr ⟨p, hp, h⟩)
  · rintro (h | ⟨p, hp, h⟩ | ⟨p, hp, h⟩)
    · exact Or.inl h
    · exact Or.inr ⟨p, hp, Or.inl h⟩
    · exact Or.inr ⟨p, hp, Or.inr h⟩

theorem insideOf_cons (run : List (Leaf Cid) → List Cid) (ys : List (Leaf Cid))
    (p : Leaf Cid × List (Leaf Cid)) (rest : List (Leaf Cid × List (Leaf Cid))) :
    insideOf run (ys, p :: rest) = run ys ++ p.1.value :: insideOf run (p.2, rest) := by
  simp [insideOf]

variable [Codec Cid]

/-- The node a run between the leaves of a layer makes, and everything in it. -/
def under : ℕ → List (Leaf Cid) → List Cid
  | 0, _ => []
  | ℓ + 1, ys => if ys = [] then [] else cidAt ℓ ys :: insideOf (under ℓ) (group ℓ ys)

def inside (ℓ : ℕ) (xs : List (Leaf Cid)) : List Cid := insideOf (under ℓ) (group ℓ xs)

/-- A node and everything in it. -/
def preorder (ℓ : ℕ) (xs : List (Leaf Cid)) : List Cid := cidAt ℓ xs :: inside ℓ xs

variable {ℓ : ℕ} {xs ys zs : List (Leaf Cid)} {x : Leaf Cid} {c : Cid}

@[simp] theorem under_nil : under ℓ ([] : List (Leaf Cid)) = [] := by
  cases ℓ <;> simp [under]

theorem under_succ (h : ys ≠ []) : under (ℓ + 1) ys = preorder ℓ ys := if_neg h

@[simp] theorem inside_nil : inside ℓ ([] : List (Leaf Cid)) = [] := by
  simp [inside, insideOf, group]

theorem inside_leaf (hx : x.zeros = ℓ) : inside ℓ (x :: xs) = x.value :: inside ℓ xs := by
  simp [inside, insideOf, group_cons_of_eq hx]

theorem inside_run (hu : FitsUnder (ℓ + 1) ys) (hne : ys ≠ []) (hg : (group (ℓ + 1) xs).1 = []) :
    inside (ℓ + 1) (ys ++ xs) = preorder ℓ ys ++ inside (ℓ + 1) xs := by
  simp [inside, insideOf, group_append_of_under hu, hg, under_succ hne]

/-- A walk comes by the nodes of a tree and the records its leaves name. -/
theorem mem_preorder (hf : Fits ℓ xs) : c ∈ preorder ℓ xs ↔
    (∃ p ∈ nodesOf ℓ xs, c = cidAt p.1 p.2) ∨ ∃ x ∈ xs, c = x.value := by
  induction ℓ using Nat.strong_induction_on generalizing xs with
  | _ ℓ ih =>
    have hrun : ∀ ys, IsRun ℓ xs ys → (c ∈ under ℓ ys ↔
        ys ≠ [] ∧ ((∃ p ∈ nodesOf (ℓ - 1) ys, c = cidAt p.1 p.2) ∨ ∃ x ∈ ys, c = x.value)) := by
      intro ys hy
      by_cases hne : ys = []
      · simp [hne]
      · obtain ⟨k, rfl, hk, -⟩ := childAt_of_mem_runs hf (mem_runs.mpr ⟨hne, hy⟩)
        rw [under_succ hne, ih k (Nat.lt_succ_self k) hk]
        simp [hne]
    rw [preorder, List.mem_cons, inside, mem_insideOf, hrun _ (Or.inl rfl)]
    have hleaf : ∀ x, x ∈ xs ↔ x ∈ (group ℓ xs).1 ∨ ∃ p ∈ (group ℓ xs).2, x = p.1 ∨ x ∈ p.2 := by
      intro x
      conv_lhs => rw [← flat_group ℓ xs]
      simp [flat, List.mem_flatMap]
    simp only [mem_nodesOf hf, mem_runs]
    constructor
    · rintro (rfl | ⟨hne, ⟨p, hp, rfl⟩ | ⟨x, hx, rfl⟩⟩ | ⟨p, hp, rfl⟩ | ⟨p, hp, h⟩)
      · exact Or.inl ⟨_, Or.inl rfl, rfl⟩
      · exact Or.inl ⟨p, Or.inr ⟨_, ⟨hne, Or.inl rfl⟩, hp⟩, rfl⟩
      · exact Or.inr ⟨x, (hleaf x).mpr (Or.inl hx), rfl⟩
      · exact Or.inr ⟨p.1, (hleaf p.1).mpr (Or.inr ⟨p, hp, Or.inl rfl⟩), rfl⟩
      · have hr : IsRun ℓ xs p.2 := Or.inr ⟨p.1, hp⟩
        obtain ⟨hne, ⟨q, hq, rfl⟩ | ⟨x, hx, rfl⟩⟩ := (hrun p.2 hr).mp h
        · exact Or.inl ⟨q, Or.inr ⟨p.2, ⟨hne, hr⟩, hq⟩, rfl⟩
        · exact Or.inr ⟨x, (hleaf x).mpr (Or.inr ⟨p, hp, Or.inr hx⟩), rfl⟩
    · rintro (⟨q, rfl | ⟨ys, ⟨hne, hr⟩, hq⟩, rfl⟩ | ⟨x, hx, rfl⟩)
      · exact Or.inl rfl
      · rcases hr with rfl | ⟨x, hx⟩
        · exact Or.inr (Or.inl ⟨hne, Or.inl ⟨q, hq, rfl⟩⟩)
        · exact Or.inr (Or.inr (Or.inr ⟨(x, ys), hx,
            (hrun ys (Or.inr ⟨x, hx⟩)).mpr ⟨hne, Or.inl ⟨q, hq, rfl⟩⟩⟩))
      · rcases (hleaf x).mp hx with hx | ⟨p, hp, rfl | hx⟩
        · exact Or.inr (Or.inl ⟨List.ne_nil_of_mem hx, Or.inr ⟨x, hx, rfl⟩⟩)
        · exact Or.inr (Or.inr (Or.inl ⟨p, hp, rfl⟩))
        · exact Or.inr (Or.inr (Or.inr ⟨p, hp, (hrun p.2 (Or.inr ⟨p.1, hp⟩)).mpr
            ⟨List.ne_nil_of_mem hx, Or.inr ⟨x, hx, rfl⟩⟩⟩))

/-- What is in a node and is no record is a node over some of its leaves. -/
theorem owned_of_mem_preorder (hf : Fits ℓ xs) (hne : xs ≠ []) (hc : ∀ x ∈ xs, x.value ≠ c)
    (h : c ∈ preorder ℓ xs) :
    ∃ m zs, m ≤ ℓ ∧ zs ≠ [] ∧ zs.Sublist xs ∧ Fits m zs ∧ c = cidAt m zs := by
  rcases (mem_preorder hf).mp h with ⟨p, hp, rfl⟩ | ⟨x, hx, rfl⟩
  · obtain ⟨hle, hsub, hfp, hnil⟩ := of_mem_nodesOf hf hp
    refine ⟨p.1, p.2, hle, fun hn => hne ?_, hsub, hfp, rfl⟩
    rw [hnil hn] at hn
    exact hn
  · exact absurd rfl (hc x hx)

section

variable [DecidableEq Cid] [LawfulCodec Cid]

/-- Runs with different leaves in them have no node in common. -/
theorem count_insideOf_le {run : List (Leaf Cid) → List Cid}
    {g : List (Leaf Cid) × List (Leaf Cid × List (Leaf Cid))} (hk : WellKeyed (flat g))
    (hc : ∀ x ∈ flat g, x.value ≠ c)
    (hr : ∀ ys, (ys = g.1 ∨ ∃ x, (x, ys) ∈ g.2) → (run ys).count c ≤ 1 ∧ (c ∈ run ys →
      ∃ m zs, zs ≠ [] ∧ zs.Sublist ys ∧ Fits m zs ∧ c = cidAt m zs)) :
    (insideOf run g).count c ≤ 1 := by
  obtain ⟨ys, rest⟩ := g
  induction rest generalizing ys with
  | nil =>
    have h := (hr ys (Or.inl rfl)).1
    simpa [insideOf] using h
  | cons p rest ih =>
    have hflat : flat (ys, p :: rest) = (ys ++ [p.1]) ++ flat (p.2, rest) := by simp [flat]
    rw [hflat] at hk hc
    have hv : p.1.value ≠ c := hc p.1 (by simp)
    have hr' : ∀ zs, (zs = p.2 ∨ ∃ x, (x, zs) ∈ rest) → (run zs).count c ≤ 1 ∧ (c ∈ run zs →
        ∃ m ws, ws ≠ [] ∧ ws.Sublist zs ∧ Fits m ws ∧ c = cidAt m ws) := by
      rintro zs (rfl | ⟨x, hx⟩)
      · exact hr p.2 (Or.inr ⟨p.1, List.mem_cons_self⟩)
      · exact hr zs (Or.inr ⟨x, List.mem_cons_of_mem p hx⟩)
    have hrest := ih p.2 hk.append_right (fun x hx => hc x (List.mem_append_right _ hx)) hr'
    rw [insideOf_cons, List.count_append, List.count_cons_of_ne hv]
    by_cases hy : c ∈ run ys
    · have hnot : c ∉ insideOf run (p.2, rest) := by
        intro hm
        obtain ⟨zs, hz, hcz⟩ : ∃ zs, (zs = p.2 ∨ ∃ x, (x, zs) ∈ rest) ∧ c ∈ run zs := by
          rcases mem_insideOf.mp hm with h | ⟨q, hq, h⟩ | ⟨q, hq, h⟩
          · exact ⟨p.2, Or.inl rfl, h⟩
          · refine absurd h.symm (hc q.1 (List.mem_append_right _ ?_))
            exact List.mem_append_right _ (List.mem_flatMap.mpr ⟨q, hq, List.mem_cons_self⟩)
          · exact ⟨q.2, Or.inr ⟨q.1, hq⟩, h⟩
        have hzs : zs.Sublist (flat (p.2, rest)) := by
          rcases hz with rfl | ⟨x, hx⟩
          · exact List.sublist_append_left _ _
          · refine List.Sublist.trans ?_ (List.sublist_append_right _ _)
            obtain ⟨s, t, rfl⟩ := List.append_of_mem hx
            rw [List.flatMap_append, List.flatMap_cons]
            exact ((List.sublist_cons_self x zs).trans (List.sublist_append_left _ _)).trans
              (List.sublist_append_right _ _)
        obtain ⟨m, ws, hne, hsub, hfw, he⟩ := (hr ys (Or.inl rfl)).2 hy
        obtain ⟨m', ws', -, hsub', hfw', he'⟩ := (hr' zs hz).2 hcz
        have hky : WellKeyed ys := hk.append_left.append_left
        obtain ⟨-, rfl⟩ := cidAt_inj (hky.sublist hsub)
          (hk.append_right.sublist (hsub'.trans hzs)) hfw hfw' hne (he.symm.trans he')
        obtain ⟨w, ws, rfl⟩ := List.exists_cons_of_ne_nil hne
        exact hk.disjoint (List.mem_append_left _ (hsub.subset List.mem_cons_self))
          ((hsub'.trans hzs).subset List.mem_cons_self)
      rw [List.count_eq_zero.mpr hnot]
      exact (hr ys (Or.inl rfl)).1
    · rw [List.count_eq_zero.mpr hy, Nat.zero_add]
      exact hrest

/-- A walk comes by a node once. -/
theorem count_preorder_le (hk : WellKeyed xs) (hf : Fits ℓ xs) (hc : ∀ x ∈ xs, x.value ≠ c) :
    (preorder ℓ xs).count c ≤ 1 := by
  induction ℓ using Nat.strong_induction_on generalizing xs with
  | _ ℓ ih =>
    have hrun : ∀ ys, IsRun ℓ xs ys → (under ℓ ys).count c ≤ 1 ∧ (c ∈ under ℓ ys →
        ∃ m zs, m < ℓ ∧ zs ≠ [] ∧ zs.Sublist ys ∧ Fits m zs ∧ c = cidAt m zs) := by
      intro ys hy
      by_cases hne : ys = []
      · simp [hne]
      · have hm := mem_runs.mpr ⟨hne, hy⟩
        have hsub := sublist_of_mem_runs hm
        obtain ⟨k, rfl, hk', -⟩ := childAt_of_mem_runs hf hm
        have hcy : ∀ x ∈ ys, x.value ≠ c := fun x hx => hc x (hsub.subset hx)
        rw [under_succ hne]
        refine ⟨ih k (Nat.lt_succ_self k) (hk.sublist hsub) hk' hcy, fun h => ?_⟩
        obtain ⟨m, zs, hle, hrest⟩ := owned_of_mem_preorder hk' hne hcy h
        exact ⟨m, zs, Nat.lt_succ_of_le hle, hrest⟩
    have hflat := flat_group ℓ xs
    have hcount : (inside ℓ xs).count c ≤ 1 := by
      refine count_insideOf_le (by rwa [hflat]) (by rwa [hflat]) fun ys hy => ?_
      obtain ⟨h1, h2⟩ := hrun ys hy
      refine ⟨h1, fun h => ?_⟩
      obtain ⟨m, zs, -, hrest⟩ := h2 h
      exact ⟨m, zs, hrest⟩
    rw [preorder]
    by_cases he : cidAt ℓ xs = c
    · have hnot : c ∉ inside ℓ xs := by
        intro hm
        obtain ⟨ys, hy, hcy⟩ : ∃ ys, IsRun ℓ xs ys ∧ c ∈ under ℓ ys := by
          rcases mem_insideOf.mp hm with h | ⟨p, hp, h⟩ | ⟨p, hp, h⟩
          · exact ⟨_, Or.inl rfl, h⟩
          · exact absurd h.symm (hc p.1 (mem_of_mem_group hp))
          · exact ⟨p.2, Or.inr ⟨p.1, hp⟩, h⟩
        obtain ⟨m, zs, hlt, hne, hsub, hfz, hz⟩ := (hrun ys hy).2 hcy
        have hys : ys ≠ [] := by
          rintro rfl
          exact hne (List.sublist_nil.mp hsub)
        have hkz := hk.sublist (hsub.trans (sublist_of_mem_runs (mem_runs.mpr ⟨hys, hy⟩)))
        exact hlt.ne (cidAt_inj hkz hk hfz hf hne (hz.symm.trans he.symm)).1
      rw [← he] at hnot ⊢
      rw [List.count_cons_self, List.count_eq_zero.mpr hnot]
    · rw [List.count_cons_of_ne he]
      exact hcount

end

end Shape

/-! ## Where a walker is -/

theorem At.eq_tree {a : At} (h : a ≠ .leaf) : a = .tree := by
  cases a with
  | leaf => exact absurd rfl h
  | tree => rfl

theorem drop_of_getElem? {α : Type} {l : List α} {i : ℕ} {a : α} (h : l[i]? = some a) :
    l.drop i = a :: l.drop (i + 1) := by
  rw [← List.head?_drop] at h
  obtain ⟨rest, hr⟩ := List.head?_eq_some_iff.mp h
  rw [← List.tail_drop, hr, List.tail_cons]

theorem Level.drop_setSubtree (level : Level Cid) (t : Mst Cid) :
    (level.setSubtree t).entries.drop (level.index + 1) = level.entries.drop (level.index + 1) := by
  simp [setSubtree, List.drop_set]

theorem Level.entry_setSubtree {level : Level Cid} {e : Entry Cid} (h : level.entry = some e) (t : Mst Cid) :
    (level.setSubtree t).entry = some (.tree t) := by
  obtain ⟨hlt, -⟩ := List.getElem?_eq_some_iff.mp h
  simp [setSubtree, entry, hlt]

theorem Walker.inside_of_entry {S : List Cid} {level : Level Cid} {rest : List (Level Cid)}
    {e : Entry Cid} {above : ℕ} (h : level.entry = some e) (c : Cursor Cid) :
    Walker.inside ⟨S, level :: rest, c, above⟩ = ⟨S, level :: rest, .node, above⟩ := by
  simp [Walker.inside, Walker.entry, h]

variable [Codec Cid]

/-- The nodes a walk is inside, with what is left of each past the entry the cursor is in: the
leaves there, and the blocks still to come. -/
inductive Opened (st : Cid → Option Bytes) (S : List Cid) :
    List (Level Cid) → List (Leaf Cid) → List Cid → Prop where
  | nil : Opened st S [] [] []
  | cons {ℓ : ℕ} {level : Level Cid} {rest : List (Level Cid)} {xs ys : List (Leaf Cid)}
      {cs : List Cid} : Shows (RepUnder st S ℓ) ℓ (level.entries.drop (level.index + 1)) xs →
      rest.length + ℓ ≤ 128 → Opened st S rest ys cs →
      Opened st S (level :: rest) (xs ++ ys) (inside ℓ xs ++ cs)

/-- The blocks a walker has still to come by, the one it is on among them. -/
inductive Walks (st : Cid → Option Bytes) : Walker Cid → List Cid → Prop where
  | root {seen : List Cid} {t : Mst Cid} {above ℓ : ℕ} {xs : List (Leaf Cid)} :
      Rep st seen ℓ t xs → ℓ ≤ 128 → Walks st ⟨seen, [], .root t, above⟩ (preorder ℓ xs)
  | node {seen : List Cid} {level : Level Cid} {rest : List (Level Cid)} {above ℓ : ℕ}
      {xs ys : List (Leaf Cid)} {cs : List Cid} :
      Shows (RepUnder st seen ℓ) ℓ (level.entries.drop level.index) xs → xs ≠ [] →
      rest.length + ℓ ≤ 128 → Opened st seen rest ys cs → WellKeyed (xs ++ ys) →
      Walks st ⟨seen, level :: rest, .node, above⟩ (inside ℓ xs ++ cs)
  | done {seen : List Cid} {stack : List (Level Cid)} {above : ℕ} :
      Walks st ⟨seen, stack, .done, above⟩ []

variable {st : Cid → Option Bytes} {S S' : List Cid} {ℓ above : ℕ} {level : Level Cid}
  {stack rest : List (Level Cid)} {xs ys zs : List (Leaf Cid)} {cs : List Cid} {w : Walker Cid}

theorem Opened.stepOver (h : Opened st S stack ys cs) (hk : WellKeyed ys) :
    Walks st (Walker.stepOver ⟨S, stack, .node, above⟩) cs := by
  induction h with
  | nil => exact .done
  | @cons ℓ level rest xs ys cs hs hb ho ih =>
    by_cases hi : level.index + 1 < level.entries.length
    · have hne : xs ≠ [] := by
        rw [Ne, hs.covers.eq_nil_iff, List.drop_eq_nil_iff]
        omega
      have hpast : Level.past (level :: rest) = { level with index := level.index + 1 } :: rest :=
        if_pos hi
      rw [Walker.stepOver]
      simp only [hpast]
      exact .node hs hne hb ho hk
    · have hnil : xs = [] := by
        rw [hs.covers.eq_nil_iff, List.drop_eq_nil_iff]
        omega
      have hpast : Level.past (level :: rest) = Level.past rest := if_neg hi
      rw [hnil, inside_nil, List.nil_append]
      have hrest := ih hk.append_right
      rw [Walker.stepOver] at hrest ⊢
      simpa only [hpast] using hrest

/-- Inside a node the cursor is on one of its entries, and the rest of them follow. -/
theorem Shows.entry (level : Level Cid)
    (h : Shows (RepUnder st S ℓ) ℓ (level.entries.drop level.index) xs)
    (hne : xs ≠ []) : ∃ e, level.entry = some e ∧
      Shows (RepUnder st S ℓ) ℓ (e :: level.entries.drop (level.index + 1)) xs := by
  cases he : level.entry with
  | none =>
    refine absurd (h.covers.eq_nil_iff.mpr ?_) hne
    rw [Level.entry, ← List.head?_drop] at he
    exact List.head?_eq_none_iff.mp he
  | some e =>
    rw [drop_of_getElem? he] at h
    exact ⟨e, rfl, h⟩

theorem Shows.entry_leaf {x : Leaf Cid} {es : List (Entry Cid)}
    (h : Shows (RepUnder st S ℓ) ℓ (.leaf x :: es) xs) : ∃ zs, xs = x :: zs ∧
      inside ℓ xs = x.value :: inside ℓ zs ∧ Shows (RepUnder st S ℓ) ℓ es zs := by
  obtain ⟨zs, rfl, hx, hc⟩ := covers_leaf.mp h.covers
  exact ⟨zs, rfl, inside_leaf hx, hc, (List.isChain_cons.mp h.apart).2⟩

theorem Shows.entry_tree {t : Mst Cid} {es : List (Entry Cid)}
    (h : Shows (RepUnder st S ℓ) ℓ (.tree t :: es) xs) : ∃ k ys zs, ℓ = k + 1 ∧ xs = ys ++ zs ∧
      ys ≠ [] ∧ inside ℓ xs = preorder k ys ++ inside ℓ zs ∧ Rep st S k t ys ∧
      Shows (RepUnder st S ℓ) ℓ es zs ∧
      ∀ S' t', Rep st S' k t' ys → Shows (RepUnder st S' ℓ) ℓ es zs →
        Shows (RepUnder st S' ℓ) ℓ (.tree t' :: es) xs := by
  obtain ⟨ys, zs, rfl, hne, hu, ht, hc⟩ := covers_tree.mp h.covers
  have ha := List.isChain_cons.mp h.apart
  cases ℓ with
  | zero => exact ht.elim
  | succ k =>
    have hg : (group (k + 1) zs).1 = [] :=
      hc.group_fst fun e hm => (ha.1 e hm).resolve_left (by simp [Entry.isTree])
    refine ⟨k, ys, zs, rfl, rfl, hne, inside_run hu hne hg, ht, ⟨hc, ha.2⟩, fun S' t' ht' hs => ?_⟩
    exact h.of_kinds (covers_tree.mpr ⟨ys, zs, rfl, hne, hu, ht', hs.covers⟩) rfl

theorem Walks.of_at_none (h : Walks st w cs) (ha : w.at? = none) : cs = [] := by
  cases h with
  | root => simp [Walker.at?] at ha
  | @node _ level _ _ _ _ _ _ hs hne =>
    obtain ⟨e, he, -⟩ := hs.entry level hne
    cases e <;> simp [Walker.at?, Walker.entry, he] at ha
  | done => rfl

theorem Walks.stepOver_leaf (h : Walks st w cs) (ha : w.at? = some .leaf) :
    Walks st w.stepOver cs.tail := by
  cases h with
  | root => simp [Walker.at?] at ha
  | @node seen level rest above ℓ xs ys cs hs hne hb ho hk =>
    obtain ⟨e, he, hs'⟩ := hs.entry level hne
    cases e with
    | tree t => simp [Walker.at?, Walker.entry, he] at ha
    | leaf x =>
      obtain ⟨zs, rfl, hi, hz⟩ := hs'.entry_leaf
      rw [hi]
      have hk' : WellKeyed (zs ++ ys) := hk.sublist (List.sublist_cons_self x _)
      exact (Opened.cons hz hb ho).stepOver hk'
  | done => simp [Walker.at?] at ha

/-- Past a subtree, and all that is in it. -/
theorem Walks.stepOver_tree (h : Walks st w cs) (ha : w.at? = some .tree) : ∃ k ys cs',
    cs = preorder k ys ++ cs' ∧ WellKeyed ys ∧ Fits k ys ∧ Walks st w.stepOver cs' := by
  cases h with
  | @root seen t above ℓ xs hr hb =>
    exact ⟨ℓ, xs, [], by simp, hr.keyed, hr.fits, .done⟩
  | @node seen level rest above ℓ xs ys cs hs hne hb ho hk =>
    obtain ⟨e, he, hs'⟩ := hs.entry level hne
    cases e with
    | leaf x => simp [Walker.at?, Walker.entry, he] at ha
    | tree t =>
      obtain ⟨k, us, zs, rfl, rfl, -, hi, ht, hz, -⟩ := hs'.entry_tree
      refine ⟨k, us, inside (k + 1) zs ++ cs, by rw [hi, List.append_assoc], ht.keyed, ht.fits, ?_⟩
      rw [List.append_assoc] at hk
      exact (Opened.cons hz hb ho).stepOver hk.append_right
  | done => simp [Walker.at?] at ha

section

variable [LawfulCodec Cid]

theorem Opened.frame (h : Opened st S stack ys cs) (hg : Grows zs S S') (hz : WellKeyed zs)
    (hd : ys.Disjoint zs) : Opened st S' stack ys cs := by
  induction h with
  | nil => exact .nil
  | cons hs hb _ ih =>
    exact .cons (hs.frame hg hz fun x hx => hd (List.mem_append_left _ hx)) hb
      (ih fun x hx => hd (List.mem_append_right _ hx))

/-- Nodes with one CID hold the same. -/
theorem preorder_eq_of_cidAt_eq {k : ℕ} (hx : WellKeyed xs) (hy : WellKeyed ys) (hfx : Fits ℓ xs)
    (hfy : Fits k ys) (h : cidAt ℓ xs = cidAt k ys) : preorder ℓ xs = preorder k ys := by
  by_cases hne : xs = []
  · have hny : ys = [] := by
      by_contra hn
      exact hn ((cidAt_inj hy hx hfy hfx hn h.symm).2.trans hne)
    rw [hne, hny, preorder, preorder, inside_nil, inside_nil, cidAt_nil]
  · obtain ⟨rfl, rfl⟩ := cidAt_inj hx hy hfx hfy hne h
    rfl

end

section

variable [DecidableEq Cid] {left right : Walker Cid} {ls rs : List Cid} {d : Diff Cid}

/-- Two walkers and a difference that settle what two others were to settle, in fewer rounds. -/
structure Closer (st : Cid → Option Bytes) (ls rs : List Cid) (d : Diff Cid)
    (next : Walker Cid × Walker Cid × Diff Cid) : Prop where
  settles : ∃ ls' rs', Walks st next.1 ls' ∧ Walks st next.2.1 rs' ∧
    ls'.length + rs'.length < ls.length + rs.length ∧
    ∀ d', Settles ls' rs' next.2.2 d' → Settles ls rs d d'

theorem closer_remove {c : Cid} {left' : Walker Cid} (hc : ls = c :: ls.tail)
    (hl : Walks st left' ls.tail) (hr : Walks st right rs) :
    Closer st ls rs d (left', right, d.remove c) := by
  refine ⟨ls.tail, rs, hl, hr, ?_, fun d' h => ?_⟩
  · rw [hc, List.tail_cons, List.length_cons]
    omega
  · rw [hc]
    exact .remove c h

theorem closer_add {c : Cid} {right' : Walker Cid} (hl : Walks st left ls)
    (hc : rs = c :: rs.tail) (hr : Walks st right' rs.tail) :
    Closer st ls rs d (left, right', d.add c) := by
  refine ⟨ls, rs.tail, hl, hr, ?_, fun d' h => ?_⟩
  · rw [hc, List.tail_cons, List.length_cons]
    omega
  · rw [hc]
    exact .add c h

theorem closer_both {b a : Cid} {left' right' : Walker Cid} (hb : ls = b :: ls.tail)
    (ha : rs = a :: rs.tail) (hl : Walks st left' ls.tail) (hr : Walks st right' rs.tail) :
    Closer st ls rs d (left', right', (d.remove b).add a) := by
  refine ⟨ls.tail, rs.tail, hl, hr, ?_, fun d' h => ?_⟩
  · rw [hb, ha, List.tail_cons, List.tail_cons, List.length_cons, List.length_cons]
    omega
  · rw [hb, ha]
    exact .remove b (.add a h)

end

variable [DecidableEq Cid] [LawfulCodec Cid] {σ : Type} (s : σ) {left right : Walker Cid}
  {ls rs : List Cid}

theorem lt_maxDepth (h : ℓ ≤ 128) : ℓ < maxDepth := Nat.lt_of_le_of_lt h (by decide)

/-- Hashing what the cursor is on moves nothing. -/
theorem exec_cid (h : Walks st w cs) (ha : w.at? ≠ none) : ∃ c w',
    exec (Store.answer st) w.cid s = (.ok (c, w'), s) ∧ cs = c :: cs.tail ∧ Walks st w' cs ∧
      w'.at? = w.at? := by
  cases h with
  | @root seen t above ℓ xs hr hb =>
    obtain ⟨t', he, hr', -⟩ := exec_rootIn hr (lt_maxDepth hb)
    refine ⟨cidAt ℓ xs, ⟨seen, [], .root t', above⟩, ?_, rfl, .root hr' hb, rfl⟩
    simp only [Walker.cid, exec_bind, Reader.exec_resume_ok he, exec_pure]
  | @node seen level rest above ℓ xs ys cs hs hne hb ho hk =>
    obtain ⟨e, he, hs'⟩ := hs.entry level hne
    cases e with
    | leaf x =>
      obtain ⟨zs, rfl, hi, -⟩ := hs'.entry_leaf
      refine ⟨x.value, ⟨seen, level :: rest, .node, above⟩, ?_, by rw [hi]; rfl,
        .node hs hne hb ho hk, rfl⟩
      simp only [Walker.cid, he, exec_pure]
    | tree t =>
      obtain ⟨k, us, zs, rfl, -, -, hi, ht, hz, hback⟩ := hs'.entry_tree
      obtain ⟨t', hx, ht', -⟩ := exec_rootIn ht (lt_maxDepth (by omega : k ≤ 128))
      refine ⟨cidAt k us, ⟨seen, level.setSubtree t' :: rest, .node, above⟩, ?_, by rw [hi]; rfl,
        .node ?_ hne hb ho hk, ?_⟩
      · simp only [Walker.cid, he, exec_bind, Reader.exec_resume_ok hx, exec_pure]
      · have hd := drop_of_getElem? (Level.entry_setSubtree he t')
        rw [hd]
        change Shows _ _ (.tree t' :: (level.setSubtree t').entries.drop (level.index + 1)) xs
        rw [level.drop_setSubtree]
        exact hback seen t' ht' hz
      · simp [Walker.at?, Walker.entry, he, Level.entry_setSubtree he]
  | done => exact absurd rfl ha

theorem exec_levelOf {t : Mst Cid} (h : Rep st S ℓ t xs) (hb : ℓ ≤ 128) : ∃ es m t' S',
    exec (Store.answer st) (Walker.levelOf t) S = (.ok (⟨es, 0, m⟩, t'), S') ∧
      Shows (RepUnder st S' ℓ) ℓ es xs ∧ Grows xs S S' := by
  obtain ⟨t1, S1, he1, ht1, hg1, -⟩ := exec_layer h (lt_maxDepth hb)
  obtain ⟨es, S2, he2, hs2, hg2⟩ := exec_entries ht1
  refine ⟨es, layerOf t ℓ xs, t1.withEntries es, S2, ?_, ?_, hg1.trans hg2⟩
  · simp only [Walker.levelOf, exec_bind, he1, he2, exec_pure]
  · by_cases hne : xs = []
    · subst hne
      obtain rfl := hs2.covers.eq_nil_iff.mp rfl
      exact .nil
    · rwa [layerOf_of_ne t ℓ hne] at hs2

/-- Into a subtree, whose own block is behind the walker then. -/
theorem exec_stepInto (h : Walks st w cs) (ha : w.at? = some .tree) : ∃ w',
    exec (Store.answer st) w.stepInto s = (.ok w', s) ∧ Walks st w' cs.tail := by
  cases h with
  | @root seen t above ℓ xs hr hb =>
    obtain ⟨es, m, t', S', he, hs, -⟩ := exec_levelOf hr hb
    refine ⟨Walker.inside ⟨S', [⟨es, 0, m⟩], .root t, above⟩, ?_, ?_⟩
    · have hdeep : ¬ maxDepth ≤ ([] : List (Level Cid)).length :=
        Nat.not_le.mpr (lt_maxDepth (Nat.zero_le 128))
      rw [Walker.stepInto, if_neg hdeep]
      simp only [exec_bind, Reader.exec_resume_ok he, exec_pure]
    · change Walks st _ (inside ℓ xs)
      by_cases hne : xs = []
      · subst hne
        obtain rfl := hs.covers.eq_nil_iff.mp rfl
        rw [inside_nil]
        exact .done
      · obtain ⟨e, hentry, -⟩ := hs.entry ⟨es, 0, m⟩ hne
        rw [Walker.inside_of_entry hentry]
        have hw : Walks st ⟨S', [⟨es, 0, m⟩], .node, above⟩ (inside ℓ xs ++ []) :=
          .node hs hne (by simpa using hb) .nil (by simpa using hr.keyed)
        rwa [List.append_nil] at hw
  | @node seen level rest above ℓ xs ys cs hs hne hb ho hk =>
    obtain ⟨e, hentry, hs'⟩ := hs.entry level hne
    cases e with
    | leaf x => simp [Walker.at?, Walker.entry, hentry] at ha
    | tree t =>
      obtain ⟨k, us, zs, rfl, rfl, hus, hi, ht, hz, -⟩ := hs'.entry_tree
      rw [List.append_assoc] at hk
      obtain ⟨es, m, t', S', he, hsu, hg⟩ := exec_levelOf ht (by omega)
      obtain ⟨e', hentry', -⟩ := hsu.entry ⟨es, 0, m⟩ hus
      refine ⟨⟨S', ⟨es, 0, m⟩ :: level.setSubtree t' :: rest, .node, above⟩, ?_, ?_⟩
      · have hdeep : ¬ maxDepth ≤ (level :: rest).length := by
          rw [List.length_cons, Nat.not_le]
          exact lt_maxDepth (by omega)
        rw [Walker.stepInto, if_neg hdeep]
        simp only [hentry, exec_bind, Reader.exec_resume_ok he, exec_pure]
        rw [Walker.inside_of_entry hentry']
      · have hdisj : (zs ++ ys).Disjoint us := fun x hx hu => hk.disjoint hu hx
        have hzs : Shows (RepUnder st S' (k + 1)) (k + 1)
            ((level.setSubtree t').entries.drop ((level.setSubtree t').index + 1)) zs := by
          change Shows _ _ ((level.setSubtree t').entries.drop (level.index + 1)) zs
          rw [level.drop_setSubtree]
          exact hz.frame hg ht.keyed fun x hx => hdisj (List.mem_append_left ys hx)
        have hys := ho.frame hg ht.keyed fun x hx => hdisj (List.mem_append_right zs hx)
        rw [hi, List.append_assoc]
        exact .node hsu hus (by rw [List.length_cons]; omega) (Opened.cons hzs hb hys) hk
  | done => simp [Walker.at?] at ha

/-- Past a leaf or into a subtree, leaving one block behind either way. -/
theorem exec_advance (h : Walks st w cs) (ha : w.at? ≠ none) : ∃ w',
    exec (Store.answer st) w.advance s = (.ok w', s) ∧ Walks st w' cs.tail := by
  rw [Walker.advance]
  split_ifs with hl
  · exact ⟨w.stepOver, rfl, h.stepOver_leaf hl⟩
  · refine exec_stepInto s h ?_
    obtain ⟨a, hat⟩ := Option.ne_none_iff_exists'.mp ha
    rw [hat] at hl ⊢
    rw [At.eq_tree fun h => hl (congrArg some h)]

/-! ## The walk -/

/-- A way to move that leaves the block under the cursor behind. -/
def Moves (st : Cid → Option Bytes) (s : σ) (w : Walker Cid)
    (move : Walker Cid → Reads Cid σ (Walker Cid)) : Prop :=
  ∀ w' cs, Walks st w' cs → w'.at? = w.at? → ∃ w'',
    exec (Store.answer st) (move w') s = (.ok w'', s) ∧ Walks st w'' cs.tail

theorem moves_advance (ha : w.at? ≠ none) : Moves st s w Walker.advance :=
  fun _ _ h hat => exec_advance s h (hat ▸ ha)

theorem moves_stepInto (ha : w.at? = some .tree) : Moves st s w Walker.stepInto :=
  fun _ _ h hat => exec_stepInto s h (hat.trans ha)

theorem exec_removing {move : Walker Cid → Reads Cid σ (Walker Cid)} (h : Walks st w cs)
    (ha : w.at? ≠ none) (hm : Moves st s w move) (d : Diff Cid) : ∃ c w',
    exec (Store.answer st) (Mst.removing move w d) s = (.ok (w', d.remove c), s) ∧
      cs = c :: cs.tail ∧ Walks st w' cs.tail := by
  obtain ⟨c, w', he, hc, hw, hat⟩ := exec_cid s h ha
  obtain ⟨w'', he', hw'⟩ := hm w' cs hw hat
  exact ⟨c, w'', by simp only [Mst.removing, exec_bind, he, he', exec_pure], hc, hw'⟩

theorem exec_adding {move : Walker Cid → Reads Cid σ (Walker Cid)} (h : Walks st w cs)
    (ha : w.at? ≠ none) (hm : Moves st s w move) (d : Diff Cid) : ∃ c w',
    exec (Store.answer st) (Mst.adding move w d) s = (.ok (w', d.add c), s) ∧
      cs = c :: cs.tail ∧ Walks st w' cs.tail := by
  obtain ⟨c, w', he, hc, hw, hat⟩ := exec_cid s h ha
  obtain ⟨w'', he', hw'⟩ := hm w' cs hw hat
  exact ⟨c, w'', by simp only [Mst.adding, exec_bind, he, he', exec_pure], hc, hw'⟩

theorem exec_droppedRound {here there : At} (hl : Walks st left ls) (hr : Walks st right rs)
    (hla : left.at? = some here) (hra : right.at? = some there) (d : Diff Cid) : ∃ next,
    exec (Store.answer st) (Mst.droppedRound here there left right d) s = (.ok next, s) ∧
      Closer st ls rs d next := by
  have hln : left.at? ≠ none := by simp [hla]
  have hrn : right.at? ≠ none := by simp [hra]
  have removes : ∀ move, Moves st s left move → ∃ next, exec (Store.answer st)
      (Mst.removing move left d >>= fun step => pure (step.1, right, step.2)) s = (.ok next, s) ∧
        Closer st ls rs d next := by
    intro move hm
    obtain ⟨c, left', he, hc, hl'⟩ := exec_removing s hl hln hm d
    exact ⟨_, by simp only [exec_bind, he, exec_pure], closer_remove hc hl' hr⟩
  have adds : ∀ move, Moves st s right move → ∃ next, exec (Store.answer st)
      (Mst.adding move right d >>= fun step => pure (left, step.1, step.2)) s = (.ok next, s) ∧
        Closer st ls rs d next := by
    intro move hm
    obtain ⟨c, right', he, hc, hr'⟩ := exec_adding s hr hrn hm d
    exact ⟨_, by simp only [exec_bind, he, exec_pure], closer_add hl hc hr'⟩
  obtain ⟨b, left', heb, hb, hl', hlat⟩ := exec_cid s hl hln
  obtain ⟨a, right', hea, ha, hr', hrat⟩ := exec_cid s hr hrn
  unfold Mst.droppedRound
  split_ifs with h1 h2 h3 h4 h5 h6 h7 h8 h9
  · -- One key on both sides.
    obtain ⟨left'', hel, hl''⟩ := exec_advance s hl' (hlat ▸ hln)
    obtain ⟨right'', her, hr''⟩ := exec_advance s hr' (hrat ▸ hrn)
    refine ⟨(left'', right'', if b ≠ a then (d.remove b).add a else d), ?_, ?_⟩
    · simp only [exec_bind, heb, hea, hel, her, exec_pure]
    · by_cases hab : b = a
      · rw [if_neg (not_not.mpr hab)]
        refine ⟨ls.tail, rs.tail, hl'', hr'', ?_, fun d' h => ?_⟩
        · rw [hb, ha, List.tail_cons, List.tail_cons, List.length_cons, List.length_cons]
          omega
        · rw [hb, ha, hab]
          exact .skip [a] h
      · rw [if_pos hab]
        exact closer_both hb ha hl'' hr''
  · exact removes _ (moves_advance s hln)
  · exact adds _ (moves_advance s hrn)
  · exact adds _ (moves_advance s hrn)
  · exact removes _ (moves_stepInto s (At.eq_tree h5 ▸ hla))
  · exact removes _ (moves_advance s hln)
  · exact adds _ (moves_stepInto s (At.eq_tree h7 ▸ hra))
  · -- Subtrees on one layer.
    obtain ⟨rfl, rfl⟩ := h8
    by_cases hab : b = a
    · obtain ⟨k, ys, ls', hls, hky, hfy, hover⟩ := hl'.stepOver_tree (hlat.trans hla)
      obtain ⟨k', ys', rs', hrs, hky', hfy', hover'⟩ := hr'.stepOver_tree (hrat.trans hra)
      have hcid : cidAt k ys = cidAt k' ys' := by
        rw [hls, preorder, List.cons_append, List.tail_cons, List.cons.injEq] at hb
        rw [hrs, preorder, List.cons_append, List.tail_cons, List.cons.injEq] at ha
        rw [hb.1, ha.1, hab]
      have hpre := preorder_eq_of_cidAt_eq hky hky' hfy hfy' hcid
      refine ⟨(left'.stepOver, right'.stepOver, d), ?_, ls', rs', hover, hover', ?_, fun d' h => ?_⟩
      · simp only [exec_bind, heb, hea, if_pos hab, exec_pure]
      · rw [hls, hrs, List.length_append, List.length_append, preorder, List.length_cons]
        omega
      · rw [hls, hrs, hpre]
        exact .skip _ h
    · obtain ⟨left'', hel, hl''⟩ := exec_stepInto s hl' (hlat.trans hla)
      obtain ⟨right'', her, hr''⟩ := exec_stepInto s hr' (hrat.trans hra)
      refine ⟨(left'', right'', (d.remove b).add a), ?_, closer_both hb ha hl'' hr''⟩
      simp only [exec_bind, heb, hea, if_neg hab, hel, her, exec_pure]
  · exact removes _ (moves_stepInto s (h9 ▸ hla))
  · have ht : there ≠ .leaf := fun ht => h9 (At.eq_tree fun hh => h1 ⟨hh, ht⟩)
    exact adds _ (moves_stepInto s (At.eq_tree ht ▸ hra))

/-- The walk settles the difference of what the two walkers have still to come by, unless it is
given too few rounds. -/
theorem exec_droppedFrom (rounds : ℕ) (hl : Walks st left ls) (hr : Walks st right rs)
    (d : Diff Cid) :
    (exec (Store.answer st) (Mst.droppedFrom rounds left right d) s = (.error .unfinished, s) ∧
        rounds ≤ ls.length + rs.length) ∨
      ∃ d', exec (Store.answer st) (Mst.droppedFrom rounds left right d) s = (.ok d'.removed, s) ∧
        Settles ls rs d d' := by
  induction rounds generalizing left right ls rs d with
  | zero => exact Or.inl ⟨rfl, Nat.zero_le _⟩
  | succ rounds ih =>
    have close : ∀ left' right' d1, Closer st ls rs d (left', right', d1) →
        (exec (Store.answer st) (Mst.droppedFrom rounds left' right' d1) s =
            (.error .unfinished, s) ∧ rounds + 1 ≤ ls.length + rs.length) ∨
          ∃ d', exec (Store.answer st) (Mst.droppedFrom rounds left' right' d1) s =
              (.ok d'.removed, s) ∧ Settles ls rs d d' := by
      rintro left' right' d1 ⟨ls', rs', hl', hr', hlt, hset⟩
      rcases ih hl' hr' d1 with ⟨hu, hle⟩ | ⟨d', hd, hs⟩
      · exact Or.inl ⟨hu, by omega⟩
      · exact Or.inr ⟨d', hd, hset d' hs⟩
    cases hla : left.at? with
    | none =>
      obtain rfl := hl.of_at_none hla
      cases hra : right.at? with
      | none =>
        obtain rfl := hr.of_at_none hra
        refine Or.inr ⟨d, ?_, .done d⟩
        simp only [Mst.droppedFrom, hla, hra, exec_pure]
      | some there =>
        obtain ⟨c, right', he, hc, hr'⟩ := exec_adding s hr (by simp [hra])
          (moves_advance s (by simp [hra])) d
        simp only [Mst.droppedFrom, hla, hra, exec_bind, he]
        exact close left right' (d.add c) (closer_add hl hc hr')
    | some here =>
      cases hra : right.at? with
      | none =>
        obtain ⟨c, left', he, hc, hl'⟩ := exec_removing s hl (by simp [hla])
          (moves_advance s (by simp [hla])) d
        simp only [Mst.droppedFrom, hla, hra, exec_bind, he]
        exact close left' right (d.remove c) (closer_remove hc hl' hr)
      | some there =>
        obtain ⟨⟨left', right', d1⟩, he, hclose⟩ := exec_droppedRound s hl hr hla hra d
        simp only [Mst.droppedFrom, hla, hra, exec_bind, he]
        exact close left' right' d1 hclose

theorem exec_newWalker {t : Mst Cid} (h : Holds st ℓ t xs) : ∃ w,
    exec (Store.answer st) (Walker.new t) s = (.ok w, s) ∧ Walks st w (preorder ℓ xs) := by
  obtain ⟨t', S', he, ht, -, -⟩ := exec_layer h.rep (lt_maxDepth h.le)
  refine ⟨⟨S', [], .root t', layerOf t ℓ xs + 1⟩, ?_, ?_⟩
  · simp only [Walker.new, exec_bind, Reader.exec_resume_ok he, exec_pure]
  · have hpre : preorder (layerOf t ℓ xs) xs = preorder ℓ xs := by
      by_cases hne : xs = []
      · rw [hne, preorder, preorder, inside_nil, inside_nil, cidAt_nil]
      · rw [layerOf_of_ne t ℓ hne]
    rw [← hpre]
    exact .root ht ((layerOf_le h.rep).trans h.le)

/-- What comes back are the blocks of the tree before, less those of the tree now: every one this
tree does not reach, and no node of it. -/
theorem exec_dropped {t prev : Mst Cid} {k : ℕ} (rounds : ℕ) (h : Holds st ℓ t xs)
    (hp : Holds st k prev ys) :
    (exec (Store.answer st) (t.dropped rounds prev) s = (.error .unfinished, s) ∧
        rounds ≤ (preorder k ys).length + (preorder ℓ xs).length) ∨
      ∃ gone, exec (Store.answer st) (t.dropped rounds prev) s = (.ok gone, s) ∧
        (∀ c, c ∉ preorder ℓ xs → (c ∈ gone ↔ c ∈ preorder k ys)) ∧
        (∀ c ∈ preorder ℓ xs, (∀ x ∈ xs, x.value ≠ c) → (∀ y ∈ ys, y.value ≠ c) → c ∉ gone) ∧
        ∀ c ∈ gone, c ∈ preorder k ys := by
  obtain ⟨left, hel, hl⟩ := exec_newWalker s hp
  obtain ⟨right, her, hr⟩ := exec_newWalker s h
  rcases exec_droppedFrom s rounds hl hr .empty with ⟨hu, hle⟩ | ⟨d', hd, hset⟩
  · exact Or.inl ⟨by simp only [Mst.dropped, exec_bind, hel, her, hu], hle⟩
  · refine Or.inr ⟨d'.removed, by simp only [Mst.dropped, exec_bind, hel, her, hd],
      fun c hc => ?_, fun c hc hx hy hgone => ?_, fun c hc => ?_⟩
    · rw [hset.mem_removed hc (by simp [Diff.empty])]
      simp [Diff.empty]
    · rw [hset.mem_removed_of_count (count_preorder_le hp.keyed hp.fits hy)
        (count_preorder_le h.keyed h.fits hx) (by simp [Diff.empty]) (by simp [Diff.empty])] at hgone
      exact hgone.2.2 hc
    · exact (hset.mem_left_of_mem_removed hc).resolve_left (by simp [Diff.empty])

end Manapds
