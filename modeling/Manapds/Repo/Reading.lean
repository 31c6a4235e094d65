import Manapds.Repo.Rep

/-!
# Reading a tree

What every operation that leaves the tree alone comes to, on a tree that stands for some leaves:
reading a node in, finding its layer, hashing it, looking a key up and listing the leaves. Each
gives back a tree that stands for the same leaves, with more of it read.
-/

namespace Manapds

open KeyedList Shape QueryProgram Routine

variable {Cid : Type}

@[simp] theorem layer?_withEntries (t : Mst Cid) (es : List (Entry Cid)) :
    (t.withEntries es).layer? = t.layer? := by
  cases t
  rfl

/-- The layer an operation takes a tree to be at: an empty one is at whichever it remembers. -/
def layerOf (t : Mst Cid) (ℓ : ℕ) (xs : List (Leaf Cid)) : ℕ :=
  if xs = [] then t.layer?.getD 0 else ℓ

theorem layerOf_of_ne {xs : List (Leaf Cid)} (t : Mst Cid) (ℓ : ℕ) (h : xs ≠ []) : layerOf t ℓ xs = ℓ := if_neg h

theorem isChain_lazyRun_append {child : List (Leaf Cid) → Option Cid} {under : Option ℕ}
    {ys : List (Leaf Cid)} {es : List (Entry Cid)} (h : es.IsChain Entry.Apart)
    (hh : ∀ e ∈ es.head?, e.isTree = false) :
    (lazyRun child under ys ++ es).IsChain Entry.Apart := by
  unfold lazyRun Mst.toEntries
  cases child ys with
  | none => exact h
  | some c =>
    refine List.isChain_append.mpr ⟨List.isChain_singleton _, h, ?_⟩
    exact fun _ _ e he => Or.inr (hh e he)

theorem isChain_lazyEntries (child : List (Leaf Cid) → Option Cid) (under : Option ℕ)
    (g : List (Leaf Cid) × List (Leaf Cid × List (Leaf Cid))) :
    (lazyEntries child under g).IsChain Entry.Apart := by
  have hrest : ∀ rest : List (Leaf Cid × List (Leaf Cid)),
      (rest.flatMap fun p => .leaf p.1 :: lazyRun child under p.2).IsChain Entry.Apart ∧
        ∀ e ∈ (rest.flatMap fun p => .leaf p.1 :: lazyRun child under p.2).head?,
          e.isTree = false := by
    intro rest
    induction rest with
    | nil => simp
    | cons p rest ih =>
      refine ⟨?_, by simp [Entry.isTree]⟩
      rw [List.flatMap_cons, List.cons_append, List.isChain_cons]
      exact ⟨fun _ _ => Or.inl rfl, isChain_lazyRun_append ih.1 ih.2⟩
  exact isChain_lazyRun_append (hrest g.2).1 (hrest g.2).2

variable [Codec Cid]

theorem covers_lazyEntries {R : Mst Cid → List (Leaf Cid) → Prop} {ℓ : ℕ} {under : Option ℕ}
    {child : List (Leaf Cid) → Option Cid}
    {g : List (Leaf Cid) × List (Leaf Cid × List (Leaf Cid))}
    (hz : ∀ p ∈ g.2, p.1.zeros = ℓ)
    (hr : ∀ ys, ys = g.1 ∨ (∃ x, (x, ys) ∈ g.2) → Covers R ℓ (lazyRun child under ys) ys) :
    Covers R ℓ (lazyEntries child under g) (flat g) := by
  refine covers_append.mpr ⟨g.1, _, rfl, hr g.1 (Or.inl rfl), ?_⟩
  have hr' : ∀ p ∈ g.2, Covers R ℓ (lazyRun child under p.2) p.2 := fun p hp =>
    hr p.2 (Or.inr ⟨p.1, hp⟩)
  generalize g.2 = rest at hz hr'
  induction rest with
  | nil => exact .nil
  | cons p rest ih =>
    simp only [List.flatMap_cons]
    rw [List.cons_append, List.cons_append]
    refine covers_leaf.mpr ⟨_, rfl, hz p List.mem_cons_self, ?_⟩
    refine covers_append.mpr ⟨p.2, _, rfl, hr' p List.mem_cons_self, ?_⟩
    exact ih (fun q hq => hz q (List.mem_cons_of_mem p hq))
      fun q hq => hr' q (List.mem_cons_of_mem p hq)

variable {st : Cid → Option Bytes} {S : List Cid} {ℓ : ℕ} {t : Mst Cid} {xs : List (Leaf Cid)}

theorem Rep.withEntries {S' : List Cid} {es : List (Entry Cid)} (h : Rep st S ℓ t xs)
    (hs : Shows (RepUnder st S' ℓ) ℓ es xs) : Rep st S' ℓ (t.withEntries es) xs := by
  have hn := rep_iff.mp h
  cases t
  exact rep_mk hn.keyed hs hn.layer hn.pointer

theorem Rep.withLayer {layer : Option ℕ} (h : Rep st S ℓ t xs)
    (hl : layer = none ∨ layer = some ℓ) : Rep st S ℓ (t.withLayer layer) xs := by
  have hn := rep_iff.mp h
  cases t
  exact rep_iff.mpr ⟨hn.keyed, hn.fits, hl, hn.pointer, hn.loaded, hn.unread⟩

theorem leafLayer_of_covers {R : Mst Cid → List (Leaf Cid) → Prop} {es : List (Entry Cid)}
    (h : Covers R ℓ es xs) : Mst.leafLayer es = some ℓ ∨
      Mst.leafLayer es = none ∧ ∀ e ∈ es, e.isTree = true := by
  induction h with
  | nil => exact Or.inr ⟨rfl, by simp⟩
  | @cons e es ys xs he h ih =>
    cases e with
    | leaf x => exact Or.inl (congrArg some he.2)
    | tree t =>
      refine ih.imp id fun hr => ⟨hr.1, ?_⟩
      simpa [Entry.isTree] using hr.2

/-- A node with no leaf of its own is empty, or a lone pointer at the node below. -/
theorem eq_singleton_of_all_trees {R : Mst Cid → List (Leaf Cid) → Prop} {es : List (Entry Cid)}
    (h : Shows R ℓ es xs) (ht : ∀ e ∈ es, e.isTree = true) :
    es = [] ∨ ∃ u, es = [.tree u] := by
  cases es with
  | nil => exact Or.inl rfl
  | cons e es =>
    cases e with
    | leaf x => exact absurd (ht _ List.mem_cons_self) (by simp [Entry.isTree])
    | tree u =>
      cases es with
      | nil => exact Or.inr ⟨u, rfl⟩
      | cons e es =>
        have he : e.isTree = true := ht e (by simp)
        rcases (List.isChain_cons.mp h.apart).1 e rfl with ha | ha
        · cases ha
        · rw [he] at ha
          cases ha

theorem childAt_of_repUnder {u : Mst Cid} {ys : List (Leaf Cid)} (hne : ys ≠ [])
    (h : RepUnder st S ℓ u ys) : ∃ k, ℓ = k + 1 ∧ childAt ℓ ys = some (cidAt k ys) ∧
      Rep st S k u ys := by
  cases ℓ with
  | zero => exact h.elim
  | succ k => exact ⟨k, rfl, childAt_succ hne, h⟩

theorem Covers.group_fst {R : Mst Cid → List (Leaf Cid) → Prop} {es : List (Entry Cid)}
    (h : Covers R ℓ es xs) (hh : ∀ e ∈ es.head?, e.isTree = false) : (group ℓ xs).1 = [] := by
  cases h with
  | nil => rfl
  | @cons e es ys xs he h =>
    cases e with
    | leaf x =>
      obtain ⟨rfl, hx⟩ := he
      rw [List.singleton_append, group_cons_of_eq hx]
    | tree u => exact absurd (hh _ rfl) (by simp [Entry.isTree])

/-- What every subtree of a node stands for may change with the run it is over. -/
theorem Shows.imp_runs {R R' : Mst Cid → List (Leaf Cid) → Prop} {es : List (Entry Cid)}
    (h : Shows R ℓ es xs) (hr : ∀ t ys, ys ∈ runs ℓ xs → R t ys → R' t ys) : Shows R' ℓ es xs := by
  refine ⟨?_, h.apart⟩
  induction es generalizing xs with
  | nil => exact covers_nil.mpr (covers_nil.mp h.covers)
  | cons e es ih =>
    have ha := List.isChain_cons.mp h.apart
    cases e with
    | leaf x =>
      obtain ⟨zs, rfl, hx, hc⟩ := covers_leaf.mp h.covers
      rw [runs_cons_of_eq hx] at hr
      exact covers_leaf.mpr ⟨zs, rfl, hx, ih ⟨hc, ha.2⟩ hr⟩
    | tree u =>
      obtain ⟨ys, zs, rfl, hne, hfu, hu, hc⟩ := covers_tree.mp h.covers
      have hg := hc.group_fst fun e hm => (ha.1 e hm).resolve_left (by simp [Entry.isTree])
      rw [runs_append_of_under hfu hne hg] at hr
      exact covers_tree.mpr ⟨ys, zs, rfl, hne, hfu, hr u ys List.mem_cons_self hu,
        ih ⟨hc, ha.2⟩ fun t ws hw => hr t ws (List.mem_cons_of_mem ys hw)⟩

/-- An empty node is the same node at every layer. -/
theorem Rep.of_nil {ℓ' : ℕ} (h : Rep st S ℓ t []) (hl : t.layer? = none ∨ t.layer? = some ℓ') :
    Rep st S ℓ' t [] := by
  have hn := rep_iff.mp h
  refine rep_iff.mpr ⟨hn.keyed, by simp [Fits], hl, ?_, fun es he => ?_, fun hne => ?_⟩
  · rw [cidAt_nil ℓ' ℓ]
    exact hn.pointer
  · obtain rfl := (hn.loaded es he).covers.eq_nil_iff.mp rfl
    exact ⟨.nil, List.isChain_nil⟩
  · obtain ⟨hp, hs, hu⟩ := hn.unread hne
    simp only [Stored, Unseen, nodesOf_nil, List.forall_mem_singleton] at hs hu ⊢
    simp only [cidAt_nil ℓ' ℓ, blockAt, nodeAt_nil] at hs hu ⊢
    exact ⟨hp, hs, hu⟩

section

variable [DecidableEq Cid]

@[simp] theorem entries_withEntries (t : Mst Cid) (es : List (Entry Cid)) :
    (t.withEntries es).entries = pure (es, t.withEntries es) := by
  cases t
  rfl

@[simp] theorem entries_fromEntries (es : List (Entry Cid)) (layer : Option ℕ) :
    (Mst.fromEntries es layer).entries = pure (es, Mst.fromEntries es layer) := rfl

@[simp] theorem takeEntries_withEntries (t : Mst Cid) (es : List (Entry Cid)) :
    (t.withEntries es).takeEntries = pure es := by
  cases t
  rfl

theorem exec_indexOf {es : List (Entry Cid)} {S' : List Cid}
    (h : exec (Store.answer st) t.entries S = (.ok (es, t.withEntries es), S')) (key : Str) :
    exec (Store.answer st) (t.indexOf key) S =
      (.ok (Mst.position es key, t.withEntries es), S') := by
  simp only [Mst.indexOf, exec_bind, h, exec_pure]

end

/-! ## Storing a node -/

section

variable {R : Mst Cid → List (Leaf Cid) → Prop} {child : List (Leaf Cid) → Option Cid}
  {root : Mst Cid → Reading Cid (Cid × Mst Cid)} {es : List (Entry Cid)}

/-- The leaves of a node are stored as the shape of the node says, once its subtrees hash to the
CIDs the shape gives them. -/
theorem exec_serializeFrom (last : Str) (h : Shows R ℓ es xs)
    (hh : ∀ e ∈ es.head?, e.isTree = false)
    (hv : ∀ x ∈ xs, (ensureValidKey x.key : Except (RepoError Cid) Unit) = .ok ())
    (hn : child [] = none) (hr : ∀ u ys, ys ≠ [] → R u ys → ∃ c u', child ys = some c ∧
      exec (Store.answer st) (root u) S = (.ok (c, u'), S) ∧ R u' ys) :
    (group ℓ xs).1 = [] ∧ ∃ es', exec (Store.answer st) (Mst.serializeFrom root last es) S =
        (.ok (storedFrom child last (group ℓ xs).2, es'), S) ∧
      Covers R ℓ es' xs ∧ es'.map Entry.isTree = es.map Entry.isTree := by
  induction last, es using Mst.serializeFrom.induct generalizing xs with
  | case1 last =>
    obtain rfl := covers_nil.mp h.covers
    exact ⟨rfl, [], rfl, .nil, rfl⟩
  | case2 last u rest => exact absurd (hh _ rfl) (by simp [Entry.isTree])
  | case3 last x u rest ih =>
    obtain ⟨zs, rfl, hx, hc⟩ := covers_leaf.mp h.covers
    obtain ⟨ys, ws, rfl, hne, hfu, hu, hc⟩ := covers_tree.mp hc
    have ha := (List.isChain_cons.mp (List.isChain_cons.mp h.apart).2)
    have hrest : Shows R ℓ rest ws := ⟨hc, ha.2⟩
    obtain ⟨hg, es', he, hc', hk⟩ := ih hrest (fun e hm => (ha.1 e hm).resolve_left (by
      simp [Entry.isTree])) fun y hy => hv y (by simp [hy])
    obtain ⟨c, u', hcy, hroot, hu'⟩ := hr u ys hne hu
    have hgroup : group ℓ (x :: (ys ++ ws)) = ([], (x, ys) :: (group ℓ ws).2) := by
      rw [group_cons_of_eq hx, group_append_of_under hfu, hg, List.append_nil]
    refine ⟨by rw [hgroup], .leaf x :: .tree u' :: es', ?_, ?_, by simp [hk, Entry.isTree]⟩
    · simp only [Mst.serializeFrom, exec_bind, hroot, hv x List.mem_cons_self, exec_ofExcept_ok, he,
        exec_pure, hgroup, storedFrom, hcy]
    · exact covers_leaf.mpr ⟨_, rfl, hx, covers_tree.mpr ⟨ys, ws, rfl, hne, hfu, hu', hc'⟩⟩
  | case4 last x rest hnot ih =>
    obtain ⟨zs, rfl, hx, hc⟩ := covers_leaf.mp h.covers
    have hrest : Shows R ℓ rest zs := ⟨hc, (List.isChain_cons.mp h.apart).2⟩
    have hhead : ∀ e ∈ rest.head?, e.isTree = false := by
      intro e hm
      cases e with
      | leaf y => rfl
      | tree u =>
        obtain ⟨rest', rfl⟩ := List.head?_eq_some_iff.mp hm
        exact (hnot u rest' rfl).elim
    obtain ⟨hg, es', he, hc', hk⟩ := ih hrest hhead fun y hy => hv y (by simp [hy])
    have hgroup : group ℓ (x :: zs) = ([], (x, []) :: (group ℓ zs).2) := by
      rw [group_cons_of_eq hx, hg]
    refine ⟨by rw [hgroup], .leaf x :: es', ?_, covers_leaf.mpr ⟨zs, rfl, hx, hc'⟩,
      by simp [hk, Entry.isTree]⟩
    rw [Mst.serializeFrom]
    · simp only [exec_bind, hv x List.mem_cons_self, exec_ofExcept_ok, he, exec_pure, hgroup,
        storedFrom, hn]
    · exact hnot

theorem exec_serialize (h : Shows R ℓ es xs)
    (hv : ∀ x ∈ xs, (ensureValidKey x.key : Except (RepoError Cid) Unit) = .ok ())
    (hn : child [] = none) (hr : ∀ u ys, ys ≠ [] → R u ys → ∃ c u', child ys = some c ∧
      exec (Store.answer st) (root u) S = (.ok (c, u'), S) ∧ R u' ys) :
    ∃ es', exec (Store.answer st) (Mst.serialize root es) S = (.ok (nodeOf child ℓ xs, es'), S) ∧
      Shows R ℓ es' xs ∧ es'.map Entry.isTree = es.map Entry.isTree := by
  by_cases hh : ∀ e ∈ es.head?, e.isTree = false
  · obtain ⟨hg, es', he, hc, hk⟩ := exec_serializeFrom [] h hh hv hn hr
    refine ⟨es', ?_, h.of_kinds hc hk, hk⟩
    rw [Mst.serialize]
    · simp only [exec_bind, he, exec_pure, nodeOf, hg, hn]
    · rintro u rest rfl
      exact absurd (hh _ rfl) (by simp [Entry.isTree])
  · obtain ⟨u, rest, rfl⟩ : ∃ u rest, es = .tree u :: rest := by
      cases es with
      | nil => simp at hh
      | cons e rest =>
        cases e with
        | leaf x => simp [Entry.isTree] at hh
        | tree u => exact ⟨u, rest, rfl⟩
    obtain ⟨ys, zs, rfl, hne, hfu, hu, hc⟩ := covers_tree.mp h.covers
    have ha := List.isChain_cons.mp h.apart
    obtain ⟨hg, es', he, hc', hk⟩ := exec_serializeFrom [] ⟨hc, ha.2⟩
      (fun e hm => (ha.1 e hm).resolve_left (by simp [Entry.isTree]))
      (fun x hx => hv x (List.mem_append_right ys hx)) hn hr
    obtain ⟨c, u', hcy, hroot, hu'⟩ := hr u ys hne hu
    have hgroup : group ℓ (ys ++ zs) = (ys, (group ℓ zs).2) := by
      rw [group_append_of_under hfu, hg, List.append_nil]
    have hkind : (Entry.tree u' :: es').map Entry.isTree = (.tree u :: rest).map Entry.isTree := by
      simp [hk, Entry.isTree]
    refine ⟨.tree u' :: es', ?_, h.of_kinds (covers_tree.mpr ⟨ys, zs, rfl, hne, hfu, hu', hc'⟩)
      hkind, hkind⟩
    simp only [Mst.serialize, exec_bind, hroot, he, exec_pure, nodeOf, hgroup, hcy]

end

section

variable [DecidableEq Cid]

theorem exec_nodeData {root : Mst Cid → Reading Cid (Cid × Mst Cid)} {layer : Option ℕ}
    {pointer : Option Cid} {es : List (Entry Cid)} (h : Rep st S ℓ (.mk (some es) layer pointer) xs)
    (hr : ∀ k u ys, ℓ = k + 1 → Rep st S k u ys → ∃ u',
      exec (Store.answer st) (root u) S = (.ok (cidAt k ys, u'), S) ∧ Rep st S k u' ys) :
    ∃ es', exec (Store.answer st) (Mst.nodeData root (.mk (some es) layer pointer)) S =
        (.ok (nodeAt ℓ xs, .mk (some es') layer pointer), S) ∧
      Shows (RepUnder st S ℓ) ℓ es' xs := by
  have hn := rep_iff.mp h
  have hr' : ∀ u ys, ys ≠ [] → RepUnder st S ℓ u ys → ∃ c u', childAt ℓ ys = some c ∧
      exec (Store.answer st) (root u) S = (.ok (c, u'), S) ∧ RepUnder st S ℓ u' ys := by
    intro u ys hne hu
    obtain ⟨k, rfl, hc, hrep⟩ := childAt_of_repUnder hne hu
    obtain ⟨u', hx, hu'⟩ := hr k u ys rfl hrep
    exact ⟨_, u', hc, hx, hu'⟩
  obtain ⟨es', he, hs', -⟩ := exec_serialize (hn.loaded es rfl) hn.keyed.valid childAt_nil hr'
  refine ⟨es', ?_, hs'⟩
  rw [← nodeAt] at he
  simp only [Mst.nodeData, Mst.entries, Mst.fill, Mst.entries?, exec_bind, exec_pure, he]
  rfl

theorem exec_unstoredUnder {unstored : Mst Cid → Reading Cid ((Cid × BlockMap Cid) × Mst Cid)}
    {R : Mst Cid → List (Leaf Cid) → Prop} {P : List (Leaf Cid) → Cid → Prop}
    {es : List (Entry Cid)} {blocks : BlockMap Cid} (h : Shows R ℓ es xs) (hb : blocks.Sound)
    (hr : ∀ u ys, ys ≠ [] → R u ys → ∃ c under u',
      exec (Store.answer st) (unstored u) S = (.ok ((c, under), u'), S) ∧ R u' ys ∧ under.Sound ∧
        ∀ c, c ∈ under ↔ P ys c) :
    ∃ blocks' es', exec (Store.answer st) (Mst.unstoredUnder unstored blocks es) S =
        (.ok (blocks', es'), S) ∧ Covers R ℓ es' xs ∧
      es'.map Entry.isTree = es.map Entry.isTree ∧ blocks'.Sound ∧
      ∀ c, c ∈ blocks' ↔ c ∈ blocks ∨ ∃ ys ∈ runs ℓ xs, P ys c := by
  induction blocks, es using Mst.unstoredUnder.induct generalizing xs with
  | case1 blocks =>
    obtain rfl := covers_nil.mp h.covers
    refine ⟨blocks, [], rfl, .nil, rfl, hb, ?_⟩
    simp [runs, group]
  | case2 blocks x rest ih =>
    obtain ⟨zs, rfl, hx, hc⟩ := covers_leaf.mp h.covers
    obtain ⟨blocks', es', he, hc', hk, hs, hm⟩ := ih ⟨hc, (List.isChain_cons.mp h.apart).2⟩ hb
    refine ⟨blocks', .leaf x :: es', ?_, covers_leaf.mpr ⟨zs, rfl, hx, hc'⟩, by simp [hk], hs, ?_⟩
    · simp only [Mst.unstoredUnder, exec_bind, he, exec_pure]
    · rw [runs_cons_of_eq hx]
      exact hm
  | case3 blocks u rest ih =>
    obtain ⟨ys, zs, rfl, hne, hfu, hu, hc⟩ := covers_tree.mp h.covers
    have ha := List.isChain_cons.mp h.apart
    obtain ⟨c, under, u', hx, hu', hsu, hmu⟩ := hr u ys hne hu
    obtain ⟨blocks', es', he, hc', hk, hs, hm⟩ := ih under ⟨hc, ha.2⟩ (hb.merge hsu)
    refine ⟨blocks', .tree u' :: es', ?_,
      covers_tree.mpr ⟨ys, zs, rfl, hne, hfu, hu', hc'⟩, by simp [hk, Entry.isTree], hs, ?_⟩
    · simp only [Mst.unstoredUnder, exec_bind, hx, he, exec_pure]
    · intro c
      have hg : (group ℓ zs).1 = [] :=
        hc.group_fst fun e hm => (ha.1 e hm).resolve_left (by simp [Entry.isTree])
      rw [hm, BlockMap.mem_merge, hmu, runs_append_of_under hfu hne hg, List.exists_mem_cons_iff,
        or_assoc]

end

/-! ## Reading a node in -/

variable [LawfulCodec Cid]

/-- A node just read in stands for the leaves it was stored with, and its subtrees are unread. -/
theorem shows_lazyEntries (hk : WellKeyed xs) (hf : Fits ℓ xs) (hs : Stored st ℓ xs)
    (hu : Unseen S ℓ xs) :
    Shows (RepUnder st (cidAt ℓ xs :: S) ℓ) ℓ (lazyEntries (childAt ℓ)
      (((nodeAt ℓ xs).e.head?.map fun entry => leadingZeros Cid entry.k).bind
        fun layer => if layer = 0 then none else some (layer - 1)) (group ℓ xs)) xs := by
  refine ⟨?_, isChain_lazyEntries _ _ _⟩
  conv_rhs => rw [← flat_group ℓ xs]
  refine covers_lazyEntries (fun p hp => group_leaf_zeros hp) fun ys hy => ?_
  by_cases hn : ys = []
  · subst hn
    simp [lazyRun, Mst.toEntries, covers_nil]
  · have hm := mem_runs.mpr ⟨hn, hy⟩
    have hfu := fitsUnder_of_mem_runs hf hm
    obtain ⟨k, rfl, hfk, hc⟩ := childAt_of_mem_runs hf hm
    have hsub := sublist_of_mem_runs hm
    rw [lazyRun, hc]
    refine covers_tree.mpr ⟨ys, [], (List.append_nil ys).symm, hn, hfu, ?_, .nil⟩
    refine rep_iff.mpr ⟨hk.sublist hsub, hfk, ?_, Or.inr rfl, by simp [Mst.entries?], ?_⟩
    · rcases head_nodeAt (k + 1) xs with hl | hl <;> simp [Mst.layer?, hl]
    · intro _
      refine ⟨rfl, fun p hp => hs p ?_, fun p hp => ?_⟩
      · exact mem_nodesOf_succ.mpr (Or.inr ⟨ys, hm, hp⟩)
      · have hpu := hu p (mem_nodesOf_succ.mpr (Or.inr ⟨ys, hm, hp⟩))
        obtain ⟨h1, h2, h3, h4⟩ := of_mem_nodesOf hfk hp
        refine List.not_mem_cons_of_ne_of_not_mem (fun he => ?_) hpu
        have hpn : p.2 ≠ [] := by
          intro hp2
          have hpe := h4 hp2
          rw [hpe] at hp2
          exact hn hp2
        obtain ⟨hl, -⟩ := cidAt_inj (hk.sublist (h2.trans hsub)) hk h3 hf hpn he
        omega

variable [DecidableEq Cid]

theorem exec_fill (h : Rep st S ℓ t xs) : ∃ es S',
    exec (Store.answer st) t.fill S = (.ok (t.withEntries es), S') ∧
      Shows (RepUnder st S' ℓ) ℓ es xs ∧ Grows xs S S' := by
  obtain ⟨entries, layer, pointer⟩ := t
  have hn := rep_iff.mp h
  cases entries with
  | some es => exact ⟨es, S, rfl, hn.loaded es rfl, Grows.refl xs S⟩
  | none =>
    obtain ⟨hp, hs, hu⟩ := hn.unread rfl
    obtain rfl : pointer = some (cidAt ℓ xs) := hp
    have hseen : cidAt ℓ xs ∉ S := hu (ℓ, xs) (self_mem_nodesOf ℓ xs)
    have hblock : st (cidAt ℓ xs) = some (blockAt ℓ xs) := hs (ℓ, xs) (self_mem_nodesOf ℓ xs)
    have hdec : decodeNode (blockAt ℓ xs) = .ok (nodeAt ℓ xs) :=
      decodeNode_encode (encode_nodeAt hn.keyed)
    have hdes : Mst.deserialize (nodeAt ℓ xs)
        ((nodeAt ℓ xs).e.head?.map fun entry => leadingZeros Cid entry.k) = _ :=
      deserialize_nodeOf hn.keyed.valid
    refine ⟨_, cidAt ℓ xs :: S, ?_, shows_lazyEntries hn.keyed hn.fits hs hu, Grows.cons hn.fits⟩
    simp only [Mst.fill, Mst.entries?, Mst.pointer?, Reader.node, Reader.block, exec_bind, exec_get,
      hseen, if_false, exec_set, exec_ask, Store.answer_get, hblock, hdec, exec_ofExcept_ok, hdes,
      exec_pure]

theorem exec_entries (h : Rep st S ℓ t xs) : ∃ es S',
    exec (Store.answer st) t.entries S = (.ok (es, t.withEntries es), S') ∧
      Shows (RepUnder st S' ℓ) ℓ es xs ∧ Grows xs S S' := by
  obtain ⟨es, S', he, hs, hg⟩ := exec_fill h
  refine ⟨es, S', ?_, hs, hg⟩
  obtain ⟨entries, layer, pointer⟩ := t
  simp only [Mst.entries, exec_bind, he, Mst.withEntries, Mst.entries?, exec_pure]

/-! ## The layer of a node -/

theorem exec_findLayer {depth : ℕ} (h : Rep st S ℓ t xs) (hd : ℓ < depth) :
    ∃ t' S', exec (Store.answer st) (Mst.findLayer depth t) S = (.ok (t'.layer?, t'), S') ∧
      Rep st S' ℓ t' xs ∧ Grows xs S S' ∧ t'.layer? = if xs = [] then t.layer? else some ℓ := by
  induction depth generalizing ℓ t xs S with
  | zero => exact absurd hd (Nat.not_lt_zero ℓ)
  | succ depth ih =>
    have hn := rep_iff.mp h
    cases hl : t.layer? with
    | some m =>
      obtain rfl : m = ℓ := by simpa [hl] using hn.layer
      refine ⟨t, S, ?_, h, Grows.refl xs S, by simp [hl]⟩
      simp only [Mst.findLayer, hl, exec_pure]
    | none =>
      obtain ⟨es, S', he, hs, hg⟩ := exec_entries h
      have hw := h.withEntries hs
      rcases leafLayer_of_covers hs.covers with hleaf | ⟨hleaf, htrees⟩
      · -- The first leaf of the node gives the layer.
        have hxs : xs ≠ [] := by
          rw [Ne, hs.covers.eq_nil_iff]
          rintro rfl
          cases hleaf
        refine ⟨(t.withEntries es).withLayer (some ℓ), S', ?_, hw.withLayer (Or.inr rfl), hg, ?_⟩
        · simp only [Mst.findLayer, hl, exec_bind, he, hleaf, exec_pure]
          cases t
          rfl
        · cases t
          simp [Mst.withEntries, Mst.withLayer, Mst.layer?, hxs]
      · rcases eq_singleton_of_all_trees hs htrees with rfl | ⟨u, rfl⟩
        · have hxs : xs = [] := hs.covers.eq_nil_iff.mpr rfl
          refine ⟨(t.withEntries []).withLayer none, S', ?_, hw.withLayer (Or.inl rfl), hg, ?_⟩
          · simp only [Mst.findLayer, hl, exec_bind, he, hleaf, Mst.layerUnder, exec_pure]
            cases t
            rfl
          · cases t
            simp [Mst.withEntries, Mst.withLayer, Mst.layer?, hxs]
        · -- A lone pointer is one layer above the node it points at.
          obtain ⟨ys, zs, rfl, hne, hfu, hu, hz⟩ := covers_tree.mp hs.covers
          obtain rfl := covers_nil.mp hz
          cases ℓ with
          | zero => exact hu.elim
          | succ k =>
            obtain ⟨u', S'', hx, hu', hg', hlu⟩ := ih (S := S') hu (Nat.lt_of_succ_lt_succ hd)
            rw [if_neg hne] at hlu
            have hs' : Shows (RepUnder st S'' (k + 1)) (k + 1) [.tree u'] (ys ++ []) :=
              hs.of_kinds (covers_tree.mpr ⟨ys, [], rfl, hne, hfu, hu', .nil⟩) rfl
            refine ⟨(t.withEntries [.tree u']).withLayer (some (k + 1)), S'', ?_,
              (h.withEntries hs').withLayer (Or.inr rfl), ?_, ?_⟩
            · simp only [Mst.findLayer, hl, exec_bind, he, hleaf, Mst.layerUnder, hx, hlu,
                exec_pure]
              cases t
              rfl
            · rw [List.append_nil] at hg ⊢
              exact hg.trans hg'
            · cases t
              simp [Mst.withEntries, Mst.withLayer, Mst.layer?, hne]

theorem exec_layer {depth : ℕ} (h : Rep st S ℓ t xs) (hd : ℓ < depth) : ∃ t' S',
    exec (Store.answer st) (Mst.layer depth t) S = (.ok (layerOf t ℓ xs, t'), S') ∧
      Rep st S' (layerOf t ℓ xs) t' xs ∧ Grows xs S S' ∧ t'.layer? = some (layerOf t ℓ xs) := by
  obtain ⟨t', S', he, ht, hg, hl⟩ := exec_findLayer h hd
  have hlayer : t'.layer?.getD 0 = layerOf t ℓ xs := by
    rw [hl, layerOf]
    split_ifs <;> rfl
  refine ⟨t'.withLayer (some (layerOf t ℓ xs)), S', ?_, ?_, hg, ?_⟩
  · simp only [Mst.layer, exec_bind, he, hlayer, exec_pure]
  · by_cases hx : xs = []
    · subst hx
      have ht0 := ht.withLayer (Or.inl rfl : none = none ∨ _)
      have ht' : Rep st S' (layerOf t ℓ []) (t'.withLayer none) [] :=
        ht0.of_nil (Or.inl (by cases t'; rfl))
      have hw := ht'.withLayer (Or.inr rfl)
      cases t'
      exact hw
    · have hℓ : layerOf t ℓ xs = ℓ := if_neg hx
      rw [hℓ]
      exact ht.withLayer (Or.inr rfl)
  · cases t'
    rfl

/-! ## Hashing -/

/-- Hashing reads nothing: what is unread has its CID, and what has no CID is in memory. -/
theorem exec_rootIn {depth : ℕ} (h : Rep st S ℓ t xs) (hd : ℓ < depth) : ∃ t',
    exec (Store.answer st) (Mst.rootIn depth t) S = (.ok (cidAt ℓ xs, t'), S) ∧
      Rep st S ℓ t' xs ∧ t'.pointer? = some (cidAt ℓ xs) ∧ t'.layer? = t.layer? ∧
      t'.entries?.isSome = t.entries?.isSome := by
  induction depth generalizing ℓ t xs with
  | zero => exact absurd hd (Nat.not_lt_zero ℓ)
  | succ depth ih =>
    have hn := rep_iff.mp h
    obtain ⟨entries, layer, pointer⟩ := t
    cases pointer with
    | some c =>
      obtain rfl : c = cidAt ℓ xs := by simpa [Mst.pointer?] using hn.pointer
      refine ⟨.mk entries layer (some (cidAt ℓ xs)), ?_, h, rfl, rfl, rfl⟩
      simp only [Mst.rootIn, Mst.pointer?, exec_pure]
    | none =>
      cases entries with
      | none => cases (hn.unread rfl).1
      | some es =>
        obtain ⟨es', he, hs⟩ := exec_nodeData h fun k u ys hk hu => by
          obtain ⟨u', hx, hu', -⟩ := ih hu (by omega)
          exact ⟨u', hx, hu'⟩
        have henc : encode (nodeAt ℓ xs).toIpld = .ok (blockAt ℓ xs) := encode_nodeAt hn.keyed
        refine ⟨.mk (some es') layer (some (cidAt ℓ xs)), ?_,
          rep_mk hn.keyed hs hn.layer (Or.inr rfl), rfl, rfl, rfl⟩
        simp only [Mst.rootIn, Mst.pointer?, exec_bind, he, henc, exec_ofExcept_ok, exec_pure]
        rfl

/-! ## What is yet to be stored -/

/-- A store that holds a node holds every node under it. -/
def Closed (st : Cid → Option Bytes) : Prop :=
  ∀ ℓ xs, WellKeyed xs → Fits ℓ xs → (st (cidAt ℓ xs)).isSome → Stored st ℓ xs

/-- The blocks to write are the nodes of the tree the store does not hold. -/
theorem exec_unstoredBlocksIn {depth : ℕ} (h : Rep st S ℓ t xs) (hst : Closed st)
    (hd : ℓ + 1 < depth) : ∃ blocks t',
    exec (Store.answer st) (Mst.unstoredBlocksIn depth t) S =
        (.ok ((cidAt ℓ xs, blocks), t'), S) ∧
      Rep st S ℓ t' xs ∧ blocks.Sound ∧
      ∀ c, c ∈ blocks ↔ st c = none ∧ ∃ p ∈ nodesOf ℓ xs, c = cidAt p.1 p.2 := by
  induction depth generalizing ℓ t xs with
  | zero => exact absurd hd (Nat.not_lt_zero _)
  | succ depth ih =>
    obtain ⟨t', hroot, ht, hp, -, -⟩ := exec_rootIn h (Nat.lt_of_succ_lt_succ hd)
    have hn := rep_iff.mp ht
    cases hc : st (cidAt ℓ xs) with
    | some b =>
      have hs := hst ℓ xs hn.keyed hn.fits (by simp [hc])
      refine ⟨∅, t', ?_, ht, BlockMap.Sound.empty, fun c => ?_⟩
      · simp only [Mst.unstoredBlocksIn, exec_bind, hroot, Reader.contains, exec_ask,
          Store.answer_contains, hc, Option.isSome_some, if_true, exec_pure]
      · simp only [AList.notMem_empty, false_iff, not_and, not_exists]
        rintro hnone p hp rfl
        simp [hs p hp] at hnone
    | none =>
      obtain ⟨entries, layer, pointer⟩ := t'
      cases entries with
      | none =>
        have hs := (hn.unread rfl).2.1 (ℓ, xs) (self_mem_nodesOf ℓ xs)
        simp [hc] at hs
      | some es =>
        have hr : ∀ k u ys, ℓ = k + 1 → Rep st S k u ys → ∃ u',
            exec (Store.answer st) (Mst.rootIn depth u) S = (.ok (cidAt k ys, u'), S) ∧
              Rep st S k u' ys := by
          intro k u ys hk hu
          obtain ⟨u', hx, hu', -⟩ := exec_rootIn hu (by omega : k < depth)
          exact ⟨u', hx, hu'⟩
        obtain ⟨es', he, hs⟩ := exec_nodeData ht hr
        have henc : encode (nodeAt ℓ xs).toIpld = .ok (blockAt ℓ xs) := encode_nodeAt hn.keyed
        have hadd : BlockMap.add (∅ : BlockMap Cid) (nodeAt ℓ xs).toIpld =
            .ok (cidAt ℓ xs, AList.insert (cidAt ℓ xs) (blockAt ℓ xs) ∅) := by
          rw [BlockMap.add, henc]
          rfl
        have hr' : ∀ u ys, ys ≠ [] → RepUnder st S ℓ u ys → ∃ c under u',
            exec (Store.answer st) (Mst.unstoredBlocksIn depth u) S = (.ok ((c, under), u'), S) ∧
              RepUnder st S ℓ u' ys ∧ under.Sound ∧ ∀ c, c ∈ under ↔
                st c = none ∧ ∃ p ∈ nodesOf (ℓ - 1) ys, c = cidAt p.1 p.2 := by
          intro u ys hne hu
          obtain ⟨k, rfl, -, hrep⟩ := childAt_of_repUnder hne hu
          obtain ⟨under, u', hx, hu', hsound, hm⟩ := ih hrep (by omega)
          exact ⟨_, under, u', hx, hu', hsound, hm⟩
        obtain ⟨blocks, es'', hx, hc'', hk, hsound, hm⟩ :=
          exec_unstoredUnder hs (BlockMap.Sound.empty.insert (blockAt ℓ xs)) hr'
        refine ⟨blocks, .mk (some es'') layer pointer, ?_,
          rep_mk hn.keyed (hs.of_kinds hc'' hk) hn.layer hn.pointer, hsound, fun c => ?_⟩
        · rw [← cidAt] at hx
          simp only [Mst.unstoredBlocksIn, exec_bind, hroot, Reader.contains, exec_ask,
            Store.answer_contains, hc, Option.isSome_none, Bool.false_eq_true, if_false, he, hadd,
            exec_ofExcept_ok, Mst.entries, Mst.fill, Mst.entries?, exec_pure, hx]
          rfl
        · rw [hm, AList.mem_insert]
          simp only [AList.notMem_empty, or_false, mem_nodesOf hn.fits]
          constructor
          · rintro (rfl | ⟨ys, hy, hnone, p, hp, rfl⟩)
            · exact ⟨hc, (ℓ, xs), Or.inl rfl, rfl⟩
            · exact ⟨hnone, p, Or.inr ⟨ys, hy, hp⟩, rfl⟩
          · rintro ⟨hnone, p, rfl | ⟨ys, hy, hp⟩, rfl⟩
            · exact Or.inl rfl
            · exact Or.inr ⟨ys, hy, hnone, p, hp, rfl⟩

end Manapds
