import Manapds.Repo.Reading

/-!
# Finding a key

Every operation on a key goes by where the key stands among the entries of a node: at a leaf, inside
a subtree, or in a gap between entries. `Located` says which, with what the entries on either side
stand for; a lookup and a listing follow it down.
-/

namespace Manapds

open KeyedList Shape QueryProgram Routine

variable {Cid : Type}

theorem position_split (es : List (Entry Cid)) (key : Str) :
    ∃ pre post, es = pre ++ post ∧ Mst.position es key = pre.length ∧
      (∀ x, Entry.leaf x ∈ pre → x.key < key) ∧
      ∀ e ∈ post.head?, ∃ x, e = .leaf x ∧ key ≤ x.key := by
  induction es with
  | nil => exact ⟨[], [], rfl, rfl, by simp, by simp⟩
  | cons e es ih =>
    obtain ⟨pre, post, rfl, hp, hpre, hpost⟩ := ih
    cases e with
    | tree u =>
      refine ⟨.tree u :: pre, post, rfl, ?_, by simpa using hpre, hpost⟩
      simpa [Mst.position, List.findIdx_cons] using hp
    | leaf x =>
      by_cases hx : key ≤ x.key
      · refine ⟨[], .leaf x :: (pre ++ post), rfl, ?_, by simp, ?_⟩
        · simp [Mst.position, List.findIdx_cons, hx]
        · rintro e ⟨⟩
          exact ⟨x, rfl, hx⟩
      · refine ⟨.leaf x :: pre, post, rfl, ?_, ?_, hpost⟩
        · simpa [Mst.position, List.findIdx_cons, hx] using hp
        · intro y hy
          rcases List.mem_cons.mp hy with hy | hy
          · cases hy
            exact lt_of_not_ge hx
          · exact hpre y hy

theorem set_length {α : Type} (pre post : List α) (a b : α) :
    (pre ++ a :: post).set pre.length b = pre ++ b :: post := by
  simp

theorem leafAt_length (pre post : List (Entry Cid)) (x : Leaf Cid) :
    Mst.leafAt (pre ++ .leaf x :: post) pre.length x.key = some x.value := by
  simp [Mst.leafAt]

theorem treeBefore_length (pre post : List (Entry Cid)) (u : Mst Cid) :
    Mst.treeBefore (pre ++ .tree u :: post) (pre.length + 1) = some (pre.length, u) := by
  simp [Mst.treeBefore]

theorem leafAt_append {pre post : List (Entry Cid)} {key : Str}
    (hpost : ∀ e ∈ post.head?, ∃ x, e = Entry.leaf x ∧ key < x.key) :
    Mst.leafAt (pre ++ post) pre.length key = none := by
  cases post with
  | nil => simp [Mst.leafAt]
  | cons e post =>
    obtain ⟨x, rfl, hx⟩ := hpost e rfl
    simp [Mst.leafAt, hx.ne']

variable [Codec Cid]

/-- Where a key stands among the entries of a node. -/
inductive Located (R : Mst Cid → List (Leaf Cid) → Prop) (ℓ : ℕ) (key : Str) :
    List (Entry Cid) → List (Leaf Cid) → Prop where
  | leaf {pre post : List (Entry Cid)} {xpre xpost : List (Leaf Cid)} {value : Cid}
      (hpre : Shows R ℓ pre xpre) (hpost : Shows R ℓ post xpost)
      (hz : (⟨key, value⟩ : Leaf Cid).zeros = ℓ)
      (hi : Mst.position (pre ++ .leaf ⟨key, value⟩ :: post) key = pre.length)
      (hbelow : ∀ x ∈ xpre, x.key < key) (habove : ∀ x ∈ xpost, key < x.key) :
      Located R ℓ key (pre ++ .leaf ⟨key, value⟩ :: post) (xpre ++ ⟨key, value⟩ :: xpost)
  | tree {pre post : List (Entry Cid)} {xpre ys xpost : List (Leaf Cid)} {u : Mst Cid}
      (hpre : Shows R ℓ pre xpre) (hpost : Shows R ℓ post xpost) (hne : ys ≠ [])
      (hfu : FitsUnder ℓ ys) (hu : R u ys)
      (hi : Mst.position (pre ++ .tree u :: post) key = pre.length + 1)
      (hleaf : Mst.leafAt (pre ++ .tree u :: post) (pre.length + 1) key = none)
      (hlast : ∀ e ∈ pre.getLast?, e.isTree = false) (hhead : ∀ e ∈ post.head?, e.isTree = false)
      (hbelow : ∀ x ∈ xpre, x.key < key) (habove : ∀ x ∈ xpost, key < x.key) :
      Located R ℓ key (pre ++ .tree u :: post) (xpre ++ (ys ++ xpost))
  | gap {pre post : List (Entry Cid)} {xpre xpost : List (Leaf Cid)}
      (hpre : Shows R ℓ pre xpre) (hpost : Shows R ℓ post xpost)
      (hi : Mst.position (pre ++ post) key = pre.length)
      (hleaf : Mst.leafAt (pre ++ post) pre.length key = none)
      (htree : Mst.treeBefore (pre ++ post) pre.length = none)
      (hlast : ∀ e ∈ pre.getLast?, e.isTree = false) (hhead : ∀ e ∈ post.head?, e.isTree = false)
      (hbelow : ∀ x ∈ xpre, x.key < key) (habove : ∀ x ∈ xpost, key < x.key) :
      Located R ℓ key (pre ++ post) (xpre ++ xpost)

variable {R : Mst Cid → List (Leaf Cid) → Prop} {ℓ : ℕ} {es : List (Entry Cid)}
  {xs : List (Leaf Cid)} {key : Str}

/-- Up to a leaf below the key, everything is below the key. -/
theorem Covers.lt_of_last {pre : List (Entry Cid)} (h : Covers R ℓ pre xs) (hk : WellKeyed xs)
    (hpre : ∀ x, Entry.leaf x ∈ pre → x.key < key) (hlast : ∀ e ∈ pre.getLast?, e.isTree = false) :
    ∀ x ∈ xs, x.key < key := by
  rcases List.eq_nil_or_concat' pre with rfl | ⟨init, e, rfl⟩
  · obtain rfl := covers_nil.mp h
    simp
  · cases e with
    | tree u => exact absurd (hlast (.tree u) (by simp)) (by simp [Entry.isTree])
    | leaf y =>
      obtain ⟨ys, zs, rfl, -, hz⟩ := covers_append.mp h
      obtain ⟨ws, rfl, -, hw⟩ := covers_leaf.mp hz
      obtain rfl := covers_nil.mp hw
      have hy := hpre y (by simp)
      intro x hx
      rcases List.mem_append.mp hx with hx | hx
      · exact (hk.lt hx List.mem_cons_self).trans hy
      · rw [List.mem_singleton.mp hx]
        exact hy

/-- From a leaf above the key on, everything is above the key. -/
theorem Covers.gt_of_head {post : List (Entry Cid)} (h : Covers R ℓ post xs) (hk : WellKeyed xs)
    (hpost : ∀ e ∈ post.head?, ∃ x, e = .leaf x ∧ key < x.key) : ∀ x ∈ xs, key < x.key := by
  cases h with
  | nil => simp
  | @cons e es ys zs he h =>
    obtain ⟨y, rfl, hy⟩ := hpost e rfl
    obtain ⟨rfl, -⟩ := he
    intro x hx
    rcases List.mem_append.mp hx with hx' | hx'
    · rw [List.mem_singleton.mp hx']
      exact hy
    · exact hy.trans (hk.lt List.mem_cons_self hx')

theorem Shows.locate (h : Shows R ℓ es xs) (hk : WellKeyed xs) (key : Str) :
    Located R ℓ key es xs := by
  obtain ⟨pre, post, rfl, hi, hpre, hpost⟩ := position_split es key
  obtain ⟨xpre, xpost, rfl, hcpre, hcpost⟩ := covers_append.mp h.covers
  have ha := List.isChain_append.mp h.apart
  by_cases hfound : ∃ x rest, post = .leaf x :: rest ∧ x.key = key
  · obtain ⟨⟨_, value⟩, rest, rfl, rfl⟩ := hfound
    obtain ⟨zs, rfl, hz, hc⟩ := covers_leaf.mp hcpost
    obtain ⟨hbelow, habove⟩ := hk.ordered.around
    exact .leaf ⟨hcpre, ha.1⟩ ⟨hc, (List.isChain_cons.mp ha.2.1).2⟩ hz hi hbelow habove
  · have hpost' : ∀ e ∈ post.head?, ∃ x, e = .leaf x ∧ key < x.key := by
      intro e he
      obtain ⟨x, rfl, hx⟩ := hpost e he
      obtain ⟨rest, rfl⟩ := List.head?_eq_some_iff.mp he
      exact ⟨x, rfl, lt_of_le_of_ne hx fun hn => hfound ⟨x, rest, rfl, hn.symm⟩⟩
    have habove := hcpost.gt_of_head hk.append_right hpost'
    have hhead : ∀ e ∈ post.head?, e.isTree = false := by
      intro e he
      obtain ⟨x, rfl, -⟩ := hpost' e he
      rfl
    rcases List.eq_nil_or_concat' pre with rfl | ⟨init, e, rfl⟩
    · obtain rfl := covers_nil.mp hcpre
      exact .gap .nil ⟨hcpost, ha.2.1⟩ hi (leafAt_append hpost') rfl (by simp) hhead (by simp) habove
    · cases e with
      | leaf y =>
        have hlast : ∀ e ∈ (init ++ [Entry.leaf y]).getLast?, e.isTree = false := by
          simp [Entry.isTree]
        refine .gap ⟨hcpre, ha.1⟩ ⟨hcpost, ha.2.1⟩ hi (leafAt_append hpost') ?_ hlast hhead
          (hcpre.lt_of_last hk.append_left hpre hlast) habove
        simp [Mst.treeBefore]
      | tree u =>
        obtain ⟨ys, zs, rfl, hci, hz⟩ := covers_append.mp hcpre
        obtain ⟨ws, vs, rfl, hne, hfu, hu, hv⟩ := covers_tree.mp hz
        obtain rfl := covers_nil.mp hv
        have hapart := List.isChain_append.mp ha.1
        have hlast : ∀ e ∈ init.getLast?, e.isTree = false := fun e he =>
          (hapart.2.2 e he (.tree u) rfl).resolve_right (by simp [Entry.isTree])
        have hbelow := hci.lt_of_last hk.append_left.append_left
          (fun x hx => hpre x (List.mem_append_left _ hx)) hlast
        have hleaf : Mst.leafAt (init ++ [.tree u] ++ post) (init ++ [Entry.tree u]).length key =
            none := leafAt_append hpost'
        rw [List.append_assoc] at hi hleaf ⊢
        rw [List.append_nil, List.append_assoc]
        rw [List.length_append, List.length_singleton] at hi hleaf
        exact .tree ⟨hci, hapart.1⟩ ⟨hcpost, ha.2.1⟩ hne hfu hu hi hleaf hlast hhead hbelow habove

/-! ## Lookups -/

section

variable [LawfulCodec Cid] {st : Cid → Option Bytes} {S S' : List Cid} {t : Mst Cid}
  {ys xpre xpost : List (Leaf Cid)}

/-- What stands either side of a subtree a traversal went into. -/
theorem Shows.around {pre post : List (Entry Cid)} (hk : WellKeyed (xpre ++ (ys ++ xpost)))
    (hg : Grows ys S S') (hpre : Shows (RepUnder st S ℓ) ℓ pre xpre)
    (hpost : Shows (RepUnder st S ℓ) ℓ post xpost) :
    Shows (RepUnder st S' ℓ) ℓ pre xpre ∧ Shows (RepUnder st S' ℓ) ℓ post xpost := by
  have hky := hk.append_right.append_left
  refine ⟨hpre.frame hg hky ?_, hpost.frame hg hky fun x hx hy => hk.append_right.disjoint hy hx⟩
  exact fun x hx hy => hk.disjoint hx (List.mem_append_left xpost hy)

theorem exec_leavesUnder {collect : Mst Cid → Reading Cid (List (Leaf Cid) × Mst Cid)}
    (h : Covers (RepUnder st S ℓ) ℓ es xs) (hk : WellKeyed xs)
    (hr : ∀ u ys S, ys ≠ [] → RepUnder st S ℓ u ys → ∃ u' S',
      exec (Store.answer st) (collect u) S = (.ok (ys, u'), S') ∧ RepUnder st S' ℓ u' ys ∧
        Grows ys S S') :
    ∃ es' S', exec (Store.answer st) (Mst.leavesUnder collect es) S = (.ok (xs, es'), S') ∧
      Covers (RepUnder st S' ℓ) ℓ es' xs ∧ es'.map Entry.isTree = es.map Entry.isTree ∧
      Grows xs S S' := by
  induction es generalizing xs S with
  | nil =>
    obtain rfl := covers_nil.mp h
    exact ⟨[], S, rfl, .nil, rfl, Grows.refl [] S⟩
  | cons e es ih =>
    cases e with
    | leaf x =>
      obtain ⟨zs, rfl, hx, hc⟩ := covers_leaf.mp h
      have hkz : WellKeyed zs := hk.sublist (List.sublist_cons_self x zs)
      obtain ⟨es', S', he, hc', hkind, hg⟩ := ih hc hkz
      refine ⟨.leaf x :: es', S', ?_, covers_leaf.mpr ⟨zs, rfl, hx, hc'⟩, by simp [hkind],
        hg.mono (List.sublist_cons_self x zs)⟩
      simp only [Mst.leavesUnder, exec_bind, he, exec_pure]
    | tree u =>
      obtain ⟨ys, zs, rfl, hne, hfu, hu, hc⟩ := covers_tree.mp h
      obtain ⟨u', S', hx, hu', hg⟩ := hr u ys S hne hu
      have hdisj : ys.Disjoint zs := hk.disjoint
      have hcz := hc.frame hg hk.append_left fun x hz hy => hdisj hy hz
      obtain ⟨es', S'', he, hc', hkind, hg'⟩ := ih hcz hk.append_right
      refine ⟨.tree u' :: es', S'', ?_, ?_, by simp [hkind, Entry.isTree], ?_⟩
      · simp only [Mst.leavesUnder, exec_bind, hx, he, exec_pure]
      · exact covers_tree.mpr ⟨ys, zs, rfl, hne, hfu,
          hu'.frame hg' hk.append_right hne hdisj, hc'⟩
      · exact (hg.mono (List.sublist_append_left ys zs)).trans
          (hg'.mono (List.sublist_append_right ys zs))

variable [DecidableEq Cid]

/-- Listing a tree gives the leaves it stands for. -/
theorem exec_collectLeaves {depth : ℕ} (h : Rep st S ℓ t xs) (hd : ℓ < depth) : ∃ t' S',
    exec (Store.answer st) (Mst.collectLeaves depth t) S = (.ok (xs, t'), S') ∧
      Rep st S' ℓ t' xs ∧ Grows xs S S' := by
  induction depth generalizing ℓ t xs S with
  | zero => exact absurd hd (Nat.not_lt_zero ℓ)
  | succ depth ih =>
    obtain ⟨es, S', he, hs, hg⟩ := exec_entries h
    have hr : ∀ u ys S, ys ≠ [] → RepUnder st S ℓ u ys → ∃ u' S',
        exec (Store.answer st) (Mst.collectLeaves depth u) S = (.ok (ys, u'), S') ∧
          RepUnder st S' ℓ u' ys ∧ Grows ys S S' := by
      intro u ys S hne hu
      obtain ⟨k, rfl, -, hrep⟩ := childAt_of_repUnder hne hu
      exact ih hrep (Nat.lt_of_succ_lt_succ hd)
    obtain ⟨es', S'', hx, hc, hk, hg'⟩ := exec_leavesUnder hs.covers h.keyed hr
    refine ⟨(t.withEntries es).withEntries es', S'', ?_,
      (h.withEntries hs).withEntries (hs.of_kinds hc hk), hg.trans hg'⟩
    simp only [Mst.collectLeaves, exec_bind, he, hx, exec_pure]

/-- Looking a key up gives what the leaves hold under it. -/
theorem exec_getIn {depth : ℕ} (h : Rep st S ℓ t xs) (hd : ℓ < depth) (key : Str) : ∃ t' S',
    exec (Store.answer st) (Mst.getIn depth t key) S =
        (.ok ((find Leaf.key key xs).map Leaf.value, t'), S') ∧
      Rep st S' ℓ t' xs ∧ Grows xs S S' := by
  induction depth generalizing ℓ t xs S with
  | zero => exact absurd hd (Nat.not_lt_zero ℓ)
  | succ depth ih =>
    obtain ⟨es, S', he, hs, hg⟩ := exec_entries h
    have hw := h.withEntries hs
    have hk := h.keyed
    cases hs.locate hk key with
    | @leaf pre post xpre xpost value hpre hpost hz hi hbelow habove =>
      refine ⟨_, S', ?_, hw, hg⟩
      have hfind : find Leaf.key key (xpre ++ ⟨key, value⟩ :: xpost) = some ⟨key, value⟩ := by
        rw [find_append_right fun x hx => (hbelow x hx).ne]
        exact find_cons_self rfl
      have hleaf := leafAt_length pre post ⟨key, value⟩
      simp only [Mst.getIn, exec_bind, exec_indexOf he, entries_withEntries, exec_pure, hi, hleaf,
        hfind, Option.map_some]
    | @tree pre post xpre ys xpost u hpre hpost hne hfu hu hi hleaf hlast hhead hbelow
        habove =>
      obtain ⟨k, rfl, -, hrep⟩ := childAt_of_repUnder hne hu
      obtain ⟨u', S'', hx, hu', hg'⟩ := ih hrep (Nat.lt_of_succ_lt_succ hd)
      obtain ⟨hpre', hpost'⟩ := Shows.around hk hg' hpre hpost
      have hfind : find Leaf.key key (xpre ++ (ys ++ xpost)) = find Leaf.key key ys := by
        rw [find_append_right fun x hx => (hbelow x hx).ne,
          find_append_left fun x hx => (habove x hx).ne']
      refine ⟨(t.withEntries _).withEntries (pre ++ .tree u' :: post), S'', ?_,
        hw.withEntries (hpre'.tree hlast hne hfu hu' hpost' hhead), hg.trans hg'.middle⟩
      simp only [Mst.getIn, exec_bind, exec_indexOf he, entries_withEntries, exec_pure, hi, hleaf,
        treeBefore_length, hx, hfind, set_length]
    | @gap pre post xpre xpost hpre hpost hi hleaf htree hlast hhead hbelow habove =>
      refine ⟨_, S', ?_, hw, hg⟩
      have hfind : find Leaf.key key (xpre ++ xpost) = none := by
        rw [find_append_right fun x hx => (hbelow x hx).ne]
        exact find_eq_none.mpr fun x hx => (habove x hx).ne'
      simp only [Mst.getIn, exec_bind, exec_indexOf he, entries_withEntries, exec_pure, hi, hleaf,
        htree, hfind, Option.map_none]

end

end Manapds
