import Manapds.Repo.Halves

/-!
# Editing a tree

Adding, updating and deleting a key give a tree that stands for the leaves with that one edit made,
at the layer the edit leaves it at. A key that is there is not added, and one that is not there is
neither updated nor deleted.
-/

namespace Manapds

open KeyedList Shape QueryProgram Routine

variable {Cid : Type}

theorem insertIdx_length {α : Type} (pre post : List α) (a : α) :
    (pre ++ post).insertIdx pre.length a = pre ++ a :: post := by
  induction pre with
  | nil => simp
  | cons b pre ih => simp [ih]

theorem eraseIdx_length {α : Type} (pre post : List α) (a : α) :
    (pre ++ a :: post).eraseIdx pre.length = pre ++ post := by
  induction pre with
  | nil => rfl
  | cons b pre ih => simp [ih]

theorem getElem?_length_succ {α : Type} (pre post : List α) (a b : α) :
    (pre ++ a :: b :: post)[pre.length + 1]? = some b := by
  rw [List.getElem?_append_right (Nat.le_add_right _ 1), Nat.add_sub_cancel_left]
  rfl

/-- A leaf is taken out from between its neighbors, which are joined where both are subtrees. -/
theorem treesAround_length (pre post : List (Entry Cid)) (x : Leaf Cid) :
    (∃ pre' a b post', pre = pre' ++ [.tree a] ∧ post = .tree b :: post' ∧
      Mst.treesAround (pre ++ .leaf x :: post) pre.length = some (a, b)) ∨
    (((∀ e ∈ pre.getLast?, e.isTree = false) ∨ ∀ e ∈ post.head?, e.isTree = false) ∧
      Mst.treesAround (pre ++ .leaf x :: post) pre.length = none) := by
  rcases List.eq_nil_or_concat' pre with rfl | ⟨pre', e, rfl⟩
  · exact Or.inr ⟨Or.inl (by simp), rfl⟩
  · cases e with
    | leaf y => exact Or.inr ⟨Or.inl (by simp [Entry.isTree]), by simp [Mst.treesAround, Mst.treeBefore]⟩
    | tree a =>
      cases post with
      | nil => exact Or.inr ⟨Or.inr (by simp), by simp [Mst.treesAround, Mst.treeBefore]⟩
      | cons e post =>
        have hbefore : Mst.treeBefore (pre' ++ [.tree a] ++ .leaf x :: e :: post)
            (pre' ++ [Entry.tree a]).length = some (pre'.length, a) := by
          simp [Mst.treeBefore]
        have hnext := getElem?_length_succ (pre' ++ [.tree a]) post (.leaf x) e
        cases e with
        | leaf y =>
          exact Or.inr ⟨Or.inr (by simp [Entry.isTree]), by rw [Mst.treesAround, hbefore, hnext]⟩
        | tree b =>
          exact Or.inl ⟨pre', a, b, post, rfl, rfl, by rw [Mst.treesAround, hbefore, hnext]⟩

variable [Codec Cid] {st : Cid → Option Bytes} {S : List Cid} {ℓ : ℕ} {t : Mst Cid}
  {xs ys : List (Leaf Cid)} {key : Str} {value : Cid}

theorem layerOf_le (h : Rep st S ℓ t xs) : layerOf t ℓ xs ≤ ℓ := by
  unfold layerOf
  split_ifs
  · rcases (rep_iff.mp h).layer with hl | hl <;> simp [hl]
  · exact Nat.le_refl ℓ

variable [DecidableEq Cid] [LawfulCodec Cid]

/-- A leaf above the layer of a tree goes between the halves of the tree. -/
theorem exec_insert_above {depth : ℕ} (h : Rep st S ℓ t xs) (hl : t.layer? = some ℓ)
    (hd : ℓ < depth) (hz : ℓ < (⟨key, value⟩ : Leaf Cid).zeros)
    (hv : (ensureValidKey key : Except (RepoError Cid) Unit) = .ok ()) : ∃ left right S' left' right',
    exec (Store.answer st) (Mst.splitAround depth t key) S = (.ok (left, right), S') ∧
      Mst.raiseBoth ((⟨key, value⟩ : Leaf Cid).zeros - ℓ - 1) left right = .ok (left', right') ∧
      Rep st S' (⟨key, value⟩ : Leaf Cid).zeros
        (Mst.fromEntries (Mst.toEntries left' ++ .leaf ⟨key, value⟩ :: Mst.toEntries right')
          (some (⟨key, value⟩ : Leaf Cid).zeros)) (put Leaf.key ⟨key, value⟩ xs) ∧
      Grows xs S S' := by
  generalize hx : (⟨key, value⟩ : Leaf Cid) = x at hz ⊢
  have hkey : ∀ y ∈ xs, y.key ≠ key := by
    rintro y hy rfl
    have hle : y.zeros ≤ ℓ := h.fits y hy
    have heq : y.zeros = x.zeros := by rw [← hx]; rfl
    omega
  obtain ⟨left, right, S', he, hleft, hright, hg⟩ := exec_splitAround h hd hkey
  rw [hl] at hleft hright
  obtain ⟨left', right', hraise, hleft', hright'⟩ :=
    raiseBoth_repHalf (x.zeros - ℓ - 1) hleft hright
  obtain ⟨k, hk⟩ : ∃ k, x.zeros = k + 1 := ⟨x.zeros - 1, by omega⟩
  have hlayer : ℓ + (x.zeros - ℓ - 1) = k := by omega
  rw [hlayer] at hleft' hright'
  refine ⟨left, right, S', left', right', he, hraise, ?_, hg⟩
  have hxkey : x.key = key := by rw [← hx]
  refine rep_mk (h.keyed.put (hxkey ▸ hv)) ?_ (Or.inr rfl) (Or.inl rfl)
  rw [hk, KeyedList.put, hxkey]
  exact hleft'.shows.leaf hk hright'.shows

/-- Adding a key nothing holds. -/
theorem exec_insert_ok {depth : ℕ} (h : Rep st S ℓ t xs) (hd : ℓ + 1 < depth)
    (hv : (ensureValidKey key : Except (RepoError Cid) Unit) = .ok ())
    (hkey : ∀ y ∈ xs, y.key ≠ key) : ∃ t' S',
    exec (Store.answer st) (Mst.insert depth t key value (leadingZeros Cid key)) S = (.ok t', S') ∧
      Rep st S' (max (layerOf t ℓ xs) (leadingZeros Cid key)) t' (put Leaf.key ⟨key, value⟩ xs) ∧
      Grows xs S S' := by
  induction depth generalizing ℓ t xs S with
  | zero => exact absurd hd (Nat.not_lt_zero _)
  | succ depth ih =>
    obtain ⟨t₁, S₁, e₁, ht₁, g₁, hl₁⟩ := exec_layer h (Nat.lt_of_succ_lt_succ hd)
    have hm : layerOf t ℓ xs < depth := (layerOf_le h).trans_lt (Nat.lt_of_succ_lt_succ hd)
    generalize layerOf t ℓ xs = m at *
    have hk := h.keyed
    have hkput : WellKeyed (put Leaf.key (⟨key, value⟩ : Leaf Cid) xs) := hk.put hv
    rcases lt_or_ge m (leadingZeros Cid key) with hlt | hge
    · obtain ⟨left, right, S₂, left', right', e₂, hraise, hrep, g₂⟩ :=
        exec_insert_above ht₁ hl₁ hm hlt hv
      rw [max_eq_right hlt.le]
      refine ⟨_, S₂, ?_, hrep, g₁.trans g₂⟩
      simp only [Mst.insert, exec_bind, e₁, hlt, if_true, e₂]
      rw [show Mst.raiseBoth (leadingZeros Cid key - m - 1) left right = .ok (left', right') from
        hraise]
      rfl
    · rw [max_eq_left hge]
      obtain ⟨es, S₂, e₂, hs, g₂⟩ := exec_entries ht₁
      have hg := g₁.trans g₂
      have hnlt : ¬ m < leadingZeros Cid key := hge.not_gt
      cases hs.locate hk key with
      | @leaf pre post xpre xpost value' hpre hpost hz hi hbelow habove =>
        exact absurd rfl (hkey ⟨key, value'⟩ (by simp))
      | @tree pre post xpre ys xpost u hpre hpost hne hfu hu hi hleaf hlast hhead hbelow
          habove =>
        rw [put_middle hbelow habove rfl] at hkput ⊢
        rcases hge.lt_or_eq with hlt | heq
        · -- The subtree to the left of the position takes the leaf.
          obtain ⟨k, rfl, -, hrep⟩ := childAt_of_repUnder hne hu
          obtain ⟨grown, S₃, e₃, hgrown, g₃⟩ := ih hrep (by omega) fun y hy => hkey y (by simp [hy])
          rw [layerOf_of_ne u k hne, max_eq_left (by omega)] at hgrown
          obtain ⟨hpre', hpost'⟩ := Shows.around hk g₃ hpre hpost
          refine ⟨_, S₃, ?_, rep_mk hkput (hpre'.tree hlast ?_ ?_ hgrown hpost' hhead) (Or.inr rfl)
            (Or.inl rfl), hg.trans g₃.middle⟩
          · simp only [Mst.insert, exec_bind, e₁, hnlt, if_false, exec_indexOf e₂,
              takeEntries_withEntries, exec_pure, hlt, if_true, hi, treeBefore_length, e₃, set_length]
            rfl
          · simp [KeyedList.put]
          · exact fun x hx => Nat.lt_succ_of_le (hgrown.fits x hx)
        · -- The subtree spans the key, so its halves go either side of the leaf.
          obtain ⟨k, rfl, -, hrep⟩ := childAt_of_repUnder hne hu
          obtain ⟨left, right, S₃, e₃, hleft, hright, g₃⟩ :=
            exec_splitAround hrep (by omega : k < depth) fun y hy => hkey y (by simp [hy])
          obtain ⟨hpre', hpost'⟩ := Shows.around hk g₃ hpre hpost
          have hsl := hpre'.append hleft.shows (Or.inl hlast)
          have hsr := hright.shows.append hpost' (Or.inr hhead)
          have hz : (⟨key, value⟩ : Leaf Cid).zeros = k + 1 := heq
          have hs' := hsl.leaf hz hsr
          refine ⟨Mst.fromEntries (pre ++ (Mst.toEntries left ++ .leaf ⟨key, value⟩ ::
            Mst.toEntries right) ++ post) (some (k + 1)), S₃, ?_,
            rep_mk hkput ?_ (Or.inr rfl) (Or.inl rfl), hg.trans g₃.middle⟩
          · simp only [Mst.insert, exec_bind, e₁, if_false, exec_indexOf e₂,
              takeEntries_withEntries, exec_pure, heq, lt_irrefl, hi, hleaf, treeBefore_length, e₃,
              List.take_left, drop_length_succ]
          · simpa [KeyedList.put] using hs'
      | @gap pre post xpre xpost hpre hpost hi hleaf htree hlast hhead hbelow habove =>
        rw [put_between hbelow habove rfl] at hkput ⊢
        rcases hge.lt_or_eq with hlt | heq
        · -- A subtree is made for the leaf to go under.
          obtain ⟨k, rfl⟩ : ∃ k, m = k + 1 := ⟨m - 1, by omega⟩
          have hempty : Rep st S₂ k (Mst.fromEntries [] (some k)) [] :=
            rep_mk WellKeyed.nil .nil (Or.inr rfl) (Or.inl rfl)
          obtain ⟨grown, S₃, e₃, hgrown, g₃⟩ := ih hempty (by omega) (by simp)
          have hmax : max (layerOf (Mst.fromEntries [] (some k)) k ([] : List (Leaf Cid)))
              (leadingZeros Cid key) = k := max_eq_left (Nat.lt_succ_iff.mp hlt)
          rw [hmax] at hgrown
          have hnil : WellKeyed ([] : List (Leaf Cid)) := WellKeyed.nil
          have hpre' := hpre.frame g₃ hnil (by simp)
          have hpost' := hpost.frame g₃ hnil (by simp)
          refine ⟨_, S₃, ?_, rep_mk hkput (hpre'.tree hlast (by simp) ?_ hgrown hpost' hhead)
            (Or.inr rfl) (Or.inl rfl), hg.trans (g₃.mono (List.nil_sublist _))⟩
          · simp only [Mst.insert, exec_bind, e₁, hnlt, if_false, exec_indexOf e₂,
              takeEntries_withEntries, exec_pure, hlt, if_true, hi, htree, Nat.add_sub_cancel, e₃,
              insertIdx_length]
            rfl
          · exact fun x hx => Nat.lt_succ_of_le (hgrown.fits x hx)
        · refine ⟨_, S₂, ?_, rep_mk hkput (hpre.leaf heq hpost) (Or.inr rfl) (Or.inl rfl), hg⟩
          simp only [Mst.insert, exec_bind, e₁, if_false, exec_indexOf e₂,
            takeEntries_withEntries, exec_pure, heq, lt_irrefl, hi, hleaf, htree, insertIdx_length]
          rfl

/-- Adding a key that is taken. -/
theorem exec_insert_exists {depth : ℕ} (h : Rep st S ℓ t xs) (hd : ℓ + 1 < depth)
    (hkey : ∃ y ∈ xs, y.key = key) : ∃ S',
    exec (Store.answer st) (Mst.insert depth t key value (leadingZeros Cid key)) S =
      (.error (.keyExists key), S') := by
  induction depth generalizing ℓ t xs S with
  | zero => exact absurd hd (Nat.not_lt_zero _)
  | succ depth ih =>
    obtain ⟨t₁, S₁, e₁, ht₁, -, -⟩ := exec_layer h (Nat.lt_of_succ_lt_succ hd)
    have hm : layerOf t ℓ xs < depth := (layerOf_le h).trans_lt (Nat.lt_of_succ_lt_succ hd)
    generalize layerOf t ℓ xs = m at *
    obtain ⟨y, hy, rfl⟩ := hkey
    have hge : leadingZeros Cid y.key ≤ m := ht₁.fits y hy
    have hnlt : ¬ m < leadingZeros Cid y.key := hge.not_gt
    obtain ⟨es, S₂, e₂, hs, -⟩ := exec_entries ht₁
    cases hs.locate h.keyed y.key with
    | @leaf pre post xpre xpost value' hpre hpost hz hi hbelow habove =>
      have hz' : leadingZeros Cid y.key = m := hz
      have hleaf : Mst.leafAt (pre ++ .leaf ⟨y.key, value'⟩ :: post) pre.length y.key =
        some value' := leafAt_length pre post ⟨y.key, value'⟩
      refine ⟨S₂, ?_⟩
      simp only [Mst.insert, exec_bind, e₁, hz', lt_irrefl, if_false, exec_indexOf e₂,
        takeEntries_withEntries, exec_pure, hi, hleaf, exec_throw]
    | @tree pre post xpre ys xpost u hpre hpost hne hfu hu hi hleaf hlast hhead hbelow habove =>
      have hyy : y ∈ ys := by
        rcases List.mem_append.mp hy with hy | hy
        · exact absurd rfl (hbelow y hy).ne
        · exact (List.mem_append.mp hy).resolve_right fun hy => (habove y hy).ne rfl
      have hlt : leadingZeros Cid y.key < m := hfu y hyy
      obtain ⟨k, rfl, -, hrep⟩ := childAt_of_repUnder hne hu
      obtain ⟨S₃, e₃⟩ := ih hrep (by omega) ⟨y, hyy, rfl⟩
      refine ⟨S₃, ?_⟩
      simp only [Mst.insert, exec_bind, e₁, hnlt, if_false, exec_indexOf e₂,
        takeEntries_withEntries, exec_pure, hlt, if_true, hi, treeBefore_length, e₃]
    | @gap pre post xpre xpost hpre hpost hi hleaf htree hlast hhead hbelow habove =>
      rcases List.mem_append.mp hy with hy | hy
      · exact absurd rfl (hbelow y hy).ne
      · exact absurd rfl (habove y hy).ne

/-- Pointing a key at another record. -/
theorem exec_updateIn {depth : ℕ} (h : Rep st S ℓ t xs) (hd : ℓ < depth)
    (hv : (ensureValidKey key : Except (RepoError Cid) Unit) = .ok ()) :
    ((∃ y ∈ xs, y.key = key) → ∃ t' S',
      exec (Store.answer st) (Mst.updateIn depth t key value) S = (.ok t', S') ∧
        Rep st S' ℓ t' (put Leaf.key ⟨key, value⟩ xs) ∧ Grows xs S S') ∧
    ((∀ y ∈ xs, y.key ≠ key) → ∃ S',
      exec (Store.answer st) (Mst.updateIn depth t key value) S = (.error (.keyMissing key), S')) := by
  induction depth generalizing ℓ t xs S with
  | zero => exact absurd hd (Nat.not_lt_zero _)
  | succ depth ih =>
    obtain ⟨es, S₁, e₁, hs, g₁⟩ := exec_entries h
    have hk := h.keyed
    have hkput : WellKeyed (put Leaf.key (⟨key, value⟩ : Leaf Cid) xs) := hk.put hv
    have hlayer := (rep_iff.mp h).layer
    cases hs.locate hk key with
    | @leaf pre post xpre xpost value' hpre hpost hz hi hbelow habove =>
      have hleaf : Mst.leafAt (pre ++ .leaf ⟨key, value'⟩ :: post) pre.length key = some value' :=
        leafAt_length pre post ⟨key, value'⟩
      rw [put_at hbelow habove rfl rfl] at hkput ⊢
      refine ⟨fun _ => ⟨_, S₁, ?_, rep_mk hkput (hpre.leaf hz hpost) hlayer (Or.inl rfl), g₁⟩,
        fun hn => absurd rfl (hn ⟨key, value'⟩ (by simp))⟩
      simp only [Mst.updateIn, hv, exec_ofExcept_ok, exec_bind, exec_indexOf e₁,
        takeEntries_withEntries, exec_pure, hi, hleaf, layer?_withEntries, set_length]
      rfl
    | @tree pre post xpre ys xpost u hpre hpost hne hfu hu hi hleaf hlast hhead hbelow habove =>
      obtain ⟨k, rfl, -, hrep⟩ := childAt_of_repUnder hne hu
      obtain ⟨hok, herr⟩ := ih hrep (Nat.lt_of_succ_lt_succ hd)
      rw [put_middle hbelow habove rfl] at hkput ⊢
      constructor
      · rintro ⟨y, hy, hyk⟩
        have hyy : y ∈ ys := by
          rcases List.mem_append.mp hy with hy | hy
          · exact absurd hyk (hbelow y hy).ne
          · exact (List.mem_append.mp hy).resolve_right fun hy => (habove y hy).ne' hyk
        obtain ⟨u', S₂, e₂, hu', g₂⟩ := hok ⟨y, hyy, hyk⟩
        obtain ⟨hpre', hpost'⟩ := Shows.around hk g₂ hpre hpost
        refine ⟨_, S₂, ?_, rep_mk hkput (hpre'.tree hlast ?_ ?_ hu' hpost' hhead) hlayer
          (Or.inl rfl), g₁.trans g₂.middle⟩
        · simp only [Mst.updateIn, hv, exec_ofExcept_ok, exec_bind, exec_indexOf e₁,
            takeEntries_withEntries, exec_pure, hi, hleaf, treeBefore_length, layer?_withEntries,
            e₂, set_length]
          rfl
        · simp [KeyedList.put]
        · exact fun x hx => Nat.lt_succ_of_le (hu'.fits x hx)
      · intro hn
        obtain ⟨S₂, e₂⟩ := herr fun y hy => hn y (by simp [hy])
        refine ⟨S₂, ?_⟩
        simp only [Mst.updateIn, hv, exec_ofExcept_ok, exec_bind, exec_indexOf e₁,
          takeEntries_withEntries, exec_pure, hi, hleaf, treeBefore_length, e₂]
    | @gap pre post xpre xpost hpre hpost hi hleaf htree hlast hhead hbelow habove =>
      refine ⟨?_, fun _ => ⟨S₁, ?_⟩⟩
      · rintro ⟨y, hy, hyk⟩
        rcases List.mem_append.mp hy with hy | hy
        · exact absurd hyk (hbelow y hy).ne
        · exact absurd hyk (habove y hy).ne'
      · simp only [Mst.updateIn, hv, exec_ofExcept_ok, exec_bind, exec_indexOf e₁,
          takeEntries_withEntries, exec_pure, hi, hleaf, htree, exec_throw]

/-- Taking a key out, before the top is trimmed. -/
theorem exec_deleteRecurse {depth : ℕ} (h : Rep st S ℓ t xs) (hd : ℓ + 1 < depth) :
    ((∃ y ∈ xs, y.key = key) → ∃ es S',
      exec (Store.answer st) (Mst.deleteRecurse depth t key) S =
          (.ok (Mst.fromEntries es t.layer?), S') ∧
        Rep st S' ℓ (Mst.fromEntries es t.layer?) (take Leaf.key key xs) ∧ Grows xs S S') ∧
    ((∀ y ∈ xs, y.key ≠ key) → ∃ S',
      exec (Store.answer st) (Mst.deleteRecurse depth t key) S =
        (.error (.keyMissing key), S')) := by
  induction depth generalizing ℓ t xs S with
  | zero => exact absurd hd (Nat.not_lt_zero _)
  | succ depth ih =>
    obtain ⟨es, S₁, e₁, hs, g₁⟩ := exec_entries h
    have hk := h.keyed
    have hktake : WellKeyed (take Leaf.key key xs) := hk.take
    have hlayer := (rep_iff.mp h).layer
    cases hs.locate hk key with
    | @leaf pre post xpre xpost value hpre hpost hz hi hbelow habove =>
      have hleaf : Mst.leafAt (pre ++ .leaf ⟨key, value⟩ :: post) pre.length key = some value :=
        leafAt_length pre post ⟨key, value⟩
      rw [take_at hbelow habove rfl] at hktake ⊢
      refine ⟨fun _ => ?_, fun hn => absurd rfl (hn ⟨key, value⟩ (by simp))⟩
      rcases treesAround_length pre post ⟨key, value⟩ with
        ⟨pre', a, b, post', rfl, rfl, htrees⟩ | ⟨hmeet, htrees⟩
      · obtain ⟨xpre', zs, rfl, hcpre, hz⟩ := covers_append.mp hpre.covers
        obtain ⟨as, ws, rfl, hna, hfa, ha, hw⟩ := covers_tree.mp hz
        obtain rfl := covers_nil.mp hw
        obtain ⟨bs, xpost', rfl, hnb, hfb, hb, hcpost⟩ := covers_tree.mp hpost.covers
        obtain ⟨k, rfl, -, hrepa⟩ := childAt_of_repUnder hna ha
        have hapre := List.isChain_append.mp hpre.apart
        have hapost := List.isChain_cons.mp hpost.apart
        have hsub : (as ++ bs).Sublist (xpre' ++ (as ++ []) ++ ⟨key, value⟩ :: (bs ++ xpost')) := by
          have hs : (as ++ bs).Sublist (xpre' ++ (as ++ []) ++ (bs ++ xpost')) := by
            rw [List.append_nil]
            exact (List.sublist_append_right xpre' as).append (List.sublist_append_left bs xpost')
          exact hs.trans ((List.Sublist.refl _).append (List.sublist_cons_self _ _))
        have hlist : xpre' ++ (as ++ []) ++ (bs ++ xpost') = xpre' ++ ((as ++ bs) ++ xpost') := by
          simp
        rw [hlist] at hktake ⊢
        obtain ⟨merged, S₂, e₂, hmerged, g₂⟩ :=
          exec_appendMerge hrepa hb hna hnb hktake.append_right.append_left
            (Nat.lt_of_succ_lt_succ hd)
        obtain ⟨hpre', hpost'⟩ := Shows.around hktake g₂ ⟨hcpre, hapre.1⟩ ⟨hcpost, hapost.2⟩
        refine ⟨pre' ++ .tree merged :: post', S₂, ?_, rep_mk hktake (hpre'.tree ?_ ?_ ?_ hmerged
          hpost' ?_) hlayer (Or.inl rfl), g₁.trans (g₂.mono hsub)⟩
        · have htake : List.take ((pre' ++ [Entry.tree a]).length - 1)
              (pre' ++ [Entry.tree a] ++ Entry.leaf ⟨key, value⟩ :: Entry.tree b :: post') = pre' := by
            simp
          have hdrop : List.drop ((pre' ++ [Entry.tree a]).length + 2)
              (pre' ++ [Entry.tree a] ++ Entry.leaf ⟨key, value⟩ :: Entry.tree b :: post') =
                post' := by
            rw [← List.drop_drop, List.drop_left]
            rfl
          simp only [Mst.deleteRecurse, exec_bind, exec_indexOf e₁, takeEntries_withEntries,
            exec_pure, hi, hleaf, htrees, layer?_withEntries, e₂, htake, hdrop]
        · exact fun e he => (hapre.2.2 e he (.tree a) rfl).resolve_right (by simp [Entry.isTree])
        · simp [hna]
        · exact fun x hx => (List.mem_append.mp hx).elim (hfa x) (hfb x)
        · exact fun e he => (hapost.1 e he).resolve_left (by simp [Entry.isTree])
      · refine ⟨pre ++ post, S₁, ?_, rep_mk hktake (hpre.append hpost hmeet) hlayer (Or.inl rfl), g₁⟩
        simp only [Mst.deleteRecurse, exec_bind, exec_indexOf e₁, takeEntries_withEntries, exec_pure,
          hi, hleaf, htrees, layer?_withEntries, eraseIdx_length]
    | @tree pre post xpre ys xpost u hpre hpost hne hfu hu hi hleaf hlast hhead hbelow habove =>
      obtain ⟨k, rfl, -, hrep⟩ := childAt_of_repUnder hne hu
      obtain ⟨hok, herr⟩ := ih hrep (by omega)
      rw [take_middle hbelow habove] at hktake ⊢
      constructor
      · rintro ⟨y, hy, hyk⟩
        have hyy : y ∈ ys := by
          rcases List.mem_append.mp hy with hy | hy
          · exact absurd hyk (hbelow y hy).ne
          · exact (List.mem_append.mp hy).resolve_right fun hy => (habove y hy).ne' hyk
        obtain ⟨inside, S₂, e₂, hu', g₂⟩ := hok ⟨y, hyy, hyk⟩
        obtain ⟨hpre', hpost'⟩ := Shows.around hk g₂ hpre hpost
        have hinside := ((rep_iff.mp hu').loaded inside rfl).covers.eq_nil_iff
        by_cases hempty : inside = []
        · rw [hinside.mpr hempty] at hktake ⊢
          refine ⟨pre ++ post, S₂, ?_, rep_mk hktake (hpre'.append hpost' (Or.inl hlast)) hlayer
            (Or.inl rfl), g₁.trans g₂.middle⟩
          simp only [Mst.deleteRecurse, exec_bind, exec_indexOf e₁, takeEntries_withEntries,
            exec_pure, hi, hleaf, treeBefore_length, layer?_withEntries, e₂, entries_fromEntries, hempty,
            List.isEmpty_nil, if_true, eraseIdx_length]
        · refine ⟨pre ++ .tree (Mst.fromEntries inside u.layer?) :: post, S₂, ?_,
            rep_mk hktake (hpre'.tree hlast (fun hn => hempty (hinside.mp hn)) ?_ hu' hpost' hhead)
            hlayer (Or.inl rfl), g₁.trans g₂.middle⟩
          · simp only [Mst.deleteRecurse, exec_bind, exec_indexOf e₁, takeEntries_withEntries,
              exec_pure, hi, hleaf, treeBefore_length, layer?_withEntries, e₂, entries_fromEntries,
              List.isEmpty_iff, hempty, if_false, set_length]
          · exact fun x hx => Nat.lt_succ_of_le (hu'.fits x hx)
      · intro hn
        obtain ⟨S₂, e₂⟩ := herr fun y hy => hn y (by simp [hy])
        refine ⟨S₂, ?_⟩
        simp only [Mst.deleteRecurse, exec_bind, exec_indexOf e₁, takeEntries_withEntries, exec_pure,
          hi, hleaf, treeBefore_length, e₂]
    | @gap pre post xpre xpost hpre hpost hi hleaf htree hlast hhead hbelow habove =>
      refine ⟨?_, fun _ => ⟨S₁, ?_⟩⟩
      · rintro ⟨y, hy, hyk⟩
        rcases List.mem_append.mp hy with hy | hy
        · exact absurd hyk (hbelow y hy).ne
        · exact absurd hyk (habove y hy).ne'
      · simp only [Mst.deleteRecurse, exec_bind, exec_indexOf e₁, takeEntries_withEntries, exec_pure,
          hi, hleaf, htree, exec_throw]

/-- Trimming leaves the tree at the layer of its highest leaf. -/
theorem exec_trimTop {depth : ℕ} (h : Rep st S ℓ t xs) (hd : ℓ < depth) : ∃ ℓ' t' S',
    exec (Store.answer st) (Mst.trimTop depth t) S = (.ok t', S') ∧ Rep st S' ℓ' t' xs ∧
      ℓ' ≤ ℓ ∧ (xs ≠ [] → ℓ' = topLayer xs) := by
  induction depth generalizing ℓ t xs S with
  | zero => exact absurd hd (Nat.not_lt_zero _)
  | succ depth ih =>
    obtain ⟨es, S₁, e₁, hs, -⟩ := exec_fill h
    have hw := h.withEntries hs
    have hes : (t.withEntries es).entries? = some es := by cases t; rfl
    by_cases hlone : ∃ u, es = [.tree u]
    · obtain ⟨u, rfl⟩ := hlone
      obtain ⟨ys, zs, rfl, hne, hfu, hu, hz⟩ := covers_tree.mp hs.covers
      obtain rfl := covers_nil.mp hz
      obtain ⟨k, rfl, -, hrep⟩ := childAt_of_repUnder hne hu
      obtain ⟨ℓ', t', S₂, e₂, ht', hle, htop⟩ := ih hrep (Nat.lt_of_succ_lt_succ hd)
      rw [List.append_nil]
      refine ⟨ℓ', t', S₂, ?_, ht', hle.trans (Nat.le_succ k), htop⟩
      simp only [Mst.trimTop, exec_bind, exec_attempt, e₁, hes, e₂]
    · refine ⟨ℓ, t.withEntries es, S₁, ?_, hw, Nat.le_refl ℓ, fun hne => ?_⟩
      · simp only [Mst.trimTop, exec_bind, exec_attempt, e₁, hes]
        split
        · rename_i u hu
          exact absurd ⟨u, Option.some_inj.mp hu⟩ hlone
        · rfl
      · by_contra hne'
        have htrees : ∀ e ∈ es, e.isTree = true := by
          intro e he
          cases e with
          | tree u => rfl
          | leaf x =>
            obtain ⟨pre, post, rfl⟩ := List.append_of_mem he
            obtain ⟨xpre, zs, rfl, -, hz⟩ := covers_append.mp hs.covers
            obtain ⟨xpost, rfl, hx, -⟩ := covers_leaf.mp hz
            exact absurd (topLayer_eq hs.covers.fits (by simp) hx).symm hne'
        rcases eq_singleton_of_all_trees hs htrees with rfl | ⟨u, rfl⟩
        · exact hne (covers_nil.mp hs.covers)
        · exact hlone ⟨u, rfl⟩

end Manapds
