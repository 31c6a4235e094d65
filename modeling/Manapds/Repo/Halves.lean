import Manapds.Repo.Lookup

/-!
# Splitting and joining subtrees

A key laid above a subtree cuts it in the half below the key and the half above, either of which
may come out empty and be left out; a key taken out from between two subtrees joins them. A half
is raised to the layer it is to stand under by lone pointers at it.
-/

namespace Manapds

open KeyedList Shape QueryProgram Routine

variable {Cid : Type}

theorem take_length_succ {α : Type} (pre post : List α) (a : α) :
    (pre ++ a :: post).take (pre.length + 1) = pre ++ [a] := by
  rw [List.take_append, List.take_of_length_le (Nat.le_succ _)]
  simp

theorem drop_length_succ {α : Type} (pre post : List α) (a : α) :
    (pre ++ a :: post).drop (pre.length + 1) = post := by
  simp [List.drop_append]

variable [Codec Cid] {st : Cid → Option Bytes} {S S' : List Cid} {ℓ : ℕ}
  {t : Mst Cid} {xs ys : List (Leaf Cid)} {layer : Option ℕ} {key : Str}

/-- A subtree that is left out where there is nothing in it. -/
def RepHalf (st : Cid → Option Bytes) (S : List Cid) (ℓ : ℕ) (layer : Option ℕ) :
    Option (Mst Cid) → List (Leaf Cid) → Prop
  | none, xs => xs = []
  | some t, xs => xs ≠ [] ∧ t.layer? = layer ∧ Rep st S ℓ t xs

theorem RepHalf.shows {half : Option (Mst Cid)} (h : RepHalf st S ℓ layer half xs) :
    Shows (RepUnder st S (ℓ + 1)) (ℓ + 1) (Mst.toEntries half) xs := by
  cases half with
  | none =>
    obtain rfl : xs = [] := h
    exact .nil
  | some t =>
    obtain ⟨hne, -, ht⟩ := h
    exact ⟨covers_tree.mpr ⟨xs, [], (List.append_nil xs).symm, hne,
      fun x hx => Nat.lt_succ_of_le (ht.fits x hx), ht, .nil⟩, List.isChain_singleton _⟩

theorem repHalf_of_shows {es : List (Entry Cid)} (hk : WellKeyed xs)
    (h : Shows (RepUnder st S ℓ) ℓ es xs) (hl : layer = none ∨ layer = some ℓ) :
    RepHalf st S ℓ layer (if es.isEmpty then none else some (Mst.fromEntries es layer)) xs := by
  by_cases he : es = []
  · subst he
    exact covers_nil.mp h.covers
  · rw [if_neg (by simpa using he)]
    exact ⟨fun hx => he (h.covers.eq_nil_iff.mp hx), rfl, rep_mk hk h hl (Or.inl rfl)⟩

theorem raise_repHalf {half : Option (Mst Cid)} (h : RepHalf st S ℓ (some ℓ) half xs) :
    ∃ half', Mst.raise half = .ok half' ∧ RepHalf st S (ℓ + 1) (some (ℓ + 1)) half' xs := by
  cases half with
  | none => exact ⟨none, rfl, h⟩
  | some t =>
    obtain ⟨hne, hl, ht⟩ := h
    refine ⟨some (Mst.fromEntries [.tree t] (some (ℓ + 1))), ?_, hne, rfl, ?_⟩
    · simp only [Mst.raise, Mst.intoParent, hl]
      rfl
    · have hs : RepHalf st S ℓ (some ℓ) (some t) xs := ⟨hne, hl, ht⟩
      exact rep_mk ht.keyed hs.shows (Or.inr rfl) (Or.inl rfl)

theorem raiseBoth_repHalf (n : ℕ) {left right : Option (Mst Cid)}
    (hl : RepHalf st S ℓ (some ℓ) left xs) (hr : RepHalf st S ℓ (some ℓ) right ys) :
    ∃ left' right', Mst.raiseBoth n left right = .ok (left', right') ∧
      RepHalf st S (ℓ + n) (some (ℓ + n)) left' xs ∧
      RepHalf st S (ℓ + n) (some (ℓ + n)) right' ys := by
  induction n generalizing ℓ left right with
  | zero => exact ⟨left, right, rfl, hl, hr⟩
  | succ n ih =>
    obtain ⟨left', hl', hleft⟩ := raise_repHalf hl
    obtain ⟨right', hr', hright⟩ := raise_repHalf hr
    obtain ⟨l, r, he, h1, h2⟩ := ih hleft hright
    rw [Nat.add_right_comm ℓ 1 n] at h1 h2
    refine ⟨l, r, ?_, h1, h2⟩
    simp only [Mst.raiseBoth, hl', hr']
    exact he

variable [DecidableEq Cid] [LawfulCodec Cid]

/-- Cutting a tree around a key it does not hold. -/
theorem exec_splitAround {depth : ℕ} (h : Rep st S ℓ t xs) (hd : ℓ < depth)
    (hkey : ∀ x ∈ xs, x.key ≠ key) : ∃ left right S',
    exec (Store.answer st) (Mst.splitAround depth t key) S = (.ok (left, right), S') ∧
      RepHalf st S' ℓ t.layer? left (below Leaf.key key xs) ∧
      RepHalf st S' ℓ t.layer? right (above Leaf.key key xs) ∧ Grows xs S S' := by
  induction depth generalizing ℓ t xs S with
  | zero => exact absurd hd (Nat.not_lt_zero ℓ)
  | succ depth ih =>
    obtain ⟨es, S', he, hs, hg⟩ := exec_entries h
    have hk := h.keyed
    have hlayer := (rep_iff.mp h).layer
    cases hs.locate hk key with
    | @leaf pre post xpre xpost value hpre hpost hz hi hbelow habove =>
      exact absurd rfl (hkey ⟨key, value⟩ (by simp))
    | @tree pre post xpre ys xpost u hpre hpost hne hfu hu hi hleaf hlast hhead hbelow
        habove =>
      obtain ⟨k, rfl, -, hrep⟩ := childAt_of_repUnder hne hu
      obtain ⟨left, right, S'', hx, hleft, hright, hg'⟩ :=
        ih hrep (Nat.lt_of_succ_lt_succ hd) fun x hx => hkey x (by simp [hx])
      obtain ⟨hpre', hpost'⟩ := Shows.around hk hg' hpre hpost
      rw [below_middle hbelow habove, above_middle hbelow habove]
      have hsl := hpre'.append hleft.shows (Or.inl hlast)
      have hsr := hright.shows.append hpost' (Or.inr hhead)
      have hkl : WellKeyed (xpre ++ below Leaf.key key ys) := by
        rw [← below_middle hbelow habove]
        exact hk.sublist List.filter_sublist
      have hkr : WellKeyed (above Leaf.key key ys ++ xpost) := by
        rw [← above_middle hbelow habove]
        exact hk.sublist List.filter_sublist
      refine ⟨_, _, S'', ?_, repHalf_of_shows hkl hsl hlayer, repHalf_of_shows hkr hsr hlayer,
        hg.trans hg'.middle⟩
      simp only [Mst.splitAround, exec_bind, exec_indexOf he, takeEntries_withEntries, exec_pure, hi,
        layer?_withEntries, take_length_succ, drop_length_succ, List.getLast?_concat,
        List.dropLast_concat, hx]
    | @gap pre post xpre xpost hpre hpost hi hleaf htree hlast hhead hbelow habove =>
      rw [below_between hbelow habove, above_between hbelow habove]
      refine ⟨_, _, S', ?_, repHalf_of_shows hk.append_left hpre hlayer,
        repHalf_of_shows hk.append_right hpost hlayer, hg⟩
      simp only [Mst.splitAround, exec_bind, exec_indexOf he, takeEntries_withEntries, exec_pure, hi,
        layer?_withEntries, List.take_left, List.drop_left]
      cases hl : pre.getLast? with
      | none => rfl
      | some e =>
        cases e with
        | leaf x => rfl
        | tree u => exact absurd (hlast _ hl) (by simp [Entry.isTree])

theorem exec_takeEntries (h : Rep st S ℓ t xs) : ∃ es S',
    exec (Store.answer st) t.takeEntries S = (.ok es, S') ∧
      Shows (RepUnder st S' ℓ) ℓ es xs ∧ Grows xs S S' := by
  obtain ⟨es, S', he, hs, hg⟩ := exec_entries h
  refine ⟨es, S', ?_, hs, hg⟩
  simp only [Mst.takeEntries, exec_bind, he, exec_pure]

/-- Joining two nodes of one layer, one after the other. -/
theorem exec_appendMerge {depth : ℕ} {u : Mst Cid} (ht : Rep st S ℓ t xs) (hu : Rep st S ℓ u ys)
    (hx : xs ≠ []) (hy : ys ≠ []) (hk : WellKeyed (xs ++ ys)) (hd : ℓ + 1 < depth) : ∃ t' S',
    exec (Store.answer st) (Mst.appendMerge depth t u) S = (.ok t', S') ∧
      Rep st S' ℓ t' (xs ++ ys) ∧ Grows (xs ++ ys) S S' := by
  induction depth generalizing ℓ t u xs ys S with
  | zero => exact absurd hd (Nat.not_lt_zero _)
  | succ depth ih =>
    have hdisj : xs.Disjoint ys := hk.disjoint
    have hdisj' : ys.Disjoint xs := fun x hy hx => hdisj hx hy
    have hd' : ℓ < depth := Nat.lt_of_succ_lt_succ hd
    have hkx := hk.append_left
    have hky := hk.append_right
    -- Either side is read without disturbing the other.
    obtain ⟨t₁, S₁, e₁, ht₁, g₁, hl₁⟩ := exec_layer ht hd'
    rw [layerOf_of_ne t ℓ hx] at e₁ ht₁ hl₁
    have hu₁ := hu.frame g₁ hkx hy hdisj'
    obtain ⟨u₂, S₂, e₂, hu₂, g₂, hl₂⟩ := exec_layer hu₁ hd'
    rw [layerOf_of_ne u ℓ hy] at e₂ hu₂ hl₂
    have ht₂ := ht₁.frame g₂ hky hx hdisj
    obtain ⟨left, S₃, e₃, hleft, g₃⟩ := exec_takeEntries ht₂
    have hu₃ := hu₂.frame g₃ hkx hy hdisj'
    obtain ⟨right, S₄, e₄, hright, g₄⟩ := exec_takeEntries hu₃
    have hleft' := hleft.frame g₄ hky hdisj
    have hg : Grows (xs ++ ys) S S₄ :=
      (((g₁.mono (List.sublist_append_left xs ys)).trans
        (g₂.mono (List.sublist_append_right xs ys))).trans
        (g₃.mono (List.sublist_append_left xs ys))).trans
        (g₄.mono (List.sublist_append_right xs ys))
    by_cases hmeet : ∃ pre a b post, left = pre ++ [.tree a] ∧ right = .tree b :: post
    · obtain ⟨pre, a, b, post, rfl, rfl⟩ := hmeet
      obtain ⟨xpre, zs, rfl, hcpre, hz⟩ := covers_append.mp hleft'.covers
      obtain ⟨as, ws, rfl, hna, hfa, ha, hw⟩ := covers_tree.mp hz
      obtain rfl := covers_nil.mp hw
      obtain ⟨bs, xpost, rfl, hnb, hfb, hb, hcpost⟩ := covers_tree.mp hright.covers
      obtain ⟨k, rfl, -, hrepa⟩ := childAt_of_repUnder hna ha
      have hlist : xpre ++ (as ++ []) ++ (bs ++ xpost) = xpre ++ ((as ++ bs) ++ xpost) := by simp
      rw [hlist] at hk hg ⊢
      obtain ⟨c, S₅, e₅, hc, g₅⟩ := ih hrepa hb hna hnb hk.append_right.append_left
        (Nat.lt_of_succ_lt_succ hd)
      have hapre := List.isChain_append.mp hleft.apart
      have hapost := List.isChain_cons.mp hright.apart
      obtain ⟨hpre', hpost'⟩ := Shows.around hk g₅ ⟨hcpre, hapre.1⟩ ⟨hcpost, hapost.2⟩
      refine ⟨Mst.fromEntries (pre ++ .tree c :: post) (some (k + 1)), S₅, ?_, ?_,
        hg.trans g₅.middle⟩
      · simp only [Mst.appendMerge, exec_bind, e₁, e₂, e₃, e₄, hl₁, ne_eq, not_true_eq_false,
          if_false, List.getLast?_concat, List.dropLast_concat, e₅, exec_pure]
      · refine rep_mk hk (hpre'.tree ?_ ?_ ?_ hc hpost' ?_) (Or.inr rfl) (Or.inl rfl)
        · exact fun e he => (hapre.2.2 e he (.tree a) rfl).resolve_right (by simp [Entry.isTree])
        · simp [hna]
        · exact fun x hx => (List.mem_append.mp hx).elim (hfa x) (hfb x)
        · exact fun e he => (hapost.1 e he).resolve_left (by simp [Entry.isTree])
    · refine ⟨Mst.fromEntries (left ++ right) (some ℓ), S₄, ?_, ?_, hg⟩
      · simp only [Mst.appendMerge, exec_bind, e₁, e₂, e₃, e₄, hl₁, ne_eq, not_true_eq_false,
          if_false]
        split
        · rename_i a b post hl
          obtain ⟨pre, rfl⟩ := List.getLast?_eq_some_iff.mp hl
          exact absurd ⟨pre, a, b, post, rfl, rfl⟩ hmeet
        · rfl
      · refine rep_mk hk (hleft'.append hright ?_) (Or.inr rfl) (Or.inl rfl)
        by_contra hboth
        push Not at hboth
        obtain ⟨⟨e, he, hte⟩, e', he', hte'⟩ := hboth
        cases e with
        | leaf x => exact hte rfl
        | tree a =>
          cases e' with
          | leaf x => exact hte' rfl
          | tree b =>
            obtain ⟨pre, rfl⟩ := List.getLast?_eq_some_iff.mp he
            obtain ⟨post, rfl⟩ := List.head?_eq_some_iff.mp he'
            exact hmeet ⟨pre, a, b, post, rfl, rfl⟩

end Manapds
