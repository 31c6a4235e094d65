import Manapds.Repo.Session

/-!
# The structure every tree keeps

A node is what a new traversal reads it as, and the nodes of a tree are what its subtrees are read
as, level by level. At each of them the keys ascend, every leaf is at its own layer, subtrees stand
one layer down and never side by side, and what is cached of the layer is what the keys say. Only
the root may be empty.

Splitting a tree around a key it does not hold and merging what comes of it both keep this, and each
undoes the other.
-/

namespace Manapds

open KeyedList Shape QueryProgram Routine

variable {Cid : Type} [Codec Cid] [DecidableEq Cid]

namespace Mst

/-- What a new traversal reads as the entries of a node. -/
def Opens (st : Cid → Option Bytes) (t : Mst Cid) (es : List (Entry Cid)) : Prop :=
  ∃ t', (exec (Store.answer st) t.entries []).1 = .ok (es, t')

/-- The nodes so many levels under a node. -/
inductive Node (st : Cid → Option Bytes) : ℕ → Mst Cid → Mst Cid → Prop where
  | here (t : Mst Cid) : Node st 0 t t
  | under {d : ℕ} {t u v : Mst Cid} {es : List (Entry Cid)} : t.Opens st es → .tree u ∈ es →
      Node st d u v → Node st (d + 1) t v

/-- A leaf so many levels under a node. -/
def Under (st : Cid → Option Bytes) (d : ℕ) (t : Mst Cid) (x : Leaf Cid) : Prop :=
  ∃ u es, Node st d t u ∧ u.Opens st es ∧ .leaf x ∈ es

/-- A key at a node or under it puts the node at a layer. -/
def Implies (st : Cid → Option Bytes) (t : Mst Cid) (m : ℕ) : Prop :=
  ∃ d x, t.Under st d x ∧ m = x.zeros + d

end Mst

/-- A leaf an entry is, or that is under it. -/
def Entry.Has (st : Cid → Option Bytes) : Entry Cid → Leaf Cid → Prop
  | .leaf y, x => x = y
  | .tree u, x => ∃ d, u.Under st d x

namespace Mst

/-- What holds of a node, read as these entries, that stands at a layer. -/
structure Settled (st : Cid → Option Bytes) (m : ℕ) (t : Mst Cid) (es : List (Entry Cid)) :
    Prop where
  ordered : es.Pairwise fun e e' => ∀ x y, e.Has st x → e'.Has st y → x.key < y.key
  leaves : ∀ x, .leaf x ∈ es → x.zeros = m
  apart : es.IsChain Entry.Apart
  cached : ∀ layer, t.layer? = some layer → layer = m
  implied : es ≠ [] → ∀ m', t.Implies st m' ↔ m' = m

/-- Every node of a tree can be read, and stands as many layers down as it is levels. -/
def Balanced (st : Cid → Option Bytes) (t : Mst Cid) : Prop :=
  ∃ ℓ, ∀ d u, Node st d t u → ∃ m es, m + d = ℓ ∧ u.Opens st es ∧ Settled st m u es ∧
    (0 < d → es ≠ [])

theorem Opens.unique {st : Cid → Option Bytes} {t : Mst Cid} {es es' : List (Entry Cid)}
    (h : t.Opens st es) (h' : t.Opens st es') : es = es' := by
  obtain ⟨u, hu⟩ := h
  obtain ⟨u', hu'⟩ := h'
  rw [hu] at hu'
  exact congrArg Prod.fst (Except.ok.inj hu')

end Mst

open Mst

/-! ## The entries of a node -/

section

variable {R : Mst Cid → List (Leaf Cid) → Prop} {ℓ : ℕ} {es : List (Entry Cid)}
  {xs : List (Leaf Cid)} {x : Leaf Cid} {u : Mst Cid}

omit [DecidableEq Cid] in
theorem Covers.of_leaf (h : Covers R ℓ es xs) (hx : .leaf x ∈ es) : x ∈ xs ∧ x.zeros = ℓ := by
  obtain ⟨pre, post, rfl⟩ := List.append_of_mem hx
  obtain ⟨ys, zs, rfl, -, h⟩ := covers_append.mp h
  obtain ⟨ws, rfl, hz, -⟩ := covers_leaf.mp h
  exact ⟨by simp, hz⟩

omit [DecidableEq Cid] in
theorem Covers.of_tree (h : Covers R ℓ es xs) (hu : .tree u ∈ es) :
    ∃ ys, ys.Sublist xs ∧ ys ≠ [] ∧ FitsUnder ℓ ys ∧ R u ys := by
  obtain ⟨pre, post, rfl⟩ := List.append_of_mem hu
  obtain ⟨ys, zs, rfl, -, h⟩ := covers_append.mp h
  obtain ⟨as, ws, rfl, hne, hfu, hr, -⟩ := covers_tree.mp h
  refine ⟨as, ?_, hne, hfu, hr⟩
  exact (List.sublist_append_left as ws).trans (List.sublist_append_right ys (as ++ ws))

omit [DecidableEq Cid] in
theorem Covers.of_mem (h : Covers R ℓ es xs) (hx : x ∈ xs) : .leaf x ∈ es ∨
    ∃ u ys, .tree u ∈ es ∧ ys ≠ [] ∧ R u ys ∧ x ∈ ys := by
  induction h with
  | nil => cases hx
  | @cons e es ys xs he _ ih =>
    rcases List.mem_append.mp hx with hx | hx
    · cases e with
      | leaf y =>
        obtain ⟨rfl, -⟩ := he
        obtain rfl := List.mem_singleton.mp hx
        exact Or.inl List.mem_cons_self
      | tree u => exact Or.inr ⟨u, ys, List.mem_cons_self, he.1, he.2.2, hx⟩
    · rcases ih hx with h | ⟨u, ys, hu, h⟩
      · exact Or.inl (List.mem_cons_of_mem e h)
      · exact Or.inr ⟨u, ys, List.mem_cons_of_mem e hu, h⟩

end

variable [LawfulCodec Cid] {st : Cid → Option Bytes} {ℓ d : ℕ} {t u : Mst Cid}
  {es : List (Entry Cid)} {xs ys : List (Leaf Cid)} {x : Leaf Cid} {key : Str}

theorem Rep.exists_opens (h : Rep st [] ℓ t xs) :
    ∃ es, t.Opens st es ∧ Shows (RepUnder st [] ℓ) ℓ es xs := by
  obtain ⟨es, S', he, hs, -⟩ := exec_entries h
  refine ⟨es, ⟨t.withEntries es, by rw [he]⟩, hs.imp fun v zs _ _ hv => ?_⟩
  cases ℓ with
  | zero => exact hv
  | succ ℓ => exact Rep.restart hv

theorem Rep.shows_of_opens (h : Rep st [] ℓ t xs) (ho : t.Opens st es) :
    Shows (RepUnder st [] ℓ) ℓ es xs := by
  obtain ⟨es', ho', hs⟩ := h.exists_opens
  rwa [ho.unique ho']

/-- Every node under one stands for some of its leaves, as many layers down. -/
theorem Rep.of_node (hn : Node st d t u) (h : Rep st [] ℓ t xs) : ∃ m ys, m + d = ℓ ∧
    Rep st [] m u ys ∧ ys.Sublist xs ∧ (xs ≠ [] ∨ 0 < d → ys ≠ []) := by
  induction hn generalizing ℓ xs with
  | here t =>
    exact ⟨ℓ, xs, rfl, h, List.Sublist.refl xs, fun hne => hne.resolve_right (lt_irrefl 0)⟩
  | under ho hv _ ih =>
    obtain ⟨ys, hsub, hne, -, hr⟩ := (h.shows_of_opens ho).covers.of_tree hv
    obtain ⟨k, rfl, -, hrep⟩ := childAt_of_repUnder hne hr
    obtain ⟨m, zs, hm, hw, hzs, hnz⟩ := ih hrep
    exact ⟨m, zs, by omega, hw, hzs.trans hsub, fun _ => hnz (Or.inl hne)⟩

/-- A leaf under a node is as many levels down as it is layers. -/
theorem Rep.of_under (h : Rep st [] ℓ t xs) (hx : t.Under st d x) : x ∈ xs ∧ x.zeros + d = ℓ := by
  obtain ⟨u, es, hn, ho, hmem⟩ := hx
  obtain ⟨m, ys, rfl, hu, hsub, -⟩ := h.of_node hn
  obtain ⟨hy, hz⟩ := (hu.shows_of_opens ho).covers.of_leaf hmem
  exact ⟨hsub.subset hy, by rw [hz]⟩

omit [LawfulCodec Cid] in
theorem Mst.Under.of_tree (ho : t.Opens st es) (hu : .tree u ∈ es) (hx : u.Under st d x) :
    t.Under st (d + 1) x := by
  obtain ⟨v, fs, hn, hv, hmem⟩ := hx
  exact ⟨v, fs, .under ho hu hn, hv, hmem⟩

/-- Every leaf a tree stands for is at one of its nodes. -/
theorem Rep.exists_under (h : Rep st [] ℓ t xs) (hx : x ∈ xs) : ∃ d, t.Under st d x := by
  induction ℓ using Nat.strong_induction_on generalizing t xs with
  | _ ℓ ih =>
    obtain ⟨es, ho, hs⟩ := h.exists_opens
    rcases hs.covers.of_mem hx with hleaf | ⟨u, ys, hu, hne, hr, hx⟩
    · exact ⟨0, t, es, .here t, ho, hleaf⟩
    · obtain ⟨k, rfl, -, hrep⟩ := childAt_of_repUnder hne hr
      obtain ⟨d, hd⟩ := ih k (Nat.lt_succ_self k) hrep hx
      exact ⟨d + 1, hd.of_tree ho hu⟩

/-- What an entry has is among what it stands for. -/
theorem Entry.Covers.of_has {e : Entry Cid} (h : e.Covers (RepUnder st [] ℓ) ℓ ys)
    (hx : e.Has st x) : x ∈ ys := by
  cases e with
  | leaf y =>
    obtain rfl : x = y := hx
    rw [h.1]
    exact List.mem_singleton_self x
  | tree u =>
    obtain ⟨d, hx⟩ := hx
    obtain ⟨k, rfl, -, hrep⟩ := childAt_of_repUnder h.1 h.2.2
    exact (hrep.of_under hx).1

theorem Covers.pairwise (h : Covers (RepUnder st [] ℓ) ℓ es xs) (hk : WellKeyed xs) :
    es.Pairwise fun e e' => ∀ x y, e.Has st x → e'.Has st y → x.key < y.key := by
  induction h with
  | nil => exact .nil
  | @cons e es ys xs he h ih =>
    refine .cons (fun e' he' x y hx hy => ?_) (ih hk.append_right)
    refine hk.lt (he.of_has hx) ?_
    cases e' with
    | leaf z =>
      obtain rfl : y = z := hy
      exact (h.of_leaf he').1
    | tree u =>
      obtain ⟨d, hy⟩ := hy
      obtain ⟨zs, hsub, hne, -, hr⟩ := h.of_tree he'
      obtain ⟨k, rfl, -, hrep⟩ := childAt_of_repUnder hne hr
      exact hsub.subset (hrep.of_under hy).1

theorem Rep.settled (h : Rep st [] ℓ t xs) (ho : t.Opens st es) : Settled st ℓ t es := by
  have hs := h.shows_of_opens ho
  refine ⟨hs.covers.pairwise h.keyed, fun x hx => (hs.covers.of_leaf hx).2, hs.apart, ?_, ?_⟩
  · intro layer hl
    rcases (rep_iff.mp h).layer with hn | hn
    · rw [hn] at hl
      cases hl
    · rw [hn] at hl
      exact (Option.some.inj hl).symm
  · intro hne m'
    obtain ⟨x, hx⟩ := List.exists_mem_of_ne_nil xs fun hn => hne (hs.covers.eq_nil_iff.mp hn)
    constructor
    · rintro ⟨d, y, hy, rfl⟩
      exact (h.of_under hy).2
    · rintro rfl
      obtain ⟨d, hd⟩ := h.exists_under hx
      exact ⟨d, x, hd, (h.of_under hd).2.symm⟩

theorem Rep.balanced (h : Rep st [] ℓ t xs) : t.Balanced st := by
  refine ⟨ℓ, fun d u hn => ?_⟩
  obtain ⟨m, ys, hm, hu, -, hne⟩ := h.of_node hn
  obtain ⟨es, ho, hs⟩ := hu.exists_opens
  refine ⟨m, es, hm, ho, hu.settled ho, fun hd he => ?_⟩
  exact hne (Or.inr hd) (hs.covers.eq_nil_iff.mpr he)

/-! ## Splitting and merging -/

/-- A node of a tree, and whatever splitting and merging such trees makes. -/
inductive Mst.Made (st : Cid → Option Bytes) (root : Mst Cid) : Mst Cid → Prop where
  | node {d : ℕ} {t : Mst Cid} : Node st d root t → Made st root t
  | left {t t' : Mst Cid} {half : Option (Mst Cid)} {key : Str} {S : List Cid} : Made st root t →
      (∀ d x, t.Under st d x → x.key ≠ key) →
      exec (Store.answer st) (splitAround maxDepth t key) [] = (.ok (some t', half), S) →
      Made st root t'
  | right {t t' : Mst Cid} {half : Option (Mst Cid)} {key : Str} {S : List Cid} : Made st root t →
      (∀ d x, t.Under st d x → x.key ≠ key) →
      exec (Store.answer st) (splitAround maxDepth t key) [] = (.ok (half, some t'), S) →
      Made st root t'
  | merged {t u t' : Mst Cid} {m : ℕ} {S : List Cid} : Made st root t → Made st root u →
      t.Implies st m → u.Implies st m →
      (∀ d x d' y, t.Under st d x → u.Under st d' y → x.key < y.key) →
      exec (Store.answer st) (appendMerge maxDepth t u) [] = (.ok t', S) → Made st root t'

/-- The CID a new traversal gives a tree. -/
def Mst.HasRoot (st : Cid → Option Bytes) (t : Mst Cid) (cid : Cid) : Prop :=
  ∃ t', exec (Store.answer st) t.root () = (.ok (cid, t'), ())

/-- Halves of a tree split around a key merge to its root, in the traversal that split it or in a
new one. -/
def Mst.MergeUndoesSplit (st : Cid → Option Bytes) (t : Mst Cid) (key : Str) : Prop :=
  ∃ left right S, exec (Store.answer st) (splitAround maxDepth t key) [] = (.ok (left, right), S) ∧
    ∀ l r seen, left = some l → right = some r → seen = [] ∨ seen = S →
      ∃ t' S' cid, exec (Store.answer st) (appendMerge maxDepth l r) seen = (.ok t', S') ∧
        t'.HasRoot st cid ∧ t.HasRoot st cid

/-- Trees that were merged come back out of splitting at a key between them. -/
def Mst.SplitUndoesMerge (st : Cid → Option Bytes) (t u : Mst Cid) (key : Str) : Prop :=
  ∃ t' S, exec (Store.answer st) (appendMerge maxDepth t u) [] = (.ok t', S) ∧
    ∀ seen, seen = [] ∨ seen = S → ∃ l r S' cid cid',
      exec (Store.answer st) (splitAround maxDepth t' key) seen = (.ok (some l, some r), S') ∧
        l.HasRoot st cid ∧ t.HasRoot st cid ∧ r.HasRoot st cid' ∧ u.HasRoot st cid'

theorem Holds.hasRoot (h : Holds st ℓ t xs) : t.HasRoot st (cidAt ℓ xs) := by
  obtain ⟨t', he, -⟩ := exec_root () h
  exact ⟨t', he⟩

theorem Holds.ne_of_absent (h : Holds st ℓ t xs) (hkey : ∀ d x, t.Under st d x → x.key ≠ key) :
    ∀ x ∈ xs, x.key ≠ key := by
  intro x hx
  obtain ⟨d, hd⟩ := h.rep.exists_under hx
  exact hkey d x hd

theorem Holds.eq_of_implies {m : ℕ} (h : Holds st ℓ t xs) (hm : t.Implies st m) :
    m = ℓ ∧ xs ≠ [] := by
  obtain ⟨d, x, hx, rfl⟩ := hm
  obtain ⟨hmem, hz⟩ := h.rep.of_under hx
  exact ⟨hz, List.ne_nil_of_mem hmem⟩

theorem Holds.wellKeyed_append (h : Holds st ℓ t xs) (h' : Holds st ℓ u ys)
    (hlt : ∀ d x d' y, t.Under st d x → u.Under st d' y → x.key < y.key) :
    WellKeyed (xs ++ ys) := by
  refine ⟨Ordered.append_iff.mpr ⟨h.keyed.ordered, h'.keyed.ordered, fun x hx y hy => ?_⟩,
    fun x hx => (List.mem_append.mp hx).elim (h.keyed.valid x) (h'.keyed.valid x)⟩
  obtain ⟨d, hd⟩ := h.rep.exists_under hx
  obtain ⟨d', hd'⟩ := h'.rep.exists_under hy
  exact hlt d x d' y hd hd'

omit [DecidableEq Cid] [LawfulCodec Cid] in
theorem RepHalf.holds {S : List Cid} {layer : Option ℕ} (hle : ℓ ≤ 128)
    (h : RepHalf st S ℓ layer (some t) xs) : Holds st ℓ t xs := ⟨h.2.2.restart, hle⟩

/-- Whatever splitting and merging makes of the nodes of a tree stands for leaves as they do. -/
theorem Mst.Made.exists_holds {root : Mst Cid} (hroot : ∃ ℓ xs, Holds st ℓ root xs)
    (h : Made st root t) : ∃ m ys, Holds st m t ys := by
  induction h with
  | node hn =>
    obtain ⟨ℓ, xs, hr⟩ := hroot
    obtain ⟨m, ys, hm, ht, -, -⟩ := hr.rep.of_node hn
    exact ⟨m, ys, ht, (Nat.le.intro hm).trans hr.le⟩
  | left _ hkey he ih =>
    obtain ⟨m, ys, ht⟩ := ih
    obtain ⟨left, right, S', he', hleft, -, -⟩ :=
      exec_splitAround ht.rep (Nat.lt_of_succ_lt ht.lt_maxDepth) (ht.ne_of_absent hkey)
    rw [he'] at he
    obtain ⟨rfl, rfl⟩ := Prod.mk.inj (Except.ok.inj (Prod.mk.inj he).1)
    exact ⟨m, _, hleft.holds ht.le⟩
  | right _ hkey he ih =>
    obtain ⟨m, ys, ht⟩ := ih
    obtain ⟨left, right, S', he', -, hright, -⟩ :=
      exec_splitAround ht.rep (Nat.lt_of_succ_lt ht.lt_maxDepth) (ht.ne_of_absent hkey)
    rw [he'] at he
    obtain ⟨rfl, rfl⟩ := Prod.mk.inj (Except.ok.inj (Prod.mk.inj he).1)
    exact ⟨m, _, hright.holds ht.le⟩
  | merged _ _ hm hm' hlt he ih ih' =>
    obtain ⟨m, xs, ht⟩ := ih
    obtain ⟨m', ys, hu⟩ := ih'
    obtain ⟨rfl, hx⟩ := ht.eq_of_implies hm
    obtain ⟨rfl, hy⟩ := hu.eq_of_implies hm'
    obtain ⟨t', S', he', ht', -⟩ := exec_appendMerge ht.rep hu.rep hx hy
      (ht.wellKeyed_append hu hlt) ht.lt_maxDepth
    rw [he'] at he
    obtain rfl := Except.ok.inj (Prod.mk.inj he).1
    exact ⟨_, xs ++ ys, ht'.restart, ht.le⟩

theorem Holds.mergeUndoesSplit (h : Holds st ℓ t xs)
    (hkey : ∀ d x, t.Under st d x → x.key ≠ key) : t.MergeUndoesSplit st key := by
  have hne := h.ne_of_absent hkey
  obtain ⟨left, right, S, he, hleft, hright, -⟩ :=
    exec_splitAround h.rep (Nat.lt_of_succ_lt h.lt_maxDepth) hne
  refine ⟨left, right, S, he, ?_⟩
  rintro l r seen rfl rfl hseen
  have htake : below Leaf.key key xs ++ above Leaf.key key xs = xs :=
    take_eq_self hne h.keyed.ordered
  have hl : Rep st seen ℓ l (below Leaf.key key xs) := by
    rcases hseen with rfl | rfl
    · exact hleft.2.2.restart
    · exact hleft.2.2
  have hr : Rep st seen ℓ r (above Leaf.key key xs) := by
    rcases hseen with rfl | rfl
    · exact hright.2.2.restart
    · exact hright.2.2
  obtain ⟨t', S', he', ht', -⟩ :=
    exec_appendMerge hl hr hleft.1 hright.1 (htake.symm ▸ h.keyed) h.lt_maxDepth
  rw [htake] at ht'
  have hholds : Holds st ℓ t' xs := ⟨ht'.restart, h.le⟩
  exact ⟨t', S', cidAt ℓ xs, he', hholds.hasRoot, h.hasRoot⟩

omit [DecidableEq Cid] [LawfulCodec Cid] in
theorem RepHalf.eq_some {S : List Cid} {layer : Option ℕ} {half : Option (Mst Cid)}
    (h : RepHalf st S ℓ layer half xs) (hne : xs ≠ []) : ∃ t, half = some t := by
  cases half with
  | none => exact absurd h hne
  | some t => exact ⟨t, rfl⟩

theorem Holds.splitUndoesMerge (h : Holds st ℓ t xs) (h' : Holds st ℓ u ys) (hx : xs ≠ [])
    (hy : ys ≠ []) (hbelow : ∀ d x, t.Under st d x → x.key < key)
    (habove : ∀ d y, u.Under st d y → key < y.key) : t.SplitUndoesMerge st u key := by
  have hxs : ∀ x ∈ xs, x.key < key := by
    intro x hx
    obtain ⟨d, hd⟩ := h.rep.exists_under hx
    exact hbelow d x hd
  have hys : ∀ y ∈ ys, key < y.key := by
    intro y hy
    obtain ⟨d, hd⟩ := h'.rep.exists_under hy
    exact habove d y hd
  obtain ⟨t', S, he, ht', -⟩ := exec_appendMerge h.rep h'.rep hx hy
    (h.wellKeyed_append h' fun d x d' y hd hd' => (hbelow d x hd).trans (habove d' y hd'))
    h.lt_maxDepth
  refine ⟨t', S, he, fun seen hseen => ?_⟩
  have hrep : Rep st seen ℓ t' (xs ++ ys) := by
    rcases hseen with rfl | rfl
    · exact ht'.restart
    · exact ht'
  have hne : ∀ x ∈ xs ++ ys, x.key ≠ key := by
    intro x hx
    rcases List.mem_append.mp hx with hx | hx
    · exact (hxs x hx).ne
    · exact (hys x hx).ne'
  obtain ⟨left, right, S', he', hleft, hright, -⟩ :=
    exec_splitAround hrep (Nat.lt_of_succ_lt h.lt_maxDepth) hne
  rw [below_between hxs hys] at hleft
  rw [above_between hxs hys] at hright
  obtain ⟨l, rfl⟩ := hleft.eq_some hx
  obtain ⟨r, rfl⟩ := hright.eq_some hy
  exact ⟨l, r, S', cidAt ℓ xs, cidAt ℓ ys, he', (hleft.holds h.le).hasRoot, h.hasRoot,
    (hright.holds h.le).hasRoot, h'.hasRoot⟩

/-! ## Runs -/

omit [LawfulCodec Cid] in
/-- An operation on a key the tree does not take leaves the session as it was. -/
theorem Session.step_of_not_valid {s : Session Cid} {op : TreeOp Cid} (h : ¬op.Valid) :
    (s.step op).2 = s := by
  have hrefused : ∀ key, (ensureValidKey key : Except (RepoError Cid) Unit) ≠ .ok () →
      ∃ e, (ensureValidKey key : Except (RepoError Cid) Unit) = .error e := by
    intro key hne
    cases he : (ensureValidKey key : Except (RepoError Cid) Unit) with
    | ok u => exact absurd he hne
    | error e => exact ⟨e, rfl⟩
  cases op with
  | add key value =>
    obtain ⟨e, he⟩ := hrefused key h
    have hrun : s.run (s.tree.add key value) = .error e := by
      rw [run, Mst.add, Reader.exec_new, Mst.addIn, he, exec_bind, exec_ofExcept_error]
    rw [step, attempt, hrun]
    rfl
  | update key value =>
    obtain ⟨e, he⟩ := hrefused key h
    have hrun : s.run (s.tree.update key value) = .error e := by
      rw [run, Mst.update, Reader.exec_new]
      unfold maxDepth Mst.updateIn
      rw [he, exec_bind, exec_ofExcept_error]
    rw [step, attempt, hrun]
    rfl
  | delete key => exact absurd trivial h
  | get key => exact absurd trivial h
  | leaves => exact absurd trivial h
  | reload => exact absurd trivial h

/-- A session holds leaves after any operations, those that fail among them. -/
theorem Session.Holding.exists_steps {s : Session Cid} (h : s.Holding ℓ xs)
    (ops : List (TreeOp Cid)) : ∃ ℓ' xs', (s.steps ops).2.Holding ℓ' xs' := by
  induction ops generalizing s ℓ xs with
  | nil => exact ⟨ℓ, xs, h⟩
  | cons op ops ih =>
    rw [Session.steps]
    by_cases hv : op.Valid
    · obtain ⟨r, s', ℓ', xs', he, h', -⟩ := h.step hv
      rw [he]
      exact ih h'
    · rw [step_of_not_valid hv]
      exact ih h

/-- A session that some run of operations leaves. -/
def Session.Reachable (s : Session Cid) : Prop := ∃ ops, (Session.start.steps ops).2 = s

/-- Every tree a run of operations and reloads makes is balanced, as is all that splitting and
merging make of its nodes. Splitting and merging undo each other. -/
theorem balanced_exact {s : Session Cid} (h : s.Reachable) :
    (∀ t, Made s.store.lookup s.tree t → t.Balanced s.store.lookup) ∧
    (∀ t key, Made s.store.lookup s.tree t →
      (∀ d x, t.Under s.store.lookup d x → x.key ≠ key) →
      t.MergeUndoesSplit s.store.lookup key) ∧
    ∀ t u key m, Made s.store.lookup s.tree t → Made s.store.lookup s.tree u →
      t.Implies s.store.lookup m → u.Implies s.store.lookup m →
      (∀ d x, t.Under s.store.lookup d x → x.key < key) →
      (∀ d y, u.Under s.store.lookup d y → key < y.key) →
      t.SplitUndoesMerge s.store.lookup u key := by
  obtain ⟨ops, rfl⟩ := h
  obtain ⟨ℓ, xs, h⟩ := Session.holding_start.exists_steps ops
  have hroot : ∃ ℓ xs, Holds (Session.start.steps ops).2.store.lookup ℓ
      (Session.start.steps ops).2.tree xs := ⟨ℓ, xs, h.holds⟩
  refine ⟨fun t ht => ?_, fun t key ht hkey => ?_, fun t u key m ht hu hm hm' hbelow habove => ?_⟩
  · obtain ⟨m, ys, hm⟩ := ht.exists_holds hroot
    exact hm.rep.balanced
  · obtain ⟨m, ys, hm⟩ := ht.exists_holds hroot
    exact hm.mergeUndoesSplit hkey
  · obtain ⟨k, xs, hx⟩ := ht.exists_holds hroot
    obtain ⟨k', ys, hy⟩ := hu.exists_holds hroot
    obtain ⟨rfl, hnx⟩ := hx.eq_of_implies hm
    obtain ⟨rfl, hny⟩ := hy.eq_of_implies hm'
    exact hx.splitUndoesMerge hy hnx hny hbelow habove

open DagCbor in
/-- A tree read back from a store. -/
theorem balanced_exact_reload :
    ((Session.start : Session RawCid).steps
      [.add lowKey someRecord, .add highKey someRecord, .reload]).2.tree.Balanced
        ((Session.start : Session RawCid).steps
          [.add lowKey someRecord, .add highKey someRecord, .reload]).2.store.lookup :=
  (balanced_exact ⟨[.add lowKey someRecord, .add highKey someRecord, .reload], rfl⟩).1 _
    (.node (.here _))

end Manapds
