import Mathlib.Data.List.Chain
import Manapds.Repo.Shape

/-!
# What a tree in memory stands for

`Rep st S ℓ t xs` says that `t` is the node of layer `ℓ` over the leaves `xs`, as far as it has been
read: a layer or a CID it remembers is the right one, the entries it has read cover `xs` in order
with no two subtrees side by side, and what it has not read is in the store `st` and has not been
through the traversal that has seen `S`.

A traversal only comes to see nodes over leaves of the subtree it was sent into, so the subtrees
beside it still stand for what they did.
-/

namespace Manapds

open KeyedList Shape

variable {Cid : Type}

namespace Entry

def isTree : Entry Cid → Bool
  | .leaf _ => false
  | .tree _ => true

/-- Not two subtrees. -/
def Apart (e e' : Entry Cid) : Prop := e.isTree = false ∨ e'.isTree = false

end Entry

variable [Codec Cid]

/-- The leaves one entry of a node stands for. -/
def Entry.Covers (R : Mst Cid → List (Leaf Cid) → Prop) (ℓ : ℕ) :
    Entry Cid → List (Leaf Cid) → Prop
  | .leaf x, ys => ys = [x] ∧ x.zeros = ℓ
  | .tree t, ys => ys ≠ [] ∧ FitsUnder ℓ ys ∧ R t ys

/-- The leaves the entries of a node stand for, where its subtrees stand for theirs by `R`. -/
inductive Covers (R : Mst Cid → List (Leaf Cid) → Prop) (ℓ : ℕ) :
    List (Entry Cid) → List (Leaf Cid) → Prop where
  | nil : Covers R ℓ [] []
  | cons {e : Entry Cid} {es : List (Entry Cid)} {ys xs : List (Leaf Cid)} :
      e.Covers R ℓ ys → Covers R ℓ es xs → Covers R ℓ (e :: es) (ys ++ xs)

structure Shows (R : Mst Cid → List (Leaf Cid) → Prop) (ℓ : ℕ) (es : List (Entry Cid))
    (xs : List (Leaf Cid)) : Prop where
  covers : Covers R ℓ es xs
  apart : es.IsChain Entry.Apart

section

variable {R R' : Mst Cid → List (Leaf Cid) → Prop} {ℓ : ℕ} {es es' : List (Entry Cid)}
  {xs ys : List (Leaf Cid)} {x : Leaf Cid} {t : Mst Cid}

theorem covers_append : Covers R ℓ (es ++ es') xs ↔
    ∃ ys zs, xs = ys ++ zs ∧ Covers R ℓ es ys ∧ Covers R ℓ es' zs := by
  constructor
  · intro h
    induction es generalizing xs with
    | nil => exact ⟨[], xs, rfl, .nil, h⟩
    | cons e es ih =>
      cases h with
      | cons he h =>
        obtain ⟨ys, zs, rfl, hy, hz⟩ := ih h
        exact ⟨_, zs, (List.append_assoc _ _ _).symm, .cons he hy, hz⟩
  · rintro ⟨ys, zs, rfl, hy, hz⟩
    induction hy with
    | nil => exact hz
    | cons he _ ih =>
      rw [List.append_assoc]
      exact .cons he ih

theorem covers_leaf : Covers R ℓ (.leaf x :: es) xs ↔
    ∃ zs, xs = x :: zs ∧ x.zeros = ℓ ∧ Covers R ℓ es zs := by
  constructor
  · intro h
    cases h with
    | cons he h => exact ⟨_, by rw [he.1]; rfl, he.2, h⟩
  · rintro ⟨zs, rfl, hx, h⟩
    have he : (Entry.leaf x).Covers R ℓ [x] := ⟨rfl, hx⟩
    exact .cons he h

theorem covers_tree : Covers R ℓ (.tree t :: es) xs ↔
    ∃ ys zs, xs = ys ++ zs ∧ ys ≠ [] ∧ FitsUnder ℓ ys ∧ R t ys ∧ Covers R ℓ es zs := by
  constructor
  · intro h
    cases h with
    | cons he h => exact ⟨_, _, rfl, he.1, he.2.1, he.2.2, h⟩
  · rintro ⟨ys, zs, rfl, hn, hu, hr, h⟩
    exact .cons ⟨hn, hu, hr⟩ h

theorem covers_nil : Covers R ℓ [] xs ↔ xs = [] :=
  ⟨fun h => by cases h; rfl, fun h => h ▸ .nil⟩

theorem Covers.imp (h : Covers R ℓ es xs)
    (hr : ∀ t ys, ys.Sublist xs → ys ≠ [] → R t ys → R' t ys) : Covers R' ℓ es xs := by
  induction h with
  | nil => exact .nil
  | @cons e es ys xs he h ih =>
    refine .cons ?_ (ih fun t zs hz => hr t zs (hz.trans (List.sublist_append_right ys xs)))
    cases e with
    | leaf x => exact he
    | tree t => exact ⟨he.1, he.2.1, hr t ys (List.sublist_append_left ys xs) he.1 he.2.2⟩

theorem Shows.imp (h : Shows R ℓ es xs)
    (hr : ∀ t ys, ys.Sublist xs → ys ≠ [] → R t ys → R' t ys) : Shows R' ℓ es xs :=
  ⟨h.covers.imp hr, h.apart⟩

theorem Shows.nil : Shows R ℓ [] [] := ⟨.nil, List.isChain_nil⟩

/-- A leaf between entries. -/
theorem Shows.leaf {xpre xpost : List (Leaf Cid)} (h : Shows R ℓ es xpre) (hx : x.zeros = ℓ)
    (h' : Shows R ℓ es' xpost) : Shows R ℓ (es ++ .leaf x :: es') (xpre ++ x :: xpost) := by
  refine ⟨covers_append.mpr ⟨_, _, rfl, h.covers, covers_leaf.mpr ⟨_, rfl, hx, h'.covers⟩⟩, ?_⟩
  refine List.isChain_append.mpr ⟨h.apart, List.isChain_cons.mpr ⟨fun _ _ => Or.inl rfl, h'.apart⟩,
    ?_⟩
  rintro _ _ _ ⟨⟩
  exact Or.inr rfl

/-- A subtree between entries that are leaves on either side of it. -/
theorem Shows.tree {xpre xpost : List (Leaf Cid)} (h : Shows R ℓ es xpre)
    (hl : ∀ e ∈ es.getLast?, e.isTree = false) (hne : ys ≠ []) (hfu : FitsUnder ℓ ys) (ht : R t ys)
    (h' : Shows R ℓ es' xpost) (hh : ∀ e ∈ es'.head?, e.isTree = false) :
    Shows R ℓ (es ++ .tree t :: es') (xpre ++ (ys ++ xpost)) := by
  refine ⟨covers_append.mpr ⟨_, _, rfl, h.covers, covers_tree.mpr ⟨_, _, rfl, hne, hfu, ht,
    h'.covers⟩⟩, ?_⟩
  refine List.isChain_append.mpr ⟨h.apart, List.isChain_cons.mpr
    ⟨fun e he => Or.inr (hh e he), h'.apart⟩, fun e he _ _ => Or.inl (hl e he)⟩

/-- Entries that meet at a leaf on one side. -/
theorem Shows.append {xpre xpost : List (Leaf Cid)} (h : Shows R ℓ es xpre)
    (h' : Shows R ℓ es' xpost) (hm : (∀ e ∈ es.getLast?, e.isTree = false) ∨
      ∀ e ∈ es'.head?, e.isTree = false) : Shows R ℓ (es ++ es') (xpre ++ xpost) := by
  refine ⟨covers_append.mpr ⟨_, _, rfl, h.covers, h'.covers⟩,
    List.isChain_append.mpr ⟨h.apart, h'.apart, fun e he e' he' => ?_⟩⟩
  exact hm.imp (fun hl => hl e he) fun hh => hh e' he'

theorem Covers.eq_nil_iff (h : Covers R ℓ es xs) : xs = [] ↔ es = [] := by
  cases h with
  | nil => simp
  | @cons e es ys xs he h =>
    have hy : ys ≠ [] := by
      cases e with
      | leaf x => simp [he.1]
      | tree t => exact he.1
    simp [hy]

end

/-- Whether subtrees stand side by side depends on which entries are subtrees alone. -/
theorem Shows.of_kinds {R R' : Mst Cid → List (Leaf Cid) → Prop} {ℓ ℓ' : ℕ}
    {es es' : List (Entry Cid)} {xs ys : List (Leaf Cid)} (h : Shows R ℓ es xs)
    (hc : Covers R' ℓ' es' ys) (hk : es'.map Entry.isTree = es.map Entry.isTree) :
    Shows R' ℓ' es' ys := by
  refine ⟨hc, ?_⟩
  have hm : ∀ l : List (Entry Cid), l.IsChain Entry.Apart ↔
      (l.map Entry.isTree).IsChain fun a b => a = false ∨ b = false := by
    intro l
    rw [List.isChain_map]
    rfl
  rw [hm, hk, ← hm]
  exact h.apart

theorem Covers.fits {R : Mst Cid → List (Leaf Cid) → Prop} {ℓ : ℕ} {es : List (Entry Cid)}
    {xs : List (Leaf Cid)} (h : Covers R ℓ es xs) : Fits ℓ xs := by
  induction h with
  | nil => simp [Fits]
  | @cons e es ys xs he h ih =>
    intro x hx
    rcases List.mem_append.mp hx with hx | hx
    · cases e with
      | leaf y =>
        obtain ⟨rfl, hy⟩ := he
        rw [List.mem_singleton.mp hx, hy]
      | tree t => exact (he.2.1 x hx).le
    · exact ih x hx

/-! ## Nodes in a store -/

def Stored (st : Cid → Option Bytes) (ℓ : ℕ) (xs : List (Leaf Cid)) : Prop :=
  ∀ p ∈ nodesOf ℓ xs, st (cidAt p.1 p.2) = some (blockAt p.1 p.2)

def Unseen (S : List Cid) (ℓ : ℕ) (xs : List (Leaf Cid)) : Prop :=
  ∀ p ∈ nodesOf ℓ xs, cidAt p.1 p.2 ∉ S

/-- A node over some of these leaves. -/
def Owned (xs : List (Leaf Cid)) (c : Cid) : Prop :=
  ∃ ℓ ys, ys.Sublist xs ∧ Fits ℓ ys ∧ c = cidAt ℓ ys

/-- A traversal that had seen `S` has since seen nodes over these leaves at most. -/
def Grows (xs : List (Leaf Cid)) (S S' : List Cid) : Prop := ∀ c ∈ S', c ∈ S ∨ Owned xs c

structure RepNode (st : Cid → Option Bytes) (S : List Cid) (ℓ : ℕ)
    (R : Mst Cid → List (Leaf Cid) → Prop) (t : Mst Cid) (xs : List (Leaf Cid)) : Prop where
  keyed : WellKeyed xs
  fits : Fits ℓ xs
  layer : t.layer? = none ∨ t.layer? = some ℓ
  pointer : t.pointer? = none ∨ t.pointer? = some (cidAt ℓ xs)
  loaded : ∀ es, t.entries? = some es → Shows R ℓ es xs
  unread : t.entries? = none → t.pointer? = some (cidAt ℓ xs) ∧ Stored st ℓ xs ∧ Unseen S ℓ xs

def Rep (st : Cid → Option Bytes) (S : List Cid) : ℕ → Mst Cid → List (Leaf Cid) → Prop
  | 0 => RepNode st S 0 fun _ _ => False
  | ℓ + 1 => RepNode st S (ℓ + 1) (Rep st S ℓ)

/-- What a subtree of a node at a layer stands for. -/
def RepUnder (st : Cid → Option Bytes) (S : List Cid) : ℕ → Mst Cid → List (Leaf Cid) → Prop
  | 0 => fun _ _ => False
  | ℓ + 1 => Rep st S ℓ

variable {st st' : Cid → Option Bytes} {S S' : List Cid} {ℓ : ℕ} {t : Mst Cid}
  {xs ys : List (Leaf Cid)}

theorem rep_iff : Rep st S ℓ t xs ↔ RepNode st S ℓ (RepUnder st S ℓ) t xs := by
  cases ℓ <;> rfl

theorem Rep.keyed (h : Rep st S ℓ t xs) : WellKeyed xs := (rep_iff.mp h).keyed

theorem Rep.fits (h : Rep st S ℓ t xs) : Fits ℓ xs := (rep_iff.mp h).fits

/-- A node in memory, from what its entries stand for. -/
theorem rep_mk {es : List (Entry Cid)} {layer : Option ℕ} {pointer : Option Cid}
    (hk : WellKeyed xs) (hs : Shows (RepUnder st S ℓ) ℓ es xs) (hl : layer = none ∨ layer = some ℓ)
    (hp : pointer = none ∨ pointer = some (cidAt ℓ xs)) :
    Rep st S ℓ (.mk (some es) layer pointer) xs := by
  refine rep_iff.mpr ⟨hk, hs.covers.fits, hl, hp, fun es' he => ?_, fun hn => by cases hn⟩
  cases he
  exact hs

theorem Grows.refl (xs : List (Leaf Cid)) (S : List Cid) : Grows xs S S := fun _ hc => Or.inl hc

theorem Owned.mono (hs : ys.Sublist xs) {c : Cid} (h : Owned ys c) : Owned xs c := by
  obtain ⟨ℓ, zs, hz, hf, rfl⟩ := h
  exact ⟨ℓ, zs, hz.trans hs, hf, rfl⟩

theorem Grows.mono (hs : ys.Sublist xs) (h : Grows ys S S') : Grows xs S S' :=
  fun c hc => (h c hc).imp_right (Owned.mono hs)

theorem Grows.middle {xpre xpost : List (Leaf Cid)} (hg : Grows ys S S') : Grows (xpre ++ (ys ++ xpost)) S S' :=
  hg.mono ((List.sublist_append_left ys xpost).trans (List.sublist_append_right xpre _))

theorem Grows.trans {S'' : List Cid} (h : Grows xs S S') (h' : Grows xs S' S'') : Grows xs S S'' :=
  fun c hc => (h' c hc).elim (h c) Or.inr

theorem owned_cidAt (hf : Fits ℓ xs) : Owned xs (cidAt ℓ xs) :=
  ⟨ℓ, xs, List.Sublist.refl xs, hf, rfl⟩

theorem Grows.cons (hf : Fits ℓ xs) : Grows xs S (cidAt ℓ xs :: S) := by
  intro c hc
  rcases List.mem_cons.mp hc with rfl | hc
  · exact Or.inr (owned_cidAt hf)
  · exact Or.inl hc

theorem Rep.imp {S' : List Cid} (h : Rep st S ℓ t xs)
    (hst : ∀ ℓ' ys, ys.Sublist xs → (ys = [] → xs = []) → Fits ℓ' ys → Stored st ℓ' ys →
      Unseen S ℓ' ys → Stored st' ℓ' ys ∧ Unseen S' ℓ' ys) : Rep st' S' ℓ t xs := by
  induction ℓ generalizing t xs with
  | zero =>
    refine ⟨h.keyed, h.fits, h.layer, h.pointer, h.loaded, fun hn => ?_⟩
    obtain ⟨hp, hs, hu⟩ := RepNode.unread h hn
    exact ⟨hp, hst 0 xs (List.Sublist.refl xs) id h.fits hs hu⟩
  | succ ℓ ih =>
    have h' : RepNode st S (ℓ + 1) (Rep st S ℓ) t xs := h
    refine ⟨h'.keyed, h'.fits, h'.layer, h'.pointer, fun es hes => ?_, fun hn => ?_⟩
    · refine (h'.loaded es hes).imp fun u ys hy hne hr => ih hr ?_
      intro ℓ' zs hz hzn hf hs hu
      exact hst ℓ' zs (hz.trans hy) (fun hn => absurd (hzn hn) hne) hf hs hu
    · obtain ⟨hp, hs, hu⟩ := h'.unread hn
      exact ⟨hp, hst (ℓ + 1) xs (List.Sublist.refl xs) id h'.fits hs hu⟩

/-- A store that keeps what it held keeps a tree readable. -/
theorem Rep.mono_store (hst : ∀ c b, st c = some b → st' c = some b) (h : Rep st S ℓ t xs) :
    Rep st' S ℓ t xs :=
  h.imp fun _ _ _ _ _ hs hu => ⟨fun p hp => hst _ _ (hs p hp), hu⟩

/-- A traversal may always start over. -/
theorem Rep.restart (h : Rep st S ℓ t xs) : Rep st [] ℓ t xs :=
  h.imp fun _ _ _ _ _ hs _ => ⟨hs, fun _ _ => List.not_mem_nil⟩

section

variable [LawfulCodec Cid]

/-- No node over some leaves is over others. -/
theorem not_owned_of_disjoint {ℓ' : ℕ} (hx : WellKeyed xs) (hy : WellKeyed ys) (hf : Fits ℓ' xs)
    (hne : xs ≠ []) (hd : xs.Disjoint ys) : ¬ Owned ys (cidAt ℓ' xs) := by
  rintro ⟨m, zs, hz, hfz, he⟩
  obtain ⟨-, rfl⟩ := cidAt_inj hx (hy.sublist hz) hf hfz hne he
  obtain ⟨x, xs', rfl⟩ := List.exists_cons_of_ne_nil hne
  exact hd List.mem_cons_self (hz.subset List.mem_cons_self)

/-- The subtree beside the one a traversal went into stands for what it did. -/
theorem Rep.frame (h : Rep st S ℓ t xs) (hg : Grows ys S S') (hy : WellKeyed ys)
    (hne : xs ≠ []) (hd : xs.Disjoint ys) : Rep st S' ℓ t xs := by
  have hx := h.keyed
  refine h.imp fun ℓ' zs hz hzn hf hs hu => ⟨hs, fun p hp hm => ?_⟩
  obtain ⟨-, hp2, hp3, hp4⟩ := of_mem_nodesOf hf hp
  rcases hg _ hm with hm | hm
  · exact hu p hp hm
  · have hpz : p.2 ≠ [] := by
      intro hn
      have := hp4 hn
      rw [this] at hn
      exact hne (hzn hn)
    exact not_owned_of_disjoint (hx.sublist (hp2.trans hz)) hy hp3 hpz
      (fun x hx hy => hd ((hp2.trans hz).subset hx) hy) hm

theorem RepUnder.frame (h : RepUnder st S ℓ t xs) (hg : Grows ys S S') (hy : WellKeyed ys)
    (hne : xs ≠ []) (hd : xs.Disjoint ys) : RepUnder st S' ℓ t xs := by
  cases ℓ with
  | zero => exact h
  | succ ℓ => exact Rep.frame h hg hy hne hd

theorem Covers.frame {es : List (Entry Cid)} (h : Covers (RepUnder st S ℓ) ℓ es xs)
    (hg : Grows ys S S') (hy : WellKeyed ys) (hd : xs.Disjoint ys) :
    Covers (RepUnder st S' ℓ) ℓ es xs :=
  h.imp fun _ _ hz hne hr => hr.frame hg hy hne (fun _ hx hy => hd (hz.subset hx) hy)

theorem Shows.frame {es : List (Entry Cid)} (h : Shows (RepUnder st S ℓ) ℓ es xs)
    (hg : Grows ys S S') (hy : WellKeyed ys) (hd : xs.Disjoint ys) :
    Shows (RepUnder st S' ℓ) ℓ es xs := ⟨h.covers.frame hg hy hd, h.apart⟩

end

end Manapds
