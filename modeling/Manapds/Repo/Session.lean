import Manapds.Repo.DagCbor
import Manapds.Repo.Operations

/-!
# A tree over a run of operations

A session is a tree and the store it is saved to. It starts empty and takes one operation after
another; a `reload` merges the blocks the store lacks into it and starts over from the root CID. An
operation that fails leaves the session as it was.

`MapStep` is what a finite map does for the same operation. Every session follows it, whichever
layers its nodes are cached at and however much of it is in memory.
-/

namespace Manapds

open KeyedList Shape QueryProgram Routine

variable {Cid : Type}

inductive TreeOp (Cid : Type) where
  | add (key : Str) (value : Cid)
  | update (key : Str) (value : Cid)
  | delete (key : Str)
  | get (key : Str)
  | leaves
  | reload

inductive TreeAnswer (Cid : Type) where
  | done
  | value (found : Option Cid)
  | leaves (found : List (Leaf Cid))

/-- The keys an operation writes are keys the tree takes. -/
def TreeOp.Valid : TreeOp Cid → Prop
  | .add key _ => (ensureValidKey key : Except (RepoError Cid) Unit) = .ok ()
  | .update key _ => (ensureValidKey key : Except (RepoError Cid) Unit) = .ok ()
  | _ => True

structure Session (Cid : Type) where
  tree : Mst Cid
  store : BlockMap Cid

namespace Session

variable [Codec Cid] [DecidableEq Cid]

def start : Session Cid := ⟨.empty, ∅⟩

/-- What an operation that reads the session's store comes to. -/
def run {α : Type} (s : Session Cid) (r : Reads Cid Unit α) : Except (RepoError Cid) α :=
  (exec (Store.answer s.store.lookup) r ()).1

def attempt (s : Session Cid) : TreeOp Cid → Except (RepoError Cid) (TreeAnswer Cid × Session Cid)
  | .add key value => do return (.done, ⟨← s.run (s.tree.add key value), s.store⟩)
  | .update key value => do return (.done, ⟨← s.run (s.tree.update key value), s.store⟩)
  | .delete key => do return (.done, ⟨← s.run (s.tree.delete key), s.store⟩)
  | .get key => do
    let (found, tree) ← s.run (s.tree.get key)
    return (.value found, ⟨tree, s.store⟩)
  | .leaves => do
    let (found, tree) ← s.run s.tree.leaves
    return (.leaves found, ⟨tree, s.store⟩)
  | .reload => do
    let ((root, blocks), _) ← s.run s.tree.unstoredBlocks
    return (.done, ⟨.load root, s.store.merge blocks⟩)

def step (s : Session Cid) (op : TreeOp Cid) :
    Except (RepoError Cid) (TreeAnswer Cid) × Session Cid :=
  match s.attempt op with
  | .ok (answer, s') => (.ok answer, s')
  | .error e => (.error e, s)

/-- The root CID of the tree as it stands. -/
def root (s : Session Cid) : Except (RepoError Cid) Cid := (s.run s.tree.root).map Prod.fst

/-- The answers to a run of operations, and the session after them. -/
def steps : Session Cid → List (TreeOp Cid) →
    List (Except (RepoError Cid) (TreeAnswer Cid)) × Session Cid
  | s, [] => ([], s)
  | s, op :: ops => ((s.step op).1 :: ((s.step op).2.steps ops).1, ((s.step op).2.steps ops).2)

end Session

/-! ## What a finite map does -/

/-- One operation on a finite map: what it answers and the map after it. -/
inductive MapStep : (Str → Option Cid) → TreeOp Cid →
    Except (RepoError Cid) (TreeAnswer Cid) → (Str → Option Cid) → Prop where
  | add {m : Str → Option Cid} {key : Str} (value : Cid) (h : m key = none) :
      MapStep m (.add key value) (.ok .done) (Function.update m key (some value))
  | addExists {m : Str → Option Cid} {key : Str} (value : Cid) (h : m key ≠ none) :
      MapStep m (.add key value) (.error (.keyExists key)) m
  | update {m : Str → Option Cid} {key : Str} (value : Cid) (h : m key ≠ none) :
      MapStep m (.update key value) (.ok .done) (Function.update m key (some value))
  | updateMissing {m : Str → Option Cid} {key : Str} (value : Cid) (h : m key = none) :
      MapStep m (.update key value) (.error (.keyMissing key)) m
  | delete {m : Str → Option Cid} {key : Str} (h : m key ≠ none) :
      MapStep m (.delete key) (.ok .done) (Function.update m key none)
  | deleteMissing {m : Str → Option Cid} {key : Str} (h : m key = none) :
      MapStep m (.delete key) (.error (.keyMissing key)) m
  | get {m : Str → Option Cid} {key : Str} : MapStep m (.get key) (.ok (.value (m key))) m
  | leaves {m : Str → Option Cid} {xs : List (Leaf Cid)} (ho : Ordered Leaf.key xs)
      (hm : ∀ key value, (⟨key, value⟩ : Leaf Cid) ∈ xs ↔ m key = some value) :
      MapStep m .leaves (.ok (.leaves xs)) m
  | reload {m : Str → Option Cid} : MapStep m .reload (.ok .done) m

inductive MapSteps : (Str → Option Cid) → List (TreeOp Cid) →
    List (Except (RepoError Cid) (TreeAnswer Cid)) → (Str → Option Cid) → Prop where
  | nil {m : Str → Option Cid} : MapSteps m [] [] m
  | cons {m m' m'' : Str → Option Cid} {op : TreeOp Cid} {ops : List (TreeOp Cid)}
      {r : Except (RepoError Cid) (TreeAnswer Cid)}
      {rs : List (Except (RepoError Cid) (TreeAnswer Cid))} :
      MapStep m op r m' → MapSteps m' ops rs m'' → MapSteps m (op :: ops) (r :: rs) m''

/-- What an operation that succeeds makes of a map. -/
def TreeOp.apply (m : Str → Option Cid) : TreeOp Cid → Str → Option Cid
  | .add key value => Function.update m key (some value)
  | .update key value => Function.update m key (some value)
  | .delete key => Function.update m key none
  | _ => m

/-- The key-to-value map a run of operations ends with, where all of them succeed. -/
def mapAfter (ops : List (TreeOp Cid)) : Str → Option Cid := ops.foldl TreeOp.apply fun _ => none

theorem MapSteps.eq_foldl {m m' : Str → Option Cid} {ops : List (TreeOp Cid)}
    {rs : List (Except (RepoError Cid) (TreeAnswer Cid))} (h : MapSteps m ops rs m')
    (hs : ∀ r ∈ rs, r.isOk = true) : m' = ops.foldl TreeOp.apply m := by
  induction h with
  | nil => rfl
  | cons hstep _ ih =>
    rw [ih fun r hr => hs r (List.mem_cons_of_mem _ hr)]
    have hok := hs _ List.mem_cons_self
    cases hstep <;> first | rfl | cases hok

/-- The map a list of leaves is. -/
def contentsOf (xs : List (Leaf Cid)) : Str → Option Cid := fun key =>
  (find Leaf.key key xs).map Leaf.value

section

variable {xs : List (Leaf Cid)} {key : Str}

theorem contentsOf_eq_none : contentsOf xs key = none ↔ ∀ x ∈ xs, x.key ≠ key := by
  rw [contentsOf, Option.map_eq_none_iff, find_eq_none]

theorem contentsOf_ne_none : contentsOf xs key ≠ none ↔ ∃ x ∈ xs, x.key = key := by
  rw [Ne, contentsOf_eq_none]
  push Not
  rfl

theorem contentsOf_put (h : Ordered Leaf.key xs) (x : Leaf Cid) :
    contentsOf (put Leaf.key x xs) = Function.update (contentsOf xs) x.key (some x.value) := by
  funext key
  rw [contentsOf, h.find_put, Function.update_apply]
  by_cases hk : x.key = key
  · simp [hk]
  · simp [hk, Ne.symm hk, contentsOf]

theorem contentsOf_take (h : Ordered Leaf.key xs) (key : Str) :
    contentsOf (take Leaf.key key xs) = Function.update (contentsOf xs) key none := by
  funext k
  rw [contentsOf, h.find_take, Function.update_apply]
  by_cases hk : key = k
  · simp [hk]
  · simp [hk, Ne.symm hk, contentsOf]

theorem mem_iff_contentsOf (h : Ordered Leaf.key xs) (key : Str) (value : Cid) :
    ⟨key, value⟩ ∈ xs ↔ contentsOf xs key = some value := by
  rw [contentsOf, Option.map_eq_some_iff]
  constructor
  · exact fun hm => ⟨⟨key, value⟩, h.find_eq_some.mpr ⟨hm, rfl⟩, rfl⟩
  · rintro ⟨x, hx, rfl⟩
    obtain ⟨hm, rfl⟩ := h.find_eq_some.mp hx
    exact hm

/-- Leaves in order are determined by the map they are. -/
theorem eq_of_contentsOf_eq {ys : List (Leaf Cid)} (hx : Ordered Leaf.key xs)
    (hy : Ordered Leaf.key ys) (h : contentsOf xs = contentsOf ys) : xs = ys := by
  refine hx.ext hy fun x => ?_
  rw [mem_iff_contentsOf hx x.key x.value, mem_iff_contentsOf hy x.key x.value, h]

end

/-! ## Every session follows the map -/

/-- A session whose tree holds these leaves, over a store with whole trees in it. -/
structure Session.Holding [Codec Cid] [DecidableEq Cid] (s : Session Cid) (ℓ : ℕ)
    (xs : List (Leaf Cid)) : Prop where
  holds : Holds s.store.lookup ℓ s.tree xs
  closed : Closed s.store.lookup
  sound : s.store.Sound

section

variable [Codec Cid] [DecidableEq Cid] {s : Session Cid} {ℓ : ℕ} {xs : List (Leaf Cid)}

/-- A key added to a tree with no entry in memory that remembers a layer above the key's own: one
that deletes emptied, since a tree that is only loaded remembers none. -/
def Session.stale (s : Session Cid) : TreeOp Cid → Bool
  | .add key _ => (s.tree.entries?.getD []).isEmpty &&
      s.tree.layer?.any fun layer => leadingZeros Cid key < layer
  | _ => false

theorem Session.holding_start : (Session.start : Session Cid).Holding 0 [] := by
  refine ⟨holds_empty, fun ℓ xs _ _ h => ?_, BlockMap.Sound.empty⟩
  simp [Session.start] at h

/-- Short of a stale step, an empty tree is at no layer above the key added to it. -/
theorem Session.Holding.layerOf_le {key : Str} {value : Cid} (h : s.Holding ℓ xs) (hx : xs = [])
    (hs : s.stale (.add key value) = false) : layerOf s.tree ℓ xs ≤ leadingZeros Cid key := by
  subst hx
  have hentries : s.tree.entries?.getD [] = [] := by
    cases he : s.tree.entries? with
    | none => rfl
    | some es => exact ((rep_iff.mp h.holds.rep).loaded es he).covers.eq_nil_iff.mp rfl
  have hlayer : layerOf s.tree ℓ [] = s.tree.layer?.getD 0 := if_pos rfl
  rw [hlayer]
  cases hl : s.tree.layer? with
  | none => exact Nat.zero_le _
  | some layer => simpa [Session.stale, hentries, hl] using hs

variable [LawfulCodec Cid]

/-- Storing what is unstored leaves whole trees in the store. -/
theorem Session.Holding.reload (h : s.Holding ℓ xs) {blocks : BlockMap Cid} (hs : blocks.Sound)
    (hm : ∀ c, c ∈ blocks ↔ s.store.lookup c = none ∧ ∃ p ∈ nodesOf ℓ xs, c = cidAt p.1 p.2) :
    (⟨.load (cidAt ℓ xs), s.store.merge blocks⟩ : Session Cid).Holding ℓ xs := by
  have hst : ∀ c, (s.store.merge blocks).lookup c = (blocks.lookup c).or (s.store.lookup c) :=
    BlockMap.lookup_merge s.store blocks
  obtain ⟨hstored, hclosed⟩ := h.closed.grow h.holds.keyed h.holds.fits hs hm hst
  exact ⟨holds_load h.holds.keyed h.holds.fits h.holds.le hstored, hclosed, h.sound.merge hs⟩

/-- One operation: what a map does, and a tree at the layer of its highest leaf stays there unless
the step goes wrong. -/
theorem Session.Holding.step (h : s.Holding ℓ xs) {op : TreeOp Cid} (hv : op.Valid) :
    ∃ r s' ℓ' xs', s.step op = (r, s') ∧ s'.Holding ℓ' xs' ∧
      MapStep (contentsOf xs) op r (contentsOf xs') ∧
      (s.stale op = false → AtTop ℓ xs → AtTop ℓ' xs') := by
  have ho := h.holds.keyed.ordered
  cases op with
  | add key value =>
    by_cases hkey : ∃ x ∈ xs, x.key = key
    · have he := exec_add_exists () h.holds hv hkey value
      refine ⟨.error (.keyExists key), s, ℓ, xs, ?_, h,
        .addExists value (contentsOf_ne_none.mpr hkey), fun _ htop => htop⟩
      simp only [Session.step, Session.attempt, Session.run, he]
      rfl
    · push Not at hkey
      obtain ⟨t', he, ht⟩ := exec_add () h.holds hv hkey value
      refine ⟨.ok .done, ⟨t', s.store⟩, _, _, ?_, ⟨ht, h.closed, h.sound⟩, ?_, ?_⟩
      · simp only [Session.step, Session.attempt, Session.run, he]
        rfl
      · rw [contentsOf_put ho]
        exact .add value (contentsOf_eq_none.mpr hkey)
      · intro hstale htop _
        have hzeros : leadingZeros Cid key = (⟨key, value⟩ : Leaf Cid).zeros := rfl
        refine (topLayer_put h.holds.fits htop ?_ hkey).symm
        rw [← hzeros]
        split_ifs with hx
        · exact max_eq_right (h.layerOf_le hx hstale)
        · rw [layerOf_of_ne _ _ hx]
  | update key value =>
    by_cases hkey : ∃ x ∈ xs, x.key = key
    · obtain ⟨t', he, ht⟩ := exec_update () h.holds hv hkey value
      refine ⟨.ok .done, ⟨t', s.store⟩, _, _, ?_, ⟨ht, h.closed, h.sound⟩, ?_, ?_⟩
      · simp only [Session.step, Session.attempt, Session.run, he]
        rfl
      · rw [contentsOf_put ho]
        exact .update value (contentsOf_ne_none.mpr hkey)
      · exact fun _ htop _ => (topLayer_put_of_mem h.holds.fits htop hkey).symm
    · push Not at hkey
      have he := exec_update_missing () h.holds hv hkey value
      refine ⟨.error (.keyMissing key), s, ℓ, xs, ?_, h,
        .updateMissing value (contentsOf_eq_none.mpr hkey), fun _ htop => htop⟩
      simp only [Session.step, Session.attempt, Session.run, he]
      rfl
  | delete key =>
    by_cases hkey : ∃ x ∈ xs, x.key = key
    · obtain ⟨ℓ', t', he, ht, htop⟩ := exec_delete () h.holds hkey
      refine ⟨.ok .done, ⟨t', s.store⟩, _, _, ?_, ⟨ht, h.closed, h.sound⟩, ?_, fun _ _ => htop⟩
      · simp only [Session.step, Session.attempt, Session.run, he]
        rfl
      · rw [contentsOf_take ho]
        exact .delete (contentsOf_ne_none.mpr hkey)
    · push Not at hkey
      have he := exec_delete_missing () h.holds hkey
      refine ⟨.error (.keyMissing key), s, ℓ, xs, ?_, h,
        .deleteMissing (contentsOf_eq_none.mpr hkey), fun _ htop => htop⟩
      simp only [Session.step, Session.attempt, Session.run, he]
      rfl
  | get key =>
    obtain ⟨t', he, ht⟩ := exec_get () h.holds key
    refine ⟨.ok (.value (contentsOf xs key)), ⟨t', s.store⟩, ℓ, xs, ?_, ⟨ht, h.closed, h.sound⟩,
      .get, fun _ htop => htop⟩
    simp only [Session.step, Session.attempt, Session.run, he]
    rfl
  | leaves =>
    obtain ⟨t', he, ht⟩ := exec_leaves () h.holds
    refine ⟨.ok (.leaves xs), ⟨t', s.store⟩, ℓ, xs, ?_, ⟨ht, h.closed, h.sound⟩,
      .leaves ho (mem_iff_contentsOf ho), fun _ htop => htop⟩
    simp only [Session.step, Session.attempt, Session.run, he]
    rfl
  | reload =>
    obtain ⟨blocks, t', he, -, hs, hm⟩ := exec_unstoredBlocks () h.holds h.closed
    refine ⟨.ok .done, ⟨.load (cidAt ℓ xs), s.store.merge blocks⟩, ℓ, xs, ?_, h.reload hs hm,
      .reload, fun _ htop => htop⟩
    simp only [Session.step, Session.attempt, Session.run, he]
    rfl

/-- No step of a run is stale. -/
def Session.fresh : Session Cid → List (TreeOp Cid) → Bool
  | _, [] => true
  | s, op :: ops => !s.stale op && Session.fresh (s.step op).2 ops

theorem Session.Holding.steps {ops : List (TreeOp Cid)} (h : s.Holding ℓ xs)
    (hv : ∀ op ∈ ops, op.Valid) : ∃ ℓ' xs', (s.steps ops).2.Holding ℓ' xs' ∧
      MapSteps (contentsOf xs) ops (s.steps ops).1 (contentsOf xs') ∧
      (s.fresh ops = true → AtTop ℓ xs → AtTop ℓ' xs') := by
  induction ops generalizing s ℓ xs with
  | nil => exact ⟨ℓ, xs, h, .nil, fun _ htop => htop⟩
  | cons op ops ih =>
    obtain ⟨r, s', ℓ', xs', he, h', hstep, htop⟩ := h.step (hv op List.mem_cons_self)
    obtain ⟨ℓ'', xs'', h'', hsteps, htop'⟩ := ih h' fun o ho => hv o (List.mem_cons_of_mem op ho)
    rw [Session.steps, he]
    refine ⟨ℓ'', xs'', h'', .cons hstep hsteps, fun hfresh ha => ?_⟩
    rw [Session.fresh, he, Bool.and_eq_true, Bool.not_eq_true'] at hfresh
    exact htop' hfresh.2 (htop hfresh.1 ha)

/-- The tree refines a finite map, over every run of operations and reloads. -/
theorem steps_follow_map {ops : List (TreeOp Cid)} (hv : ∀ op ∈ ops, op.Valid) :
    ∃ m, MapSteps (fun _ => none) ops ((Session.start : Session Cid).steps ops).1 m := by
  obtain ⟨-, xs, -, h, -⟩ := Session.holding_start.steps hv
  exact ⟨contentsOf xs, h⟩

/-! ## History independence -/

def Session.Succeeds (s : Session Cid) (ops : List (TreeOp Cid)) : Prop :=
  ∀ r ∈ (s.steps ops).1, r.isOk = true

/-- Two runs that end with the same map end with the same root, where neither has a stale step. -/
theorem root_eq_of_fresh {ops ops' : List (TreeOp Cid)} (hv : ∀ op ∈ ops, op.Valid)
    (hv' : ∀ op ∈ ops', op.Valid) (hs : (Session.start : Session Cid).Succeeds ops)
    (hs' : (Session.start : Session Cid).Succeeds ops')
    (hf : (Session.start : Session Cid).fresh ops = true)
    (hf' : (Session.start : Session Cid).fresh ops' = true)
    (hm : mapAfter ops = mapAfter ops') :
    ∃ root, ((Session.start : Session Cid).steps ops).2.root = .ok root ∧
      ((Session.start : Session Cid).steps ops').2.root = .ok root := by
  have hnil : AtTop 0 ([] : List (Leaf Cid)) := fun h => absurd rfl h
  obtain ⟨ℓ, xs, h, hmap, htop⟩ := Session.holding_start.steps hv
  obtain ⟨ℓ', xs', h', hmap', htop'⟩ := Session.holding_start.steps hv'
  have hcontents : contentsOf xs = contentsOf xs' :=
    (hmap.eq_foldl hs).trans (hm.trans (hmap'.eq_foldl hs').symm)
  obtain rfl := eq_of_contentsOf_eq h.holds.keyed.ordered h'.holds.keyed.ordered hcontents
  have hroot : cidAt ℓ xs = cidAt ℓ' xs := by
    by_cases hx : xs = []
    · subst hx
      exact cidAt_nil ℓ ℓ'
    · rw [htop hf hnil hx, htop' hf' hnil hx]
  obtain ⟨t, he, -⟩ := exec_root () h.holds
  obtain ⟨t', he', -⟩ := exec_root () h'.holds
  refine ⟨cidAt ℓ xs, ?_, ?_⟩
  · simp only [Session.root, Session.run, he]
    rfl
  · simp only [Session.root, Session.run, he', ← hroot]
    rfl

end

section

open DagCbor

/-- A key added and deleted again before another, and the other alone. -/
def emptiedFirst : List (TreeOp RawCid) :=
  [.add highKey someRecord, .delete highKey, .add lowKey someRecord]

def addedAlone : List (TreeOp RawCid) := [.add lowKey someRecord]

theorem steps_follow_map_reload :
    ∃ m, MapSteps (fun _ => none) [.add lowKey someRecord, .reload, .get lowKey, .leaves]
      ((Session.start : Session RawCid).steps
        [.add lowKey someRecord, .reload, .get lowKey, .leaves]).1 m := by
  refine steps_follow_map ?_
  simp only [List.forall_mem_cons, TreeOp.Valid, List.not_mem_nil, false_implies, implies_true,
    and_true]
  rfl

/-- The lone pointers a tree is left under when it is emptied from a higher layer. -/
theorem root_ne_after_emptying :
    (∀ op ∈ emptiedFirst, op.Valid) ∧ (∀ op ∈ addedAlone, op.Valid) ∧
      (Session.start : Session RawCid).Succeeds emptiedFirst ∧
      (Session.start : Session RawCid).Succeeds addedAlone ∧
      mapAfter emptiedFirst = mapAfter addedAlone ∧
      ((Session.start : Session RawCid).steps emptiedFirst).2.root ≠
        ((Session.start : Session RawCid).steps addedAlone).2.root := by
  refine ⟨?_, ?_, ?_, ?_, ?_, ?_⟩
  · simp only [emptiedFirst, List.forall_mem_cons, TreeOp.Valid, List.not_mem_nil, false_implies,
      implies_true, and_true, true_and]
    exact ⟨rfl, rfl⟩
  · simp only [addedAlone, List.forall_mem_cons, TreeOp.Valid, List.not_mem_nil, false_implies,
      implies_true, and_true]
    rfl
  · exact List.all_eq_true.mp (by decide)
  · exact List.all_eq_true.mp (by decide)
  · have hnone : Function.update (fun _ : Str => (none : Option RawCid)) highKey none =
        fun _ => none := Function.update_eq_self _ _
    simp only [mapAfter, emptiedFirst, addedAlone, List.foldl_cons, List.foldl_nil, TreeOp.apply,
      Function.update_idem, hnone]
  · have h : ((Session.start : Session RawCid).steps emptiedFirst).2.root =
          .ok (cidOf
            0x0cc8aa299ff256e6ae3685187de144ca3e31b6c01d5f4df79b053d507d6654f5) := rfl
    have h' : ((Session.start : Session RawCid).steps addedAlone).2.root =
        .ok (cidOf trivialDigest) := rfl
    rw [h, h']
    decide

theorem root_eq_of_fresh_trimmed :
    ∃ root, ((Session.start : Session RawCid).steps
        [.add lowKey someRecord, .add highKey someRecord, .delete highKey]).2.root = .ok root ∧
      ((Session.start : Session RawCid).steps addedAlone).2.root = .ok root := by
  refine root_eq_of_fresh ?_ ?_ ?_ ?_ ?_ ?_ ?_
  · simp only [List.forall_mem_cons, TreeOp.Valid, List.not_mem_nil, false_implies,
      implies_true, and_true]
    exact ⟨rfl, rfl⟩
  · simp only [addedAlone, List.forall_mem_cons, TreeOp.Valid, List.not_mem_nil, false_implies,
      implies_true, and_true]
    rfl
  · exact List.all_eq_true.mp (by decide)
  · exact List.all_eq_true.mp (by decide)
  · decide
  · decide
  · have hne : highKey ≠ lowKey := by decide
    have hnone : Function.update (fun _ : Str => (none : Option RawCid)) highKey none =
        fun _ => none := Function.update_eq_self _ _
    simp only [mapAfter, addedAlone, List.foldl_cons, List.foldl_nil, TreeOp.apply,
      Function.update_idem]
    rw [Function.update_comm hne.symm, hnone]

end

end Manapds
