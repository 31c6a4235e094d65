import Mathlib.Algebra.Order.BigOperators.Group.Finset
import Manapds.Repo.Tracking

/-!
# Stores that were built by hand

Any bytes can be under any CID. What a traversal holds in memory is weighed, so much for a leaf and
so much for a subtree, and weighs no more than what it started from and the blocks it has read since.
A block is read once, so all of them together are a bound on how many leaves there can be and on how
many rounds a walk can take.
-/

namespace Manapds

open QueryProgram SetDiff

variable {Cid : Type}

theorem exists_of_bind_eq_ok {ε α β : Type} {r : Except ε α} {f : α → Except ε β} {y : β}
    (h : r >>= f = .ok y) : ∃ x, r = .ok x ∧ f x = .ok y := by
  cases r with
  | error e => cases h
  | ok x => exact ⟨x, rfl, h⟩

mutual

/-- What is in memory of a node, at `a` for a leaf and `b` for a subtree. -/
def Mst.weight (a b : ℕ) : Mst Cid → ℕ
  | .mk none _ _ => 0
  | .mk (some es) _ _ => Entry.weights a b es

def Entry.weight (a b : ℕ) : Entry Cid → ℕ
  | .leaf _ => a
  | .tree t => b + t.weight a b

def Entry.weights (a b : ℕ) : List (Entry Cid) → ℕ
  | [] => 0
  | e :: es => e.weight a b + Entry.weights a b es

end

section

variable {a b : ℕ} {es es' : List (Entry Cid)} {t : Mst Cid}

@[simp] theorem Entry.weights_nil : Entry.weights a b ([] : List (Entry Cid)) = 0 := by
  simp [Entry.weights]

@[simp] theorem Entry.weights_leaf (leaf : Leaf Cid) :
    Entry.weights a b (.leaf leaf :: es) = a + Entry.weights a b es := by
  simp [Entry.weights, Entry.weight]

@[simp] theorem Entry.weights_tree :
    Entry.weights a b (.tree t :: es) = b + t.weight a b + Entry.weights a b es := by
  simp [Entry.weights, Entry.weight]

@[simp] theorem Entry.weights_append :
    Entry.weights a b (es ++ es') = Entry.weights a b es + Entry.weights a b es' := by
  induction es with
  | nil => simp
  | cons e es ih => simp [Entry.weights, ih, Nat.add_assoc]

theorem Mst.weight_of_entries (h : t.entries? = some es) : t.weight a b = Entry.weights a b es := by
  obtain ⟨held, layer, pointer⟩ := t
  cases h
  simp [Mst.weight]

@[simp] theorem Mst.weight_load (root : Cid) : (Mst.load root).weight a b = 0 := by
  simp [Mst.load, Mst.weight]

@[simp] theorem Mst.weight_withEntries :
    (t.withEntries es).weight a b = Entry.weights a b es := by
  obtain ⟨held, layer, pointer⟩ := t
  simp [Mst.withEntries, Mst.weight]

@[simp] theorem Mst.weight_withLayer (layer : Option ℕ) :
    (t.withLayer layer).weight a b = t.weight a b := by
  obtain ⟨held, layer', pointer⟩ := t
  cases held <;> simp [Mst.withLayer, Mst.weight]

@[simp] theorem Mst.weight_withPointer (cid : Cid) :
    (t.withPointer cid).weight a b = t.weight a b := by
  obtain ⟨held, layer, pointer⟩ := t
  cases held <;> simp [Mst.withPointer, Mst.weight]

@[simp] theorem Entry.weights_toEntries_unread (under : Option ℕ) (link : Option Cid) :
    Entry.weights a b (Mst.toEntries (link.map fun cid => .mk none under (some cid))) =
      if link.isSome then b else 0 := by
  cases link <;> simp [Mst.toEntries, Mst.weight]

/-- A stored node has as many leaves as it has entries. -/
theorem weights_deserializeFrom {under : Option ℕ} {last : Str} {stored : List (TreeEntry Cid)}
    (h : Mst.deserializeFrom under last stored = .ok es) :
    Entry.weights 1 0 es = stored.length := by
  induction stored generalizing last es with
  | nil =>
    cases h
    simp
  | cons entry rest ih =>
    rw [Mst.deserializeFrom] at h
    split_ifs at h
    cases hshared : last.getTo entry.p with
    | none =>
      rw [hshared] at h
      cases h
    | some shared =>
      rw [hshared] at h
      obtain ⟨_, -, h⟩ := exists_of_bind_eq_ok h
      obtain ⟨es', hrest, h⟩ := exists_of_bind_eq_ok h
      cases h
      simp [ih hrest]
      omega

theorem weights_deserialize {data : NodeData Cid} {layer : Option ℕ}
    (h : Mst.deserialize data layer = .ok es) : Entry.weights 1 0 es = data.e.length := by
  obtain ⟨rest, hrest, h⟩ := exists_of_bind_eq_ok h
  cases h
  simp [weights_deserializeFrom hrest]

end

namespace Hostile

variable [Codec Cid] {st : Cid → Option Bytes} {a b before : ℕ} {α β : Type} {Q : α → ℕ → Prop}
  {Q' : β → ℕ → Prop}

/-- What a block adds to memory when it is read. -/
def held (a b : ℕ) (st : Cid → Option Bytes) (cid : Cid) : ℕ :=
  match st cid with
  | none => 0
  | some bytes => match (decodeNode bytes : Except (RepoError Cid) (NodeData Cid)) with
    | .error _ => 0
    | .ok data => match Mst.deserialize data
        (data.e.head?.map fun entry => leadingZeros Cid entry.k) with
      | .error _ => 0
      | .ok es => Entry.weights a b es

def read (a b : ℕ) (st : Cid → Option Bytes) (seen : List Cid) : ℕ := (seen.map (held a b st)).sum

/-- What comes of it weighs what there was before and the blocks it reads, at the most. `Q` says
what a value weighs. -/
def Weighs (a b : ℕ) (st : Cid → Option Bytes) (before : ℕ) (Q : α → ℕ → Prop)
    (f : Reading Cid α) : Prop :=
  ∀ seen x seen', Routine.exec (Store.answer st) f seen = (.ok x, seen') →
    ∃ n, Q x n ∧ n + read a b st seen ≤ before + read a b st seen'

theorem weighs_pure {x : α} {n : ℕ} (h : Q x n) (hn : n ≤ before) :
    Weighs a b st before Q (pure x) := by
  rintro seen _ _ ⟨⟩
  exact ⟨n, h, by omega⟩

theorem weighs_throw (e : RepoError Cid) :
    Weighs a b st before Q (Routine.throw e : Reading Cid α) := by
  rintro seen _ _ ⟨⟩

theorem weighs_ofExcept {r : Except (RepoError Cid) α} :
    Weighs a b st before (fun x n => r = .ok x ∧ n = before) (Routine.ofExcept r) := by
  cases r with
  | error e => exact weighs_throw e
  | ok x => exact weighs_pure ⟨rfl, rfl⟩ le_rfl

theorem Weighs.bind {f : Reading Cid α} {g : α → Reading Cid β} (hf : Weighs a b st before Q f)
    (hg : ∀ x n, Q x n → Weighs a b st n Q' (g x)) : Weighs a b st before Q' (f >>= g) := by
  intro seen y seen' h
  obtain ⟨x, mid, hx, hy⟩ := Routine.exec_bind_eq_ok _ _ h
  obtain ⟨n, hn, hle⟩ := hf seen x mid hx
  obtain ⟨m, hm, hle'⟩ := hg x n hn mid y seen' hy
  exact ⟨m, hm, by omega⟩

/-- What else is in memory stays as it is. -/
theorem Weighs.frame {f : Reading Cid α} (h : Weighs a b st before Q f) (k : ℕ) :
    Weighs a b st (before + k) (fun x n => ∃ m, Q x m ∧ n = m + k) f := by
  intro seen x seen' hx
  obtain ⟨n, hn, hle⟩ := h seen x seen' hx
  exact ⟨n + k, ⟨n, hn, rfl⟩, by omega⟩

theorem weighs_layerUnder {find : Mst Cid → Reading Cid (Option ℕ × Mst Cid)}
    (h : ∀ t, Weighs a b st (t.weight a b) (fun p n => p.2.weight a b = n) (find t))
    (es : List (Entry Cid)) :
    Weighs a b st (Entry.weights a b es) (fun p n => Entry.weights a b p.2 = n)
      (Mst.layerUnder find es) := by
  induction es with
  | nil => exact weighs_pure rfl (by simp)
  | cons e rest ih =>
    cases e with
    | leaf leaf =>
      rw [Mst.layerUnder, Entry.weights_leaf, Nat.add_comm a]
      refine (ih.frame a).bind fun p n hp => ?_
      obtain ⟨m, rfl, rfl⟩ := hp
      exact weighs_pure rfl (by simp; omega)
    | tree subtree =>
      have hsum : Entry.weights a b (.tree subtree :: rest) =
          subtree.weight a b + (b + Entry.weights a b rest) := by
        rw [Entry.weights_tree]
        omega
      rw [Mst.layerUnder, hsum]
      refine ((h subtree).frame _).bind fun p n hp => ?_
      obtain ⟨m, rfl, rfl⟩ := hp
      obtain ⟨under, subtree⟩ := p
      cases under with
      | some under => exact weighs_pure rfl (by simp; omega)
      | none =>
        have hsum' : subtree.weight a b + (b + Entry.weights a b rest) =
            Entry.weights a b rest + (b + subtree.weight a b) := by omega
        dsimp only
        rw [hsum']
        refine (ih.frame _).bind fun p n hp => ?_
        obtain ⟨m, rfl, rfl⟩ := hp
        exact weighs_pure rfl (by simp; omega)

theorem weighs_serializeFrom {root : Mst Cid → Reading Cid (Cid × Mst Cid)}
    (h : ∀ t, Weighs a b st (t.weight a b) (fun p n => p.2.weight a b = n) (root t)) (last : Str)
    (es : List (Entry Cid)) :
    Weighs a b st (Entry.weights a b es) (fun p n => Entry.weights a b p.2 = n)
      (Mst.serializeFrom root last es) := by
  induction last, es using Mst.serializeFrom.induct with
  | case1 last => exact weighs_pure rfl (by simp)
  | case2 last subtree rest => exact weighs_throw _
  | case3 last leaf right rest ih =>
    have hsum : Entry.weights a b (.leaf leaf :: .tree right :: rest) =
        right.weight a b + (a + b + Entry.weights a b rest) := by
      simp only [Entry.weights_leaf, Entry.weights_tree]
      omega
    rw [Mst.serializeFrom, hsum]
    refine ((h right).frame _).bind fun p n hp => ?_
    obtain ⟨m, rfl, rfl⟩ := hp
    have hsum' : p.2.weight a b + (a + b + Entry.weights a b rest) =
        Entry.weights a b rest + (a + b + p.2.weight a b) := by omega
    refine weighs_ofExcept.bind fun _ n hn => ?_
    obtain ⟨-, rfl⟩ := hn
    rw [hsum']
    refine (ih.frame _).bind fun q n hq => ?_
    obtain ⟨m, rfl, rfl⟩ := hq
    exact weighs_pure rfl (by simp; omega)
  | case4 last leaf rest hrest ih =>
    rw [Mst.serializeFrom, Entry.weights_leaf, Nat.add_comm a]
    · refine weighs_ofExcept.bind fun _ n hn => ?_
      obtain ⟨-, rfl⟩ := hn
      refine (ih.frame _).bind fun q n hq => ?_
      obtain ⟨m, rfl, rfl⟩ := hq
      exact weighs_pure rfl (by simp; omega)
    · exact hrest

theorem weighs_serialize {root : Mst Cid → Reading Cid (Cid × Mst Cid)}
    (h : ∀ t, Weighs a b st (t.weight a b) (fun p n => p.2.weight a b = n) (root t))
    (es : List (Entry Cid)) :
    Weighs a b st (Entry.weights a b es) (fun p n => Entry.weights a b p.2 = n)
      (Mst.serialize root es) := by
  have hplain : Weighs a b st (Entry.weights a b es) (fun p n => Entry.weights a b p.2 = n)
      (Mst.serializeFrom root [] es >>= fun p => pure ((⟨none, p.1⟩ : NodeData Cid), p.2)) :=
    (weighs_serializeFrom h [] es).bind fun p n hp => weighs_pure hp le_rfl
  cases es with
  | nil => exact hplain
  | cons e rest =>
    cases e with
    | leaf leaf => exact hplain
    | tree subtree =>
      have hsum : Entry.weights a b (.tree subtree :: rest) =
          subtree.weight a b + (b + Entry.weights a b rest) := by
        rw [Entry.weights_tree]
        omega
      rw [Mst.serialize, hsum]
      refine ((h subtree).frame _).bind fun p n hp => ?_
      obtain ⟨m, rfl, rfl⟩ := hp
      have hsum' : p.2.weight a b + (b + Entry.weights a b rest) =
          Entry.weights a b rest + (b + p.2.weight a b) := by omega
      rw [hsum']
      refine ((weighs_serializeFrom h [] rest).frame _).bind fun q n hq => ?_
      obtain ⟨m, rfl, rfl⟩ := hq
      exact weighs_pure rfl (by simp; omega)

/-- Leaves are counted by what they weigh where a subtree of its own weighs nothing. -/
theorem weighs_leavesUnder {collect : Mst Cid → Reading Cid (List (Leaf Cid) × Mst Cid)}
    (h : ∀ t, Weighs 1 0 st (t.weight 1 0) (fun p n => p.1.length = n) (collect t))
    (es : List (Entry Cid)) :
    Weighs 1 0 st (Entry.weights 1 0 es) (fun p n => p.1.length = n)
      (Mst.leavesUnder collect es) := by
  induction es with
  | nil => exact weighs_pure rfl (by simp)
  | cons e rest ih =>
    cases e with
    | leaf leaf =>
      rw [Mst.leavesUnder, Entry.weights_leaf, Nat.add_comm 1]
      refine (ih.frame 1).bind fun p n hp => ?_
      obtain ⟨m, rfl, rfl⟩ := hp
      exact weighs_pure rfl (by simp)
    | tree subtree =>
      rw [Mst.leavesUnder, Entry.weights_tree, Nat.zero_add]
      refine ((h subtree).frame _).bind fun p n hp => ?_
      obtain ⟨m, rfl, rfl⟩ := hp
      rw [Nat.add_comm]
      refine (ih.frame _).bind fun q n hq => ?_
      obtain ⟨m, rfl, rfl⟩ := hq
      exact weighs_pure rfl (by simp; omega)

variable [DecidableEq Cid]

/-- What the entries of a node weigh, and the node with them. -/
def NodeWeighs (a b : ℕ) (p : List (Entry Cid) × Mst Cid) (n : ℕ) : Prop :=
  Entry.weights a b p.1 = n ∧ p.2.weight a b = n

theorem exec_node_eq_ok {cid : Cid} {seen seen' : List Cid} {data : NodeData Cid}
    (h : Routine.exec (Store.answer st) (Reader.node cid) seen = (.ok data, seen')) :
    seen' = cid :: seen ∧ ∃ bytes, st cid = some bytes ∧ decodeNode bytes = .ok data := by
  unfold Reader.node at h
  rw [Routine.exec_bind_ok _ _ (Routine.exec_get _ seen)] at h
  split_ifs at h with hseen
  · cases h
  · have hask : Routine.exec (Store.answer st) (Reader.block cid) (cid :: seen) =
        (.ok (st cid), cid :: seen) := rfl
    rw [Routine.exec_bind_ok _ _ (Routine.exec_set _ seen _), Routine.exec_bind_ok _ _ hask] at h
    cases hst : st cid with
    | none =>
      rw [hst] at h
      cases h
    | some bytes =>
      rw [hst] at h
      obtain ⟨hdata, rfl⟩ := Routine.exec_ofExcept_eq_ok _ _ h
      exact ⟨rfl, bytes, rfl, hdata⟩

theorem weighs_fill (t : Mst Cid) :
    Weighs a b st (t.weight a b) (fun t' n => (∃ es, t'.entries? = some es) ∧ t'.weight a b = n)
      t.fill := by
  obtain ⟨es, layer, pointer⟩ := t
  cases es with
  | some es => exact weighs_pure ⟨⟨es, rfl⟩, rfl⟩ le_rfl
  | none =>
    cases pointer with
    | none => exact weighs_throw _
    | some cid =>
      intro seen t' seen' h
      obtain ⟨data, mid, hdata, h⟩ := Routine.exec_bind_eq_ok _ _ h
      obtain ⟨rfl, bytes, hst, hdecode⟩ := exec_node_eq_ok hdata
      obtain ⟨es, mid', hexec, h⟩ := Routine.exec_bind_eq_ok _ _ h
      obtain ⟨hes, rfl⟩ := Routine.exec_ofExcept_eq_ok _ _ hexec
      cases h
      have hheld : held a b st cid = Entry.weights a b es := by
        rw [held, hst]
        dsimp only
        rw [hdecode]
        dsimp only
        rw [hes]
      refine ⟨_, ⟨⟨es, rfl⟩, rfl⟩, ?_⟩
      simp only [Mst.weight_withEntries, read, List.map_cons, List.sum_cons, hheld]
      omega

theorem weighs_entries (t : Mst Cid) :
    Weighs a b st (t.weight a b) (NodeWeighs a b) t.entries := by
  refine (weighs_fill t).bind fun t' n ht' => ?_
  obtain ⟨⟨es, hes⟩, rfl⟩ := ht'
  rw [hes]
  exact weighs_pure ⟨(Mst.weight_of_entries hes).symm, rfl⟩ le_rfl

theorem weighs_findLayer (d : ℕ) (t : Mst Cid) :
    Weighs a b st (t.weight a b) (fun p n => p.2.weight a b = n) (Mst.findLayer d t) := by
  induction d generalizing t with
  | zero => exact weighs_throw _
  | succ d ih =>
    rw [Mst.findLayer]
    cases t.layer? with
    | some layer => exact weighs_pure rfl le_rfl
    | none =>
      refine (weighs_entries t).bind fun p n hp => ?_
      obtain ⟨es, t⟩ := p
      obtain ⟨hes, ht⟩ := hp
      dsimp only at hes ht ⊢
      cases Mst.leafLayer es with
      | some layer => exact weighs_pure rfl (by simp [ht])
      | none =>
        rw [← hes]
        refine (weighs_layerUnder ih es).bind fun p n hp => ?_
        exact weighs_pure rfl (by simp [hp])

theorem weighs_layer (d : ℕ) (t : Mst Cid) :
    Weighs a b st (t.weight a b) (fun p n => p.2.weight a b = n) (Mst.layer d t) := by
  refine (weighs_findLayer d t).bind fun p n hp => ?_
  exact weighs_pure rfl (by simp [hp])

theorem weighs_levelOf (t : Mst Cid) :
    Weighs a b st (t.weight a b)
      (fun p n => NodeWeighs a b (p.1.entries, p.2) n ∧ p.1.index = 0) (Walker.levelOf t) := by
  refine (weighs_layer maxDepth t).bind fun p n hp => ?_
  subst hp
  refine (weighs_entries p.2).bind fun q n hq => ?_
  exact weighs_pure ⟨hq, rfl⟩ le_rfl

theorem weighs_nodeData {root : Mst Cid → Reading Cid (Cid × Mst Cid)}
    (h : ∀ t, Weighs a b st (t.weight a b) (fun p n => p.2.weight a b = n) (root t)) (t : Mst Cid) :
    Weighs a b st (t.weight a b) (fun p n => p.2.weight a b = n) (Mst.nodeData root t) := by
  refine (weighs_entries t).bind fun p n hp => ?_
  obtain ⟨hes, -⟩ := hp
  subst hes
  refine (weighs_serialize h p.1).bind fun q n hq => ?_
  exact weighs_pure rfl (by simp [hq])

theorem weighs_rootIn (d : ℕ) (t : Mst Cid) :
    Weighs a b st (t.weight a b) (fun p n => p.2.weight a b = n) (Mst.rootIn d t) := by
  induction d generalizing t with
  | zero => exact weighs_throw _
  | succ d ih =>
    rw [Mst.rootIn]
    cases t.pointer? with
    | some cid => exact weighs_pure rfl le_rfl
    | none =>
      refine (weighs_nodeData ih t).bind fun p n hp => ?_
      refine weighs_ofExcept.bind fun bytes n hn => ?_
      obtain ⟨-, rfl⟩ := hn
      exact weighs_pure rfl (by simp [hp])

theorem weighs_collectLeaves (d : ℕ) (t : Mst Cid) :
    Weighs 1 0 st (t.weight 1 0) (fun p n => p.1.length = n) (Mst.collectLeaves d t) := by
  induction d generalizing t with
  | zero => exact weighs_throw _
  | succ d ih =>
    rw [Mst.collectLeaves]
    refine (weighs_entries t).bind fun p n hp => ?_
    obtain ⟨hes, -⟩ := hp
    subst hes
    refine (weighs_leavesUnder ih p.1).bind fun q n hq => ?_
    exact weighs_pure hq le_rfl

end Hostile

end Manapds
