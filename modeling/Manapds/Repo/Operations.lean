import Manapds.Repo.Edits

/-!
# The operations, one traversal each

A tree `Holds` some leaves at a layer when it stands for them as a new traversal finds it and the
layer is one the depth rule can give. Every operation on such a tree runs to its end, well inside
the depth a traversal may go.
-/

namespace Manapds

open KeyedList Shape QueryProgram Routine

variable {Cid : Type} [Codec Cid]

structure Holds (st : Cid → Option Bytes) (ℓ : ℕ) (t : Mst Cid) (xs : List (Leaf Cid)) : Prop where
  rep : Rep st [] ℓ t xs
  le : ℓ ≤ 128

variable {st : Cid → Option Bytes} {ℓ : ℕ} {t : Mst Cid} {xs : List (Leaf Cid)} {key : Str}
  {value : Cid}

theorem Holds.keyed (h : Holds st ℓ t xs) : WellKeyed xs := h.rep.keyed

theorem Holds.fits (h : Holds st ℓ t xs) : Fits ℓ xs := h.rep.fits

theorem Holds.lt_maxDepth (h : Holds st ℓ t xs) : ℓ + 1 < maxDepth :=
  Nat.lt_of_le_of_lt (Nat.succ_le_succ h.le) (by decide)

theorem holds_empty : Holds st 0 (Mst.empty : Mst Cid) [] :=
  ⟨rep_mk WellKeyed.nil .nil (Or.inl rfl) (Or.inl rfl), Nat.zero_le _⟩

theorem Holds.mono_store {st' : Cid → Option Bytes} (h : Holds st ℓ t xs)
    (hst : ∀ c b, st c = some b → st' c = some b) : Holds st' ℓ t xs :=
  ⟨h.rep.mono_store hst, h.le⟩

/-- A stored tree, under its root CID. -/
theorem holds_load (hk : WellKeyed xs) (hf : Fits ℓ xs) (hle : ℓ ≤ 128) (hs : Stored st ℓ xs) :
    Holds st ℓ (Mst.load (cidAt ℓ xs)) xs := by
  refine ⟨rep_iff.mpr ⟨hk, hf, Or.inl rfl, Or.inr rfl, ?_, fun _ => ⟨rfl, hs, ?_⟩⟩, hle⟩
  · intro es he
    cases he
  · exact fun _ _ => List.not_mem_nil

variable [DecidableEq Cid] [LawfulCodec Cid]

/-- Storing the nodes of a tree a store lacks puts the whole tree in it, and leaves it holding
everything under what it holds. -/
theorem Closed.grow {st' : Cid → Option Bytes} {blocks : BlockMap Cid} (hst : Closed st)
    (hk : WellKeyed xs) (hf : Fits ℓ xs) (hs : blocks.Sound)
    (hm : ∀ c, c ∈ blocks ↔ st c = none ∧ ∃ p ∈ nodesOf ℓ xs, c = cidAt p.1 p.2)
    (hst' : ∀ c, st' c = (blocks.lookup c).or (st c)) : Stored st' ℓ xs ∧ Closed st' := by
  have hmono : ∀ c b, st c = some b → st' c = some b := by
    intro c b hb
    have hc : blocks.lookup c = none := by
      refine AList.lookup_eq_none.mpr fun hc => ?_
      rw [((hm c).mp hc).1] at hb
      cases hb
    rw [hst', hc, hb, Option.none_or]
  have hstored : Stored st' ℓ xs := by
    intro p hp
    obtain ⟨-, hsub, hfp, -⟩ := of_mem_nodesOf hf hp
    cases hc : st (cidAt p.1 p.2) with
    | some b =>
      have hsp := hst p.1 p.2 (hk.sublist hsub) hfp (by simp [hc])
      exact hmono _ _ (hsp p (self_mem_nodesOf p.1 p.2))
    | none =>
      have hmem := (hm _).mpr ⟨hc, p, hp, rfl⟩
      obtain ⟨b, hb⟩ := Option.isSome_iff_exists.mp (AList.lookup_isSome.mpr hmem)
      have hbytes : blockAt p.1 p.2 = b := LawfulCodec.cidFor_injective (hs _ b hb)
      rw [hst', hb, Option.some_or, hbytes]
  refine ⟨hstored, fun m ys hky hfy hsome => ?_⟩
  cases hc : st (cidAt m ys) with
  | some b => exact fun p hp => hmono _ _ (hst m ys hky hfy (by simp [hc]) p hp)
  | none =>
    have hmem : cidAt m ys ∈ blocks := by
      rw [hst', hc, Option.or_none] at hsome
      exact AList.lookup_isSome.mp hsome
    obtain ⟨-, p, hp, he⟩ := (hm _).mp hmem
    obtain ⟨-, hsub, hfp, -⟩ := of_mem_nodesOf hf hp
    by_cases hne : ys = []
    · subst hne
      have hp2 : p.2 = [] := by
        by_contra hn
        exact hn (cidAt_inj (hk.sublist hsub) hky hfp hfy hn he.symm).2
      intro q hq
      obtain rfl : q = (m, []) := by simpa [nodesOf_nil] using hq
      have hsp := hstored p hp
      rw [← he, hp2] at hsp
      rw [hsp, blockAt, blockAt, nodeAt_nil, nodeAt_nil]
    · obtain ⟨rfl, rfl⟩ := cidAt_inj hky (hk.sublist hsub) hfy hfp hne he
      exact fun q hq => hstored q (nodesOf_trans hp hq)

variable {σ : Type} (s : σ)

theorem exec_add (h : Holds st ℓ t xs)
    (hv : (ensureValidKey key : Except (RepoError Cid) Unit) = .ok ())
    (hkey : ∀ x ∈ xs, x.key ≠ key) (value : Cid) : ∃ t',
    exec (Store.answer st) (t.add key value) s = (.ok t', s) ∧
      Holds st (max (layerOf t ℓ xs) (leadingZeros Cid key)) t' (put Leaf.key ⟨key, value⟩ xs) := by
  obtain ⟨t', S', he, ht, -⟩ := exec_insert_ok h.rep h.lt_maxDepth hv hkey
  refine ⟨t', ?_, ht.restart, max_le ((layerOf_le h.rep).trans h.le) (leadingZeros_le key)⟩
  rw [Mst.add, Reader.exec_new, Mst.addIn, hv, exec_bind, exec_ofExcept_ok]
  simp only [he]

theorem exec_add_exists (h : Holds st ℓ t xs)
    (hv : (ensureValidKey key : Except (RepoError Cid) Unit) = .ok ())
    (hkey : ∃ x ∈ xs, x.key = key) (value : Cid) :
    exec (Store.answer st) (t.add key value) s = (.error (.keyExists key), s) := by
  obtain ⟨S', he⟩ : ∃ S', exec (Store.answer st)
      (Mst.insert maxDepth t key value (leadingZeros Cid key)) [] = (.error (.keyExists key), S') :=
    exec_insert_exists h.rep h.lt_maxDepth hkey
  rw [Mst.add, Reader.exec_new, Mst.addIn, hv, exec_bind, exec_ofExcept_ok]
  simp only [he]

theorem exec_update (h : Holds st ℓ t xs)
    (hv : (ensureValidKey key : Except (RepoError Cid) Unit) = .ok ())
    (hkey : ∃ x ∈ xs, x.key = key) (value : Cid) : ∃ t',
    exec (Store.answer st) (t.update key value) s = (.ok t', s) ∧
      Holds st ℓ t' (put Leaf.key ⟨key, value⟩ xs) := by
  obtain ⟨t', S', he, ht, -⟩ :=
    (exec_updateIn h.rep (Nat.lt_of_succ_lt h.lt_maxDepth) hv).1 hkey
  refine ⟨t', ?_, ht.restart, h.le⟩
  rw [Mst.update, Reader.exec_new, he]

theorem exec_update_missing (h : Holds st ℓ t xs)
    (hv : (ensureValidKey key : Except (RepoError Cid) Unit) = .ok ())
    (hkey : ∀ x ∈ xs, x.key ≠ key) (value : Cid) :
    exec (Store.answer st) (t.update key value) s = (.error (.keyMissing key), s) := by
  obtain ⟨S', he⟩ := (exec_updateIn h.rep (Nat.lt_of_succ_lt h.lt_maxDepth) hv).2 hkey
  rw [Mst.update, Reader.exec_new, he]

theorem exec_delete (h : Holds st ℓ t xs) (hkey : ∃ x ∈ xs, x.key = key) : ∃ ℓ' t',
    exec (Store.answer st) (t.delete key) s = (.ok t', s) ∧
      Holds st ℓ' t' (take Leaf.key key xs) ∧
      (take Leaf.key key xs ≠ [] → ℓ' = topLayer (take Leaf.key key xs)) := by
  obtain ⟨es, S', he, ht, -⟩ := (exec_deleteRecurse h.rep h.lt_maxDepth).1 hkey
  obtain ⟨ℓ', t', S'', he', ht', hle, htop⟩ := exec_trimTop ht (Nat.lt_of_succ_lt h.lt_maxDepth)
  refine ⟨ℓ', t', ?_, ⟨ht'.restart, hle.trans h.le⟩, htop⟩
  rw [Mst.delete, Reader.exec_new, Mst.deleteIn, exec_bind]
  simp only [he, he']

theorem exec_delete_missing (h : Holds st ℓ t xs) (hkey : ∀ x ∈ xs, x.key ≠ key) :
    exec (Store.answer st) (t.delete key) s = (.error (.keyMissing key), s) := by
  obtain ⟨S', he⟩ := (exec_deleteRecurse h.rep h.lt_maxDepth).2 hkey
  rw [Mst.delete, Reader.exec_new, Mst.deleteIn, exec_bind]
  simp only [he]

theorem exec_get (h : Holds st ℓ t xs) (key : Str) : ∃ t',
    exec (Store.answer st) (t.get key) s =
        (.ok ((find Leaf.key key xs).map Leaf.value, t'), s) ∧ Holds st ℓ t' xs := by
  obtain ⟨t', S', he, ht, -⟩ := exec_getIn h.rep (Nat.lt_of_succ_lt h.lt_maxDepth) key
  refine ⟨t', ?_, ht.restart, h.le⟩
  rw [Mst.get, Reader.exec_new, he]

theorem exec_leaves (h : Holds st ℓ t xs) : ∃ t',
    exec (Store.answer st) t.leaves s = (.ok (xs, t'), s) ∧ Holds st ℓ t' xs := by
  obtain ⟨t', S', he, ht, -⟩ := exec_collectLeaves h.rep (Nat.lt_of_succ_lt h.lt_maxDepth)
  refine ⟨t', ?_, ht.restart, h.le⟩
  rw [Mst.leaves, Reader.exec_new, he]

theorem exec_root (h : Holds st ℓ t xs) : ∃ t',
    exec (Store.answer st) t.root s = (.ok (cidAt ℓ xs, t'), s) ∧ Holds st ℓ t' xs := by
  obtain ⟨t', he, ht, -⟩ := exec_rootIn h.rep (Nat.lt_of_succ_lt h.lt_maxDepth)
  refine ⟨t', ?_, ht.restart, h.le⟩
  rw [Mst.root, Reader.exec_new, he]

theorem exec_unstoredBlocks (h : Holds st ℓ t xs) (hst : Closed st) : ∃ blocks t',
    exec (Store.answer st) t.unstoredBlocks s = (.ok ((cidAt ℓ xs, blocks), t'), s) ∧
      Holds st ℓ t' xs ∧ blocks.Sound ∧
      ∀ c, c ∈ blocks ↔ st c = none ∧ ∃ p ∈ nodesOf ℓ xs, c = cidAt p.1 p.2 := by
  obtain ⟨blocks, t', he, ht, hs, hm⟩ := exec_unstoredBlocksIn h.rep hst h.lt_maxDepth
  refine ⟨blocks, t', ?_, ⟨ht.restart, h.le⟩, hs, hm⟩
  rw [Mst.unstoredBlocks, Reader.exec_new, he]

end Manapds
