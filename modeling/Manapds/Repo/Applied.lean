import Manapds.Repo.Dropped
import Manapds.Repo.Repository

/-!
# What a batch of writes comes to

`leavesAfter` is a batch as an edit of the leaves, which is all of it that a reader of the tree can
see. `Repo.apply` on a repository over some leaves gives one over the leaves after, and the blocks
it hands back and the CIDs it drops take a store that holds exactly the revision before to one that
holds exactly the revision after.

A record, a node and a commit are never one block: a record that is a map names a collection, and
neither of the others has the field it names it in.
-/

namespace Manapds

open KeyedList Shape QueryProgram Routine

variable {Cid : Type}

section

variable [Codec Cid]

/-- The CID of a block a write may put at a key. -/
def IsRecord (c : Cid) : Prop :=
  ∃ (collection : Nsid) (record : Value Cid) (b : Bytes),
    namesCollection collection record.ipld = true ∧ encode record.ipld = .ok b ∧ c = cidFor b

/-- The CID of a block a commit is in. -/
def Commit.IsAt (commit : Commit Cid) (c : Cid) : Prop :=
  ∃ b, encode commit.toIpld = .ok b ∧ c = cidFor b

/-- Where the record a write carries goes. -/
def Write.cid (write : Write Cid) : Option Cid :=
  write.record.bind fun record => match encode record.ipld with
    | .ok bytes => some (cidFor bytes)
    | .error _ => none

/-- One write, as an edit of the leaves. -/
def Write.after (write : Write Cid) (xs : List (Leaf Cid)) : Option (List (Leaf Cid)) :=
  let held := (find Leaf.key write.key xs).isSome
  let putting := write.cid.map fun cid => KeyedList.put Leaf.key ⟨write.key, cid⟩ xs
  match write with
  | .create _ _ _ => if held then none else putting
  | .update _ _ _ => if held then putting else none
  | .put _ _ _ => putting
  | .delete _ _ => if held then some (take Leaf.key write.key xs) else none

def leavesAfter : List (Write Cid) → List (Leaf Cid) → Option (List (Leaf Cid))
  | [], xs => some xs
  | write :: rest, xs => (write.after xs).bind (leavesAfter rest)

/-- The keys a batch has written, each with the record that is to stay there. -/
def Write.mark (marks : List (Leaf Cid)) (write : Write Cid) : List (Leaf Cid) :=
  match write.cid with
  | some cid => KeyedList.put Leaf.key ⟨write.key, cid⟩ marks
  | none => take Leaf.key write.key marks

theorem Write.mem_foldl_mark {x : Leaf Cid} {marks : List (Leaf Cid)} {writes : List (Write Cid)}
    (hx : x ∈ marks) (hk : ∀ write ∈ writes, write.key ≠ x.key) : x ∈ writes.foldl Write.mark marks := by
  induction writes generalizing marks with
  | nil => exact hx
  | cons write rest ih =>
    refine ih ?_ fun w hw => hk w (List.mem_cons_of_mem write hw)
    have hne : x.key ≠ write.key := (hk write List.mem_cons_self).symm
    unfold Write.mark
    split
    · exact mem_put.mpr (Or.inr ⟨hx, hne⟩)
    · exact mem_take.mpr ⟨hx, hne⟩

theorem Write.cid_of_after {write : Write Cid} {record : Value Cid} {xs xs' : List (Leaf Cid)}
    (h : write.after xs = some xs') (hr : write.record = some record) :
    ∃ cid, write.cid = some cid := by
  cases hc : write.cid with
  | some cid => exact ⟨cid, rfl⟩
  | none => cases write <;> simp [Write.after, hc, Write.record] at h hr

theorem exists_after_of_mem {write : Write Cid} {writes : List (Write Cid)}
    {xs xs' : List (Leaf Cid)} (h : leavesAfter writes xs = some xs') (hw : write ∈ writes) :
    ∃ ys ys', write.after ys = some ys' := by
  induction writes generalizing xs with
  | nil => cases hw
  | cons w rest ih =>
    obtain ⟨ys, hy, hrest⟩ := Option.bind_eq_some_iff.mp h
    rcases List.mem_cons.mp hw with rfl | hw
    · exact ⟨xs, ys, hy⟩
    · exact ih hrest hw

/-- The record of a write that no later one is at the key of is among the marks of the batch. -/
theorem exists_mark_of_last {pre post writes : List (Write Cid)} {write : Write Cid}
    {record : Value Cid} {xs xs' : List (Leaf Cid)} (h : leavesAfter writes xs = some xs')
    (hw : writes = pre ++ write :: post) (hpost : ∀ later ∈ post, later.key ≠ write.key)
    (hr : write.record = some record) : ∃ cid, write.cid = some cid ∧
      ⟨write.key, cid⟩ ∈ writes.foldl Write.mark [] := by
  obtain ⟨ys, ys', hy⟩ := exists_after_of_mem h (hw ▸ List.mem_append_right pre List.mem_cons_self)
  obtain ⟨cid, hc⟩ := Write.cid_of_after hy hr
  refine ⟨cid, hc, ?_⟩
  rw [hw, List.foldl_append, List.foldl_cons]
  refine Write.mem_foldl_mark ?_ hpost
  rw [Write.mark, hc]
  exact mem_put.mpr (Or.inl rfl)

end

theorem namesCollection_node (collection : Nsid) (node : NodeData Cid) :
    namesCollection collection node.toIpld = false := by
  have h : Ipld.get [(text "e", .list (node.e.map TreeEntry.toIpld)), (text "l", .ofLink node.l)]
      (text "$type") = none := by
    have he : text "e" ≠ text "$type" := by decide
    have hl : text "l" ≠ text "$type" := by decide
    simp [Ipld.get, he, hl]
  rw [NodeData.toIpld, namesCollection, h]

theorem namesCollection_commit (collection : Nsid) (commit : Commit Cid) :
    namesCollection collection commit.toIpld = false := by
  have hk : ∀ name ∈ [text "data", text "did", text "prev", text "rev", text "sig",
      text "version"], name ≠ text "$type" := by decide
  simp only [List.forall_mem_cons] at hk
  obtain ⟨h1, h2, h3, h4, h5, h6, -⟩ := hk
  simp [Commit.toIpld, namesCollection, Ipld.get, h1, h2, h3, h4, h5, h6]

section

variable [Codec Cid] [LawfulCodec Cid] {c : Cid} {xs : List (Leaf Cid)} {ℓ : ℕ}
  {commit : Commit Cid}

theorem IsRecord.ne_cidAt (h : IsRecord c) (hk : WellKeyed xs) : c ≠ cidAt ℓ xs := by
  rintro he
  obtain ⟨collection, record, b, hn, hb, rfl⟩ := h
  have hbytes : b = blockAt ℓ xs := LawfulCodec.cidFor_injective he
  have hv := encode_injective record.wf (NodeData.wf_toIpld _) hb (hbytes ▸ encode_nodeAt hk)
  rw [hv, namesCollection_node] at hn
  cases hn

theorem IsRecord.ne_commit (h : IsRecord c) (hc : commit.IsAt c) : False := by
  obtain ⟨collection, record, b, hn, hb, rfl⟩ := h
  obtain ⟨b', hb', he⟩ := hc
  obtain rfl : b = b' := LawfulCodec.cidFor_injective he
  have hv := encode_injective record.wf (Commit.wf_toIpld _) hb hb'
  rw [hv, namesCollection_commit] at hn
  cases hn

theorem Commit.IsAt.ne_cidAt (hc : commit.IsAt c) (hk : WellKeyed xs) : c ≠ cidAt ℓ xs := by
  rintro rfl
  obtain ⟨b, hb, he⟩ := hc
  have hbytes : blockAt ℓ xs = b := LawfulCodec.cidFor_injective he
  have hv := encode_injective (Commit.wf_toIpld _) (NodeData.wf_toIpld _) hb
    (hbytes ▸ encode_nodeAt hk)
  simp [Commit.toIpld, NodeData.toIpld] at hv

theorem Commit.IsAt.inj {commit' : Commit Cid} (hc : commit.IsAt c) (hc' : commit'.IsAt c) :
    commit = commit' := by
  obtain ⟨b, hb, rfl⟩ := hc
  obtain ⟨b', hb', he⟩ := hc'
  obtain rfl : b = b' := LawfulCodec.cidFor_injective he
  exact Commit.toIpld_injective
    (encode_injective (Commit.wf_toIpld _) (Commit.wf_toIpld _) hb hb')

end

/-! ## The tree a batch leaves -/

theorem exists_key_iff_find {xs : List (Leaf Cid)} {key : Str} :
    (∃ x ∈ xs, x.key = key) ↔ (find Leaf.key key xs).isSome = true := by
  rw [← not_iff_not, Bool.not_eq_true, Option.isSome_eq_false_iff, Option.isNone_iff_eq_none,
    find_eq_none]
  simp

section

variable [Codec Cid]

theorem cid_of_encode {write : Write Cid} {record : Value Cid} {b : Bytes} (hr : write.record = some record)
    (hb : encode record.ipld = .ok b) : write.cid = some (cidFor b) := by
  simp [Write.cid, hr, hb]

theorem isRecord_of_named {write : Write Cid} {record : Value Cid} {b : Bytes} (hn : write.named = true)
    (hr : write.record = some record) (hb : encode record.ipld = .ok b) :
    IsRecord (cidFor b : Cid) := by
  rw [Write.named, hr] at hn
  exact ⟨write.collection, record, b, hn, hb, rfl⟩

variable [DecidableEq Cid]

/-- Every record of a batch under way is where its leaves say, and the rest of the tree is what was
there before. -/
structure Batch.Tracks (st : Cid → Option Bytes) (before : List (Leaf Cid)) (ℓ : ℕ)
    (xs : List (Leaf Cid)) (batch : Batch Cid) : Prop where
  data : Holds st ℓ batch.data xs
  sound : batch.encoded.Sound
  leaves : ∀ x ∈ batch.leaves, x ∈ xs ∧ x.value ∈ batch.encoded
  others : ∀ x ∈ xs, x ∈ batch.leaves ∨ x ∈ before
  records : ∀ x ∈ xs, IsRecord x.value

variable {st : Cid → Option Bytes} {ℓ : ℕ} {xs before : List (Leaf Cid)}
  {batch batch' : Batch Cid} {write : Write Cid}

theorem encodeAt_ok {key : Str} {record : Value Cid} {cid : Cid}
    (h : Repo.encodeAt batch key record = .ok (cid, batch')) : ∃ b, encode record.ipld = .ok b ∧
      cid = cidFor b ∧ batch' = ⟨batch.encoded.insert (cidFor b) b,
        put Leaf.key ⟨key, cidFor b⟩ batch.leaves, batch.data⟩ := by
  unfold Repo.encodeAt BlockMap.add at h
  cases hb : encode record.ipld with
  | error e =>
    rw [hb] at h
    cases h
  | ok b =>
    rw [hb] at h
    cases h
    exact ⟨b, rfl, rfl, rfl⟩

/-- A record laid at a key, in the tree and in what the batch remembers. -/
theorem Batch.Tracks.put {key : Str} {b : Bytes} {ℓ' : ℕ} {data : Mst Cid}
    (h : batch.Tracks st before ℓ xs)
    (hd : Holds st ℓ' data (KeyedList.put Leaf.key ⟨key, cidFor b⟩ xs)) (hr : IsRecord (cidFor b : Cid)) :
    Batch.Tracks st before ℓ' (KeyedList.put Leaf.key ⟨key, cidFor b⟩ xs)
      ⟨batch.encoded.insert (cidFor b) b, KeyedList.put Leaf.key ⟨key, cidFor b⟩ batch.leaves,
        data⟩ := by
  refine ⟨hd, h.sound.insert b, fun x hx => ?_, fun x hx => ?_, fun x hx => ?_⟩
  · rcases mem_put.mp hx with rfl | ⟨hx, hk⟩
    · exact ⟨mem_put.mpr (Or.inl rfl), AList.mem_insert _ |>.mpr (Or.inl rfl)⟩
    · exact ⟨mem_put.mpr (Or.inr ⟨(h.leaves x hx).1, hk⟩),
        AList.mem_insert _ |>.mpr (Or.inr (h.leaves x hx).2)⟩
  · rcases mem_put.mp hx with rfl | ⟨hx, hk⟩
    · exact Or.inl (mem_put.mpr (Or.inl rfl))
    · exact (h.others x hx).imp (fun hx => mem_put.mpr (Or.inr ⟨hx, hk⟩)) id
  · rcases mem_put.mp hx with rfl | ⟨hx, -⟩
    · exact hr
    · exact h.records x hx

theorem Batch.Tracks.take {key : Str} {ℓ' : ℕ} {data : Mst Cid} (h : batch.Tracks st before ℓ xs)
    (hd : Holds st ℓ' data (KeyedList.take Leaf.key key xs)) :
    Batch.Tracks st before ℓ' (KeyedList.take Leaf.key key xs)
      ⟨batch.encoded, KeyedList.take Leaf.key key batch.leaves, data⟩ := by
  refine ⟨hd, h.sound, fun x hx => ?_, fun x hx => ?_, fun x hx => ?_⟩
  · obtain ⟨hx, hk⟩ := mem_take.mp hx
    exact ⟨mem_take.mpr ⟨(h.leaves x hx).1, hk⟩, (h.leaves x hx).2⟩
  · obtain ⟨hx, hk⟩ := mem_take.mp hx
    exact (h.others x hx).imp (fun hx => mem_take.mpr ⟨hx, hk⟩) id
  · exact h.records x (mem_take.mp hx).1

theorem survivors_ok {encoded : BlockMap Cid} {leaves : List (Leaf Cid)} (hs : encoded.Sound)
    (hl : ∀ x ∈ leaves, x.value ∈ encoded) : ∃ blocks, Repo.survivors encoded leaves = .ok blocks ∧
      blocks.Sound ∧ ∀ c, c ∈ blocks ↔ ∃ x ∈ leaves, c = x.value := by
  induction leaves with
  | nil => exact ⟨∅, rfl, BlockMap.Sound.empty, by simp⟩
  | cons x rest ih =>
    obtain ⟨b, hb⟩ := Option.isSome_iff_exists.mp
      (AList.lookup_isSome.mpr (hl x List.mem_cons_self))
    obtain ⟨blocks, he, hsound, hm⟩ := ih fun y hy => hl y (List.mem_cons_of_mem x hy)
    refine ⟨blocks.insert x.value b, ?_, ?_, fun c => ?_⟩
    · simp only [Repo.survivors, hb, he]
      rfl
    · rw [hs x.value b hb]
      exact hsound.insert b
    · rw [AList.mem_insert, hm, List.exists_mem_cons_iff]

variable {σ : Type} {s s' : σ}

/-- A key the tree will not take is refused by whatever would put something there. -/
theorem valid_of_exec_add {key : Str} {value : Cid} {t t' : Mst Cid}
    (h : exec (Store.answer st) (t.add key value) s = (.ok t', s')) :
    (ensureValidKey key : Except (RepoError Cid) Unit) = .ok () := by
  cases hv : (ensureValidKey key : Except (RepoError Cid) Unit) with
  | ok u => rfl
  | error e =>
    rw [Mst.add, Reader.exec_new, Mst.addIn, hv, exec_bind, exec_ofExcept_error] at h
    cases h

theorem valid_of_exec_update {key : Str} {value : Cid} {t t' : Mst Cid}
    (h : exec (Store.answer st) (t.update key value) s = (.ok t', s')) :
    (ensureValidKey key : Except (RepoError Cid) Unit) = .ok () := by
  cases hv : (ensureValidKey key : Except (RepoError Cid) Unit) with
  | ok u => rfl
  | error e =>
    have hd : maxDepth = 255 + 1 := rfl
    rw [Mst.update, Reader.exec_new, hd, Mst.updateIn, hv, exec_bind, exec_ofExcept_error] at h
    cases h

variable [LawfulCodec Cid]

/-- An add that went through found its key free. -/
theorem of_exec_add {key : Str} {value : Cid} {t t' : Mst Cid} (hh : Holds st ℓ t xs)
    (h : exec (Store.answer st) (t.add key value) s = (.ok t', s')) : s' = s ∧
      (find Leaf.key key xs).isSome = false ∧
      ∃ ℓ', Holds st ℓ' t' (put Leaf.key ⟨key, value⟩ xs) := by
  have hv := valid_of_exec_add h
  by_cases hkey : ∃ x ∈ xs, x.key = key
  · rw [exec_add_exists s hh hv hkey value] at h
    cases h
  · have hfind := exists_key_iff_find.not.mp hkey
    push Not at hkey
    obtain ⟨t'', he, ht⟩ := exec_add s hh hv hkey value
    rw [he] at h
    cases h
    exact ⟨rfl, Bool.not_eq_true _ |>.mp hfind, _, ht⟩

theorem of_exec_update {key : Str} {value : Cid} {t t' : Mst Cid} (hh : Holds st ℓ t xs)
    (h : exec (Store.answer st) (t.update key value) s = (.ok t', s')) : s' = s ∧
      (find Leaf.key key xs).isSome = true ∧
      Holds st ℓ t' (put Leaf.key ⟨key, value⟩ xs) := by
  have hv := valid_of_exec_update h
  by_cases hkey : ∃ x ∈ xs, x.key = key
  · obtain ⟨t'', he, ht⟩ := exec_update s hh hv hkey value
    rw [he] at h
    cases h
    exact ⟨rfl, exists_key_iff_find.mp hkey, ht⟩
  · push Not at hkey
    rw [exec_update_missing s hh hv hkey value] at h
    cases h

theorem of_exec_updateOrAdd {key : Str} {value : Cid} {t t' : Mst Cid} (hh : Holds st ℓ t xs)
    (h : exec (Store.answer st) (Repo.updateOrAdd t key value) s = (.ok t', s')) : s' = s ∧
      ∃ ℓ', Holds st ℓ' t' (put Leaf.key ⟨key, value⟩ xs) := by
  obtain ⟨⟨held, data⟩, s1, h1, h2⟩ := exec_bind_eq_ok _ _ h
  obtain ⟨data', hget, hd⟩ := exec_get s hh key
  rw [hget] at h1
  cases h1
  by_cases hf : ((find Leaf.key key xs).map Leaf.value).isSome = true
  · simp only [if_pos hf] at h2
    obtain ⟨hs, -, hd'⟩ := of_exec_update hd h2
    exact ⟨hs, ℓ, hd'⟩
  · simp only [if_neg hf] at h2
    obtain ⟨hs, -, hd'⟩ := of_exec_add hd h2
    exact ⟨hs, hd'⟩

theorem of_exec_delete {key : Str} {t t' : Mst Cid} (hh : Holds st ℓ t xs)
    (h : exec (Store.answer st) (t.delete key) s = (.ok t', s')) : s' = s ∧
      (find Leaf.key key xs).isSome = true ∧
      ∃ ℓ', Holds st ℓ' t' (take Leaf.key key xs) := by
  by_cases hkey : ∃ x ∈ xs, x.key = key
  · obtain ⟨ℓ', t'', he, ht, -⟩ := exec_delete s hh hkey
    rw [he] at h
    cases h
    exact ⟨rfl, exists_key_iff_find.mp hkey, ℓ', ht⟩
  · push Not at hkey
    rw [exec_delete_missing s hh hkey] at h
    cases h

/-- A write that went through edited the leaves as it says. -/
theorem of_exec_applyWrite (h : batch.Tracks st before ℓ xs) (hn : write.named = true)
    (he : exec (Store.answer st) (Repo.applyWrite batch write) s = (.ok batch', s')) :
    s' = s ∧ batch'.leaves = Write.mark batch.leaves write ∧
      ∃ ℓ' xs', write.after xs = some xs' ∧ batch'.Tracks st before ℓ' xs' := by
  cases write with
  | create collection rkey record =>
    obtain ⟨⟨cid, batch1⟩, s1, h1, he1⟩ := exec_bind_eq_ok _ _ he
    obtain ⟨henc, rfl⟩ := exec_ofExcept_eq_ok _ _ h1
    obtain ⟨b, hb, rfl, rfl⟩ := encodeAt_ok henc
    obtain ⟨data, s2, h2, he2⟩ := exec_bind_eq_ok _ _ he1
    obtain ⟨rfl, hf, ℓ', hd⟩ := of_exec_add h.data h2
    have hc : (Write.create collection rkey record).cid = some (cidFor b) := cid_of_encode rfl hb
    cases he2
    refine ⟨rfl, ?_, ℓ', _, ?_, h.put hd (isRecord_of_named hn rfl hb)⟩
    · rw [Write.mark, hc]
    · simp only [Write.after, hf, hc, Option.map_some, Bool.false_eq_true, if_false]
  | update collection rkey record =>
    obtain ⟨⟨cid, batch1⟩, s1, h1, he1⟩ := exec_bind_eq_ok _ _ he
    obtain ⟨henc, rfl⟩ := exec_ofExcept_eq_ok _ _ h1
    obtain ⟨b, hb, rfl, rfl⟩ := encodeAt_ok henc
    obtain ⟨data, s2, h2, he2⟩ := exec_bind_eq_ok _ _ he1
    obtain ⟨rfl, hf, hd⟩ := of_exec_update h.data h2
    have hc : (Write.update collection rkey record).cid = some (cidFor b) := cid_of_encode rfl hb
    cases he2
    refine ⟨rfl, ?_, ℓ, _, ?_, h.put hd (isRecord_of_named hn rfl hb)⟩
    · rw [Write.mark, hc]
    · simp only [Write.after, hf, hc, Option.map_some, if_true]
  | put collection rkey record =>
    obtain ⟨⟨cid, batch1⟩, s1, h1, he1⟩ := exec_bind_eq_ok _ _ he
    obtain ⟨henc, rfl⟩ := exec_ofExcept_eq_ok _ _ h1
    obtain ⟨b, hb, rfl, rfl⟩ := encodeAt_ok henc
    obtain ⟨data, s2, h2, he2⟩ := exec_bind_eq_ok _ _ he1
    obtain ⟨rfl, ℓ', hd⟩ := of_exec_updateOrAdd h.data h2
    have hc : (Write.put collection rkey record).cid = some (cidFor b) := cid_of_encode rfl hb
    cases he2
    refine ⟨rfl, ?_, ℓ', _, ?_, h.put hd (isRecord_of_named hn rfl hb)⟩
    · rw [Write.mark, hc]
    · simp only [Write.after, hc, Option.map_some]
  | delete collection rkey =>
    obtain ⟨data, s1, h1, he1⟩ := exec_bind_eq_ok _ _ he
    obtain ⟨rfl, hf, ℓ', hd⟩ := of_exec_delete h.data h1
    cases he1
    refine ⟨rfl, rfl, ℓ', _, ?_, h.take hd⟩
    simp only [Write.after, hf, if_true]

theorem of_exec_applyWrites {writes : List (Write Cid)} (h : batch.Tracks st before ℓ xs)
    (hn : ∀ write ∈ writes, write.named = true)
    (he : exec (Store.answer st) (Repo.applyWrites batch writes) s = (.ok batch', s')) :
    s' = s ∧ batch'.leaves = writes.foldl Write.mark batch.leaves ∧
      ∃ ℓ' xs', leavesAfter writes xs = some xs' ∧ batch'.Tracks st before ℓ' xs' := by
  induction writes generalizing batch ℓ xs s with
  | nil =>
    cases he
    exact ⟨rfl, rfl, ℓ, xs, rfl, h⟩
  | cons write rest ih =>
    obtain ⟨batch1, s1, h1, he1⟩ := exec_bind_eq_ok _ _ he
    obtain ⟨rfl, hl, ℓ1, xs1, hx1, ht1⟩ := of_exec_applyWrite h (hn write List.mem_cons_self) h1
    obtain ⟨rfl, hl', ℓ', xs', hx', ht'⟩ :=
      ih ht1 (fun w hw => hn w (List.mem_cons_of_mem write hw)) he1
    refine ⟨rfl, ?_, ℓ', xs', ?_, ht'⟩
    · rw [hl', hl, List.foldl_cons]
    · rw [leavesAfter, hx1, Option.bind_some, hx']

end

/-! ## The revision a batch signs -/

section

variable [Codec Cid]

/-- A repository over some leaves, its tree readable from a store. -/
structure Repo.At (st : Cid → Option Bytes) (ℓ : ℕ) (xs : List (Leaf Cid)) (repo : Repo Cid) :
    Prop where
  data : Holds st ℓ repo.data xs
  root : repo.commit.data = cidAt ℓ xs
  commit : repo.commit.IsAt repo.cid
  records : ∀ x ∈ xs, IsRecord x.value

/-- A store with a commit, the tree it names and the records its leaves name, and nothing else. -/
structure Exact (st : Cid → Option Bytes) (cid : Cid) (ℓ : ℕ) (xs : List (Leaf Cid)) : Prop where
  sound : ∀ c b, st c = some b → c = cidFor b
  mem : ∀ c, (st c).isSome ↔ c = cid ∨ c ∈ preorder ℓ xs

/-- What a store holds once some blocks are put in it. -/
def grown [DecidableEq Cid] (st : Cid → Option Bytes) (blocks : BlockMap Cid) : Cid → Option Bytes :=
  fun c => (blocks.lookup c).or (st c)

/-- What a store holds once some blocks are put in it and the dropped ones no leaf names are
forgotten. -/
def settled [DecidableEq Cid] (st : Cid → Option Bytes) (blocks : BlockMap Cid) (dropped : List Cid)
    (xs : List (Leaf Cid)) : Cid → Option Bytes :=
  fun c => if c ∈ dropped ∧ c ∉ xs.map Leaf.value then none else grown st blocks c

variable {st : Cid → Option Bytes} {ℓ : ℕ} {xs : List (Leaf Cid)} {repo repo' : Repo Cid} {cid c : Cid}

theorem sign_ok {did : Did} {rev : Tid} {data : Cid} {key : Keypair} {commit : Commit Cid}
    (h : Commit.sign did rev data key = .ok commit) :
    commit.did = did ∧ commit.rev = rev ∧ commit.data = data := by
  unfold Commit.sign at h
  simp only at h
  cases hb : encode (Commit.unsigned ⟨did, Commit.currentVersion, data, rev, none, []⟩) with
  | error e =>
    rw [hb] at h
    cases h
  | ok b =>
    rw [hb] at h
    cases h
    exact ⟨rfl, rfl, rfl⟩

theorem add_ok [DecidableEq Cid] {blocks blocks' : BlockMap Cid} {v : Ipld Cid}
    (h : blocks.add v = .ok (cid, blocks')) : ∃ b, encode v = .ok b ∧ cid = cidFor b ∧
      blocks' = blocks.insert (cidFor b) b := by
  unfold BlockMap.add at h
  cases hb : encode v with
  | error e =>
    rw [hb] at h
    cases h
  | ok b =>
    rw [hb] at h
    cases h
    exact ⟨b, rfl, rfl, rfl⟩

section

variable [DecidableEq Cid]

/-- What a batch that went through comes to: the revision, the blocks to store for it and the CIDs
it stops reaching. -/
structure Repo.Applied (st : Cid → Option Bytes) (repo : Repo Cid) (ℓ : ℕ) (xs : List (Leaf Cid))
    (writes : List (Write Cid)) (blocks : BlockMap Cid) (dropped : List Cid) (repo' : Repo Cid)
    (ℓ' : ℕ) (xs' : List (Leaf Cid)) : Prop where
  leaves : leavesAfter writes xs = some xs'
  revision : repo'.At st ℓ' xs'
  rev : repo.rev < repo'.rev
  did : repo'.commit.did = repo.commit.did
  sound : blocks.Sound
  blocks : ∀ c, c ∈ blocks ↔ c = repo'.cid ∨
    (st c = none ∧ ∃ p ∈ nodesOf ℓ' xs', c = cidAt p.1 p.2) ∨
    ∃ x ∈ writes.foldl Write.mark [], c = x.value
  marks : ∀ x ∈ writes.foldl Write.mark [], x ∈ xs'
  others : ∀ x ∈ xs', x ∈ writes.foldl Write.mark [] ∨ x ∈ xs
  gone : ∀ c, c ∉ preorder ℓ' xs' → (c ∈ dropped ↔ c = repo.cid ∨ c ∈ preorder ℓ xs)
  kept : ∀ p ∈ nodesOf ℓ' xs', cidAt p.1 p.2 ∉ dropped

namespace Repo.Applied

variable {writes : List (Write Cid)} {blocks : BlockMap Cid} {dropped : List Cid} {ℓ' : ℕ}
  {xs' : List (Leaf Cid)}

/-- Every block of the new revision is in the store or among the blocks to write. -/
theorem isSome_grown (h : repo.Applied st ℓ xs writes blocks dropped repo' ℓ' xs')
    (hr : repo.At st ℓ xs) (hx : Exact st repo.cid ℓ xs)
    (hc : c = repo'.cid ∨ c ∈ preorder ℓ' xs') : (grown st blocks c).isSome := by
  rw [grown, Option.isSome_or, Bool.or_eq_true, AList.lookup_isSome]
  rcases hc with hc | hc
  · exact Or.inl ((h.blocks c).mpr (Or.inl hc))
  · rcases (mem_preorder h.revision.data.fits).mp hc with ⟨p, hp, rfl⟩ | ⟨x, hx', rfl⟩
    · cases hs : st (cidAt p.1 p.2) with
      | none => exact Or.inl ((h.blocks _).mpr (Or.inr (Or.inl ⟨hs, p, hp, rfl⟩)))
      | some b => exact Or.inr rfl
    · rcases h.others x hx' with hm | hold
      · exact Or.inl ((h.blocks _).mpr (Or.inr (Or.inr ⟨x, hm, rfl⟩)))
      · have hmem := (mem_preorder hr.data.fits).mpr (Or.inr ⟨x, hold, rfl⟩)
        exact Or.inr ((hx.mem _).mpr (Or.inr hmem))

/-- Every block to write belongs to the new revision. -/
theorem mem_of_mem_blocks (h : repo.Applied st ℓ xs writes blocks dropped repo' ℓ' xs')
    (hc : c ∈ blocks) : c = repo'.cid ∨ c ∈ preorder ℓ' xs' := by
  rcases (h.blocks c).mp hc with hc | ⟨-, p, hp, rfl⟩ | ⟨x, hm, rfl⟩
  · exact Or.inl hc
  · exact Or.inr ((mem_preorder h.revision.data.fits).mpr (Or.inl ⟨p, hp, rfl⟩))
  · exact Or.inr ((mem_preorder h.revision.data.fits).mpr (Or.inr ⟨x, h.marks x hm, rfl⟩))

theorem grown_sound (h : repo.Applied st ℓ xs writes blocks dropped repo' ℓ' xs')
    (hx : Exact st repo.cid ℓ xs) {b : Bytes} (hb : grown st blocks c = some b) : c = cidFor b := by
  rcases Option.or_eq_some_iff.mp hb with hb | ⟨-, hb⟩
  · exact h.sound c b hb
  · exact hx.sound c b hb

end Repo.Applied

end

variable [LawfulCodec Cid]

/-- A block under the CID of some bytes is those bytes. -/
theorem eq_some_of_isSome {b : Bytes} (hs : ∀ c b, st c = some b → c = cidFor b)
    (h : (st (cidFor b)).isSome) : st (cidFor b) = some b := by
  obtain ⟨b', hb'⟩ := Option.isSome_iff_exists.mp h
  rw [hb', LawfulCodec.cidFor_injective (hs _ b' hb')]

theorem Exact.stored (h : Exact st cid ℓ xs) (hf : Fits ℓ xs) : Stored st ℓ xs := fun p hp =>
  eq_some_of_isSome h.sound ((h.mem _).mpr (Or.inr ((mem_preorder hf).mpr (Or.inl ⟨p, hp, rfl⟩))))

/-- A node in a store that holds just one revision is a node of that revision, so it is there with
everything under it. -/
theorem Exact.closed (h : Exact st repo.cid ℓ xs) (hr : repo.At st ℓ xs) : Closed st := by
  intro m ys hk hf hsome p hp
  obtain ⟨-, hsub, hfp, hnil⟩ := of_mem_nodesOf hf hp
  have hmem : cidAt p.1 p.2 ∈ preorder ℓ xs := by
    rcases (h.mem _).mp hsome with hc | hc
    · exact absurd hc.symm (hr.commit.ne_cidAt hk)
    · rcases (mem_preorder hr.data.fits).mp hc with ⟨q, hq, he⟩ | ⟨x, hx, he⟩
      · obtain ⟨-, hqs, hqf, -⟩ := of_mem_nodesOf hr.data.fits hq
        have hkq := hr.data.keyed.sublist hqs
        by_cases hne : ys = []
        · subst hne
          obtain rfl : p = (m, []) := by simpa [nodesOf_nil] using hp
          exact hc
        · obtain ⟨rfl, rfl⟩ := cidAt_inj hk hkq hf hqf hne he
          exact (mem_preorder hr.data.fits).mpr (Or.inl ⟨p, nodesOf_trans hq hp, rfl⟩)
      · exact absurd he.symm ((hr.records x hx).ne_cidAt hk)
  exact eq_some_of_isSome h.sound ((h.mem _).mpr (Or.inr hmem))

/-- A commit is neither a node of a tree nor a record under it. -/
theorem cid_notMem {commit : Commit Cid} (hc : commit.IsAt c) (hr : repo.At st ℓ xs) :
    c ∉ preorder ℓ xs := by
  intro hm
  rcases (mem_preorder hr.data.fits).mp hm with ⟨p, hp, he⟩ | ⟨x, hx, rfl⟩
  · exact hc.ne_cidAt (hr.data.keyed.sublist (of_mem_nodesOf hr.data.fits hp).2.1) he
  · exact (hr.records x hx).ne_commit hc

variable [DecidableEq Cid]

theorem of_exec_apply {rounds : ℕ} {writes : List (Write Cid)} {keypair : Keypair} {now : ℕ}
    {clock clock' : TidClock} {blocks : BlockMap Cid} {dropped : List Cid} (hr : repo.At st ℓ xs)
    (hst : Closed st) (he : exec (Store.answer st) (repo.apply rounds writes keypair now) clock =
      (.ok (blocks, dropped, repo'), clock')) :
    (∀ write ∈ writes, write.named = true) ∧
      ∃ ℓ' xs', repo.Applied st ℓ xs writes blocks dropped repo' ℓ' xs' := by
  unfold Repo.apply at he
  split_ifs at he with hany
  · cases he
  have hn : ∀ write ∈ writes, write.named = true := by simpa using hany
  refine ⟨hn, ?_⟩
  obtain ⟨batch, s1, h1, he1⟩ := exec_bind_eq_ok _ _ he
  have hstart : Batch.Tracks st xs ℓ xs ⟨∅, [], repo.data⟩ :=
    ⟨hr.data, BlockMap.Sound.empty, by simp, fun x hx => Or.inr hx, hr.records⟩
  obtain ⟨rfl, hmarks, ℓ', xs', hafter, ht⟩ := of_exec_applyWrites hstart hn h1
  obtain ⟨records, hsurv, hrs, hrm⟩ := survivors_ok ht.sound fun x hx => (ht.leaves x hx).2
  obtain ⟨blocks1, s2, h2, he2⟩ := exec_bind_eq_ok _ _ he1
  rw [hsurv] at h2
  cases h2
  obtain ⟨⟨⟨root, tree⟩, data⟩, s3, h3, he3⟩ := exec_bind_eq_ok _ _ he2
  obtain ⟨tree', data', hun, hd, hts, htm⟩ := exec_unstoredBlocks s1 ht.data hst
  rw [hun] at h3
  cases h3
  obtain ⟨gone, s4, h4, he4⟩ := exec_bind_eq_ok _ _ he3
  rcases exec_dropped s1 rounds hd hr.data with ⟨hu, -⟩ | ⟨gone', hgone, hout, hin, -⟩
  · rw [hu] at h4
    cases h4
  rw [hgone] at h4
  cases h4
  obtain ⟨clock1, s5, h5, he5⟩ := exec_bind_eq_ok _ _ he4
  cases h5
  obtain ⟨minted, clock2, hminted⟩ : ∃ minted clock2, s1.mintAfter now repo.rev = (minted, clock2) :=
    ⟨_, _, rfl⟩
  simp only [hminted] at he5
  obtain ⟨u, s6, h6, he6⟩ := exec_bind_eq_ok _ _ he5
  cases h6
  cases minted with
  | none => cases he6
  | some rev =>
    have hmint : (s1.mintAfter now repo.rev).1 = some rev := by rw [hminted]
    obtain ⟨commit, s7, h7, he7⟩ := exec_bind_eq_ok _ _ he6
    obtain ⟨hsign, rfl⟩ := exec_ofExcept_eq_ok _ _ h7
    obtain ⟨⟨cid, blocks2⟩, s8, h8, he8⟩ := exec_bind_eq_ok _ _ he7
    obtain ⟨hadd, rfl⟩ := exec_ofExcept_eq_ok _ _ h8
    obtain ⟨b, hb, rfl, rfl⟩ := add_ok hadd
    obtain ⟨hdid, hrev, hdata⟩ := sign_ok hsign
    cases he8
    have hrevs : repo.rev < commit.rev := hrev ▸ TidClock.lt_of_mintAfter hmint
    have hcid : (cidFor b : Cid) ≠ repo.cid := by
      intro hc
      have heq : commit = repo.commit := Commit.IsAt.inj ⟨b, hb, rfl⟩ (hc ▸ hr.commit)
      rw [heq] at hrevs
      exact lt_irrefl repo.commit.rev.str hrevs
    refine ⟨ℓ', xs', hafter, ⟨hd, hdata, ⟨b, hb, rfl⟩, ht.records⟩, hrevs, hdid,
      (hrs.merge hts).insert b, fun c => ?_, ?_, ?_, fun c hc => ?_, fun p hp hm => ?_⟩
    · rw [AList.mem_insert, BlockMap.mem_merge, hrm, htm, hmarks]
      exact or_congr Iff.rfl or_comm
    · rw [← hmarks]
      exact fun x hx => (ht.leaves x hx).1
    · rw [← hmarks]
      exact ht.others
    · rw [if_pos hcid, List.mem_append, List.mem_singleton, hout c hc, or_comm]
    · obtain ⟨-, hsub, -, -⟩ := of_mem_nodesOf hd.fits hp
      have hk := hd.keyed.sublist hsub
      rw [if_pos hcid, List.mem_append, List.mem_singleton] at hm
      rcases hm with hm | hm
      · refine hin _ ((mem_preorder hd.fits).mpr (Or.inl ⟨p, hp, rfl⟩)) (fun x hx => ?_)
          (fun y hy => ?_) hm
        · exact (ht.records x hx).ne_cidAt hk
        · exact (hr.records y hy).ne_cidAt hk
      · exact hr.commit.ne_cidAt hk hm.symm

namespace Repo.Applied

variable {writes : List (Write Cid)} {blocks : BlockMap Cid} {dropped : List Cid} {ℓ' : ℕ}
  {xs' : List (Leaf Cid)}

theorem cid_ne (h : repo.Applied st ℓ xs writes blocks dropped repo' ℓ' xs')
    (hr : repo.At st ℓ xs) : repo'.cid ≠ repo.cid := by
  intro hc
  have heq : repo'.commit = repo.commit := h.revision.commit.inj (hc ▸ hr.commit)
  have hrev := h.rev
  rw [Repo.rev, Repo.rev, heq] at hrev
  exact lt_irrefl repo.commit.rev.str hrev

/-- What is written and not forgotten again is the new revision, and nothing else. -/
theorem exact (h : repo.Applied st ℓ xs writes blocks dropped repo' ℓ' xs')
    (hr : repo.At st ℓ xs) (hx : Exact st repo.cid ℓ xs) :
    Exact (settled st blocks dropped xs') repo'.cid ℓ' xs' := by
  have hf := h.revision.data.fits
  refine ⟨fun c b hb => ?_, fun c => ⟨fun hs => ?_, fun hc => ?_⟩⟩
  · unfold settled at hb
    split_ifs at hb
    exact h.grown_sound hx hb
  · by_contra hout
    obtain ⟨hcid, hpre⟩ := not_or.mp hout
    unfold settled at hs
    split_ifs at hs with hd
    · simp at hs
    · rw [grown, Option.isSome_or, Bool.or_eq_true, AList.lookup_isSome] at hs
      rcases hs with hs | hs
      · exact hout (h.mem_of_mem_blocks hs)
      · refine hd ⟨(h.gone c hpre).mpr ((hx.mem c).mp hs), fun hm => hpre ?_⟩
        obtain ⟨x, hx', rfl⟩ := List.mem_map.mp hm
        exact (mem_preorder hf).mpr (Or.inr ⟨x, hx', rfl⟩)
  · have hkeep : ¬ (c ∈ dropped ∧ c ∉ xs'.map Leaf.value) := by
      rintro ⟨hd, hn⟩
      rcases hc with rfl | hc
      · have hpre : repo'.cid ∉ preorder ℓ' xs' := cid_notMem h.revision.commit h.revision
        rcases (h.gone _ hpre).mp hd with he | hm
        · exact h.cid_ne hr he
        · exact cid_notMem h.revision.commit hr hm
      · rcases (mem_preorder hf).mp hc with ⟨p, hp, rfl⟩ | ⟨x, hx', rfl⟩
        · exact h.kept p hp hd
        · exact hn (List.mem_map_of_mem hx')
    rw [settled, if_neg hkeep]
    exact h.isSome_grown hr hx hc

end Repo.Applied

end

end Manapds
