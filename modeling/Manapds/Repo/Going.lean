import Mathlib.Data.Finset.Lattice.Fold
import Mathlib.Data.Finset.Range
import Mathlib.Order.Lattice.Nat
import Manapds.Repo.Applied
import Manapds.Syntax.Alphabet

/-!
# A batch that goes through

Every key a write can name is one the tree takes. So a batch whose records encode is refused for
what is at its keys alone, and where each write finds its key as it wants it only the clock or the
walk of `Mst.dropped` can stop it.
-/

namespace Manapds

open KeyedList Shape QueryProgram Routine

/-! ## Keys -/

theorem isKeyByte_of_alphanumeric {b : Byte} (h : b.isAsciiAlphanumeric = true) :
    isKeyByte b = true := by
  simp [isKeyByte, h]

theorem slash_ne_of_isKeyByte {b : Byte} (h : isKeyByte b = true) : b ≠ ascii '/' := by
  rintro rfl
  revert h
  decide

theorem Nsid.isKeyByte (collection : Nsid) : ∀ b ∈ collection.str, Manapds.isKeyByte b = true := by
  intro b hb
  have hdomain := collection.isDomainByte b hb
  simp only [Byte.isDomainByte, Bool.or_eq_true, decide_eq_true_eq] at hdomain
  rcases hdomain with (h | rfl) | rfl
  · exact isKeyByte_of_alphanumeric h
  · decide
  · decide

theorem RecordKey.isKeyByte (rkey : RecordKey) : ∀ b ∈ rkey.str, Manapds.isKeyByte b = true := by
  intro b hb
  have hb := rkey.isAllowed_of_mem b hb
  simp only [isAllowed, Bool.or_eq_true, decide_eq_true_eq] at hb
  simp only [Manapds.isKeyByte, Bool.or_eq_true, decide_eq_true_eq]
  tauto

theorem split_recordPath (collection : Nsid) (rkey : RecordKey) :
    (recordPath collection rkey).split (ascii '/') = [collection.str, rkey.str] := by
  unfold Str.split recordPath
  rw [List.splitOn_append_cons_self_of_not_mem, List.splitOn_eq_singleton]
  · exact fun hm => slash_ne_of_isKeyByte (rkey.isKeyByte _ hm) rfl
  · exact fun hm => slash_ne_of_isKeyByte (collection.isKeyByte _ hm) rfl

theorem recordPath_inj {collection collection' : Nsid} {rkey rkey' : RecordKey} :
    recordPath collection rkey = recordPath collection' rkey' ↔
      collection = collection' ∧ rkey = rkey' := by
  constructor
  · intro h
    have hsplit := congrArg (Str.split (ascii '/')) h
    rw [split_recordPath, split_recordPath] at hsplit
    obtain ⟨hc, hr⟩ := List.cons.inj hsplit
    exact ⟨Nsid.ext hc, RecordKey.ext (List.cons.inj hr).1⟩
  · rintro ⟨rfl, rfl⟩
    rfl

/-- The tree takes any key a record can be at. -/
theorem ensureValidKey_recordPath {Cid : Type} (collection : Nsid) (rkey : RecordKey) :
    (ensureValidKey (recordPath collection rkey) : Except (RepoError Cid) Unit) = .ok () := by
  have hlen : (recordPath collection rkey).length ≤ maxKeyLen := by
    have hc := collection.length_le
    have hr := rkey.length_le
    simp only [recordPath, List.length_append, List.length_cons, maxKeyLen]
    omega
  have hall : ∀ b ∈ recordPath collection rkey, b = ascii '/' ∨ isKeyByte b = true := by
    intro b hb
    rcases List.mem_append.mp hb with hb | hb
    · exact Or.inr (collection.isKeyByte b hb)
    · exact (List.mem_cons.mp hb).imp id (rkey.isKeyByte b)
  have hc := collection.ne_nil
  have hr := rkey.ne_nil
  simp only [ensureValidKey, split_recordPath]
  rw [if_pos]
  simpa [hlen, hc, hr] using hall

/-! ## Batches -/

variable {Cid : Type}

theorem Write.ensureValidKey (write : Write Cid) :
    (Manapds.ensureValidKey write.key : Except (RepoError Cid) Unit) = .ok () :=
  ensureValidKey_recordPath write.collection write.rkey

variable [Codec Cid] {st : Cid → Option Bytes} {ℓ : ℕ} {xs xs' before : List (Leaf Cid)}
  {batch : Batch Cid} {write : Write Cid} {writes : List (Write Cid)}

theorem exists_encode_of_cid {record : Value Cid} {cid : Cid} (hc : write.cid = some cid)
    (hr : write.record = some record) : ∃ b, encode record.ipld = .ok b ∧ cid = cidFor b := by
  unfold Write.cid at hc
  rw [hr, Option.bind_some] at hc
  cases hb : encode record.ipld with
  | error e =>
    rw [hb] at hc
    cases hc
  | ok b =>
    rw [hb] at hc
    exact ⟨b, rfl, (Option.some.inj hc).symm⟩

variable [DecidableEq Cid]

theorem encodeAt_eq {key : Str} {record : Value Cid} {b : Bytes} (hb : encode record.ipld = .ok b) :
    Repo.encodeAt batch key record = .ok (cidFor b, ⟨batch.encoded.insert (cidFor b) b,
      put Leaf.key ⟨key, cidFor b⟩ batch.leaves, batch.data⟩) := by
  unfold Repo.encodeAt BlockMap.add
  rw [hb]
  rfl

variable [LawfulCodec Cid] {σ : Type} (s : σ)

theorem exec_updateOrAdd {key : Str} {t : Mst Cid} (hh : Holds st ℓ t xs)
    (hv : (ensureValidKey key : Except (RepoError Cid) Unit) = .ok ()) (value : Cid) : ∃ t',
    exec (Store.answer st) (Repo.updateOrAdd t key value) s = (.ok t', s) := by
  obtain ⟨t1, hget, ht1⟩ := exec_get s hh key
  unfold Repo.updateOrAdd
  rw [exec_bind, hget]
  by_cases hf : ((find Leaf.key key xs).map Leaf.value).isSome = true
  · have hkey := exists_key_iff_find.mpr ((Option.isSome_map ..).symm.trans hf)
    obtain ⟨t2, hu, -⟩ := exec_update s ht1 hv hkey value
    exact ⟨t2, by simp only [if_pos hf, hu]⟩
  · have hkey : ∀ x ∈ xs, x.key ≠ key := by
      intro x hx hk
      exact hf ((Option.isSome_map ..).trans (exists_key_iff_find.mp ⟨x, hx, hk⟩))
    obtain ⟨t2, ha, -⟩ := exec_add s ht1 hv hkey value
    exact ⟨t2, by simp only [if_neg hf, ha]⟩

/-- A write whose key is as it wants it goes through. -/
theorem exec_applyWrite (h : batch.Tracks st before ℓ xs) (ha : write.after xs = some xs') :
    ∃ batch', exec (Store.answer st) (Repo.applyWrite batch write) s = (.ok batch', s) := by
  have hv := write.ensureValidKey
  cases write with
  | create collection rkey record =>
    obtain ⟨cid, hc⟩ := Write.cid_of_after ha rfl
    obtain ⟨b, hb, rfl⟩ := exists_encode_of_cid hc rfl
    simp only [Write.after] at ha
    split_ifs at ha with hf
    obtain ⟨t, hadd, -⟩ := exec_add s h.data hv
      (fun x hx hk => hf (exists_key_iff_find.mp ⟨x, hx, hk⟩)) (cidFor b)
    refine ⟨⟨batch.encoded.insert (cidFor b) b, KeyedList.put Leaf.key
      ⟨recordPath collection rkey, cidFor b⟩ batch.leaves, t⟩, ?_⟩
    simp only [Repo.applyWrite, encodeAt_eq hb, exec_bind, exec_ofExcept_ok, hadd, exec_pure]
    rfl
  | update collection rkey record =>
    obtain ⟨cid, hc⟩ := Write.cid_of_after ha rfl
    obtain ⟨b, hb, rfl⟩ := exists_encode_of_cid hc rfl
    simp only [Write.after] at ha
    split_ifs at ha with hf
    obtain ⟨t, hupdate, -⟩ := exec_update s h.data hv (exists_key_iff_find.mpr hf) (cidFor b)
    refine ⟨⟨batch.encoded.insert (cidFor b) b, KeyedList.put Leaf.key
      ⟨recordPath collection rkey, cidFor b⟩ batch.leaves, t⟩, ?_⟩
    simp only [Repo.applyWrite, encodeAt_eq hb, exec_bind, exec_ofExcept_ok, hupdate, exec_pure]
    rfl
  | put collection rkey record =>
    obtain ⟨cid, hc⟩ := Write.cid_of_after ha rfl
    obtain ⟨b, hb, rfl⟩ := exists_encode_of_cid hc rfl
    obtain ⟨t, hput⟩ := exec_updateOrAdd s h.data hv (cidFor b)
    refine ⟨⟨batch.encoded.insert (cidFor b) b, KeyedList.put Leaf.key
      ⟨recordPath collection rkey, cidFor b⟩ batch.leaves, t⟩, ?_⟩
    simp only [Repo.applyWrite, encodeAt_eq hb, exec_bind, exec_ofExcept_ok, hput, exec_pure]
    rfl
  | delete collection rkey =>
    simp only [Write.after] at ha
    split_ifs at ha with hf
    obtain ⟨ℓ', t, hdelete, -⟩ := exec_delete s h.data (exists_key_iff_find.mpr hf)
    refine ⟨⟨batch.encoded, take Leaf.key (recordPath collection rkey) batch.leaves, t⟩, ?_⟩
    simp only [Repo.applyWrite, exec_bind, hdelete, exec_pure]
    rfl

theorem exec_applyWrites (h : batch.Tracks st before ℓ xs)
    (hn : ∀ write ∈ writes, write.named = true) (hl : leavesAfter writes xs = some xs') :
    ∃ batch', exec (Store.answer st) (Repo.applyWrites batch writes) s = (.ok batch', s) := by
  induction writes generalizing batch ℓ xs with
  | nil => exact ⟨batch, rfl⟩
  | cons write rest ih =>
    obtain ⟨ys, hy, hrest⟩ := Option.bind_eq_some_iff.mp hl
    obtain ⟨batch1, h1⟩ := exec_applyWrite s h hy
    obtain ⟨-, -, ℓ1, ys', hy', ht⟩ := of_exec_applyWrite h (hn write List.mem_cons_self) h1
    obtain rfl := Option.some.inj (hy'.symm.trans hy)
    obtain ⟨batch2, h2⟩ := ih ht (fun w hw => hn w (List.mem_cons_of_mem write hw)) hrest
    refine ⟨batch2, ?_⟩
    rw [Repo.applyWrites, exec_bind]
    simp only [h1, h2]

omit [DecidableEq Cid] in
theorem exists_sign (did : Did) (rev : Tid) (data : Cid) (key : Keypair) :
    ∃ commit : Commit Cid, Commit.sign did rev data key = .ok commit ∧
      ∃ b, encode commit.toIpld = .ok b := by
  obtain ⟨b, hb⟩ := exists_encode (Commit.wf_unsigned
    (⟨did, Commit.currentVersion, data, rev, none, []⟩ : Commit Cid)) (Commit.plain_unsigned _)
  refine ⟨⟨did, Commit.currentVersion, data, rev, none, key.sign b⟩, ?_,
    exists_encode (Commit.wf_toIpld _) (Commit.plain_toIpld _)⟩
  simp only [Commit.sign, hb]
  rfl

/-- A batch that finds its keys as it wants them goes through, unless the walk of `Mst.dropped` is
cut short or there is no revision left after this one. -/
theorem exec_apply {repo : Repo Cid} (hr : repo.At st ℓ xs) (hst : Closed st)
    (hn : ∀ write ∈ writes, write.named = true) (hl : leavesAfter writes xs = some xs')
    (rounds : ℕ) (keypair : Keypair) (now : ℕ) (clock : TidClock) :
    (∃ blocks dropped next clock', (clock.mintAfter now repo.rev).1 = some next.rev ∧
      exec (Store.answer st) (repo.apply rounds writes keypair now) clock =
        (.ok (blocks, dropped, next), clock')) ∨
    (exec (Store.answer st) (repo.apply rounds writes keypair now) clock = (.error .unfinished, clock) ∧
      ∃ ℓ' ≤ 128, rounds ≤ (preorder ℓ xs).length + (preorder ℓ' xs').length) ∨
    ((clock.mintAfter now repo.rev).1 = none ∧ ∃ clock', exec (Store.answer st)
      (repo.apply rounds writes keypair now) clock = (.error (.noRevisionAfter repo.rev), clock')) := by
  have hany : ¬(writes.any fun write => !write.named) = true := by simpa using hn
  have hstart : Batch.Tracks st xs ℓ xs ⟨∅, [], repo.data⟩ :=
    ⟨hr.data, BlockMap.Sound.empty, by simp, fun x hx => Or.inr hx, hr.records⟩
  obtain ⟨batch, hb⟩ := exec_applyWrites clock hstart hn hl
  obtain ⟨-, -, ℓ', ys, hy, ht⟩ := of_exec_applyWrites hstart hn hb
  obtain rfl := Option.some.inj (hy.symm.trans hl)
  obtain ⟨records, hsurv, -, -⟩ := survivors_ok ht.sound fun x hx => (ht.leaves x hx).2
  obtain ⟨tree, data, hun, hd, -, -⟩ := exec_unstoredBlocks clock ht.data hst
  unfold Repo.apply
  rw [if_neg hany]
  simp only [exec_bind, hb, hsurv, exec_ofExcept_ok, hun]
  rcases exec_dropped clock rounds hd hr.data with ⟨hu, hle⟩ | ⟨gone, hgone, -⟩
  · right
    left
    simp only [hu]
    exact ⟨trivial, ℓ', hd.le, hle⟩
  cases hmint : clock.mintAfter now repo.rev with
  | mk rev clock' =>
    simp only [hgone, Routine.exec_get, hmint, Routine.exec_set]
    cases rev with
    | none =>
      right
      right
      exact ⟨rfl, clock', rfl⟩
    | some rev =>
      left
      obtain ⟨commit, hsign, b, hb⟩ := exists_sign repo.commit.did rev (cidAt ℓ' ys) keypair
      have hadd : (records.merge tree).add commit.toIpld =
          .ok (cidFor b, (records.merge tree).insert (cidFor b) b) := by
        unfold BlockMap.add
        rw [hb]
        rfl
      refine ⟨(records.merge tree).insert (cidFor b) b,
        if (cidFor b : Cid) ≠ repo.cid then gone ++ [repo.cid] else gone,
        ⟨cidFor b, commit, data⟩, clock', ?_, ?_⟩
      · exact congrArg some (sign_ok hsign).2.1.symm
      · simp only [exec_bind, hsign, hadd, exec_ofExcept_ok, exec_pure]

/-- Such a batch is never refused for what is at a key. -/
theorem exec_apply_error {repo : Repo Cid} (hr : repo.At st ℓ xs) (hst : Closed st)
    (hl : leavesAfter writes xs = some xs') {rounds now : ℕ} {keypair : Keypair}
    {clock clock' : TidClock} {e : RepoError Cid}
    (he : exec (Store.answer st) (repo.apply rounds writes keypair now) clock = (.error e, clock')) :
    (∃ why, e = .notRecordData why) ∨ e = .unfinished ∨ e = .noRevisionAfter repo.rev := by
  by_cases hn : ∀ write ∈ writes, write.named = true
  · right
    rcases exec_apply hr hst hn hl rounds keypair now clock with
      ⟨blocks, dropped, next, clock1, -, hok⟩ | ⟨hu, -⟩ | ⟨-, clock1, hnone⟩
    · rw [hok] at he
      cases he
    · rw [hu] at he
      cases he
      exact Or.inl rfl
    · rw [hnone] at he
      cases he
      exact Or.inr rfl
  · have hany : (writes.any fun write => !write.named) = true := by simpa using hn
    left
    unfold Repo.apply at he
    rw [if_pos hany] at he
    cases he
    exact ⟨_, rfl⟩

/-- Rounds enough for the walk of `Mst.dropped` over a batch, whatever tree it leaves. -/
def roundsFor (ℓ : ℕ) (xs xs' : List (Leaf Cid)) : ℕ :=
  (preorder ℓ xs).length + ((Finset.range 129).sup fun ℓ' => (preorder ℓ' xs').length) + 1

omit [DecidableEq Cid] [LawfulCodec Cid] in
theorem lt_roundsFor {ℓ' : ℕ} (h : ℓ' ≤ 128) :
    (preorder ℓ xs).length + (preorder ℓ' xs').length < roundsFor ℓ xs xs' := by
  have hm : ℓ' ∈ Finset.range 129 := Finset.mem_range.mpr (Nat.lt_succ_of_le h)
  have hsup := Finset.le_sup (f := fun ℓ' => (preorder ℓ' xs').length) hm
  unfold roundsFor
  omega

/-- With rounds enough and room for a revision, a batch that finds its keys as it wants them goes
through. -/
theorem exec_apply_ok {repo : Repo Cid} (hr : repo.At st ℓ xs) (hst : Closed st)
    (hn : ∀ write ∈ writes, write.named = true) (hl : leavesAfter writes xs = some xs')
    (keypair : Keypair) {now : ℕ} {clock : TidClock} {rev : Tid}
    (hm : (clock.mintAfter now repo.rev).1 = some rev) : ∃ blocks dropped next clock', next.rev = rev ∧
    exec (Store.answer st) (repo.apply (roundsFor ℓ xs xs') writes keypair now) clock =
      (.ok (blocks, dropped, next), clock') := by
  rcases exec_apply hr hst hn hl (roundsFor ℓ xs xs') keypair now clock with
    ⟨blocks, dropped, next, clock', hrev, he⟩ | ⟨-, ℓ', hle, hrounds⟩ | ⟨hnone, -⟩
  · exact ⟨blocks, dropped, next, clock', Option.some.inj (hrev.symm.trans hm), he⟩
  · exact absurd hrounds (not_le.mpr (lt_roundsFor hle))
  · rw [hm] at hnone
    cases hnone

variable (Cid) in
/-- The first commit of a repository. -/
theorem exists_create (did : Did) (keypair : Keypair) (now : ℕ) (clock : TidClock) :
    ∃ (repo : Repo Cid) (blocks : BlockMap Cid), Repo.create did keypair now clock =
      (.ok (repo, blocks), (clock.mint now).2) ∧ repo.rev = (clock.mint now).1 := by
  have hempty : Closed (fun _ : Cid => none) := by
    intro ℓ xs _ _ hs
    cases hs
  obtain ⟨tree, data, hun, -, -, -⟩ := exec_unstoredBlocks clock holds_empty hempty
  obtain ⟨commit, hsign, b, hb⟩ := exists_sign did (clock.mint now).1 (cidAt 0 ([] : List (Leaf Cid))) keypair
  have hadd : tree.add commit.toIpld = .ok (cidFor b, tree.insert (cidFor b) b) := by
    unfold BlockMap.add
    rw [hb]
    rfl
  refine ⟨⟨cidFor b, commit, data⟩, tree.insert (cidFor b) b, ?_, (sign_ok hsign).2.1⟩
  unfold Repo.create Repo.createIn
  simp only [exec_bind, hun, Routine.exec_get, Routine.exec_set, hsign, hadd, exec_ofExcept_ok,
    exec_pure]

end Manapds
