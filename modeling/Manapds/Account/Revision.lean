import Manapds.Account.Alone
import Manapds.Repo.Publish

/-!
# The tables at a revision

`Tables.Carries` says what an account's tables are at one revision of its repository: the root names
its commit, the blocks are those it reaches and no others, and the index has a row for each of its
leaves. A commit of what a write worked out on one revision carries the tables to the next.
-/

namespace Manapds

open KeyedList Shape QueryProgram Routine

variable {Cid : Type} {ℓ : ℕ} {xs xs' : List (Leaf Cid)} {did : Did} {tables : Tables Cid}

/-- The uri of what is at a key of the tree. -/
def uriAt (did : Did) (key : Str) : Str := text "at://" ++ did.str ++ ascii '/' :: key

theorem uri_eq_uriAt (did : Did) (collection : Nsid) (rkey : RecordKey) :
    uri did collection rkey = uriAt did (recordPath collection rkey) := by
  simp [uri, uriPrefix, uriAt, recordPath]

theorem uriAt_inj {key key' : Str} : uriAt did key = uriAt did key' ↔ key = key' := by
  simp [uriAt]

/-- The index has a row for each leaf, with the CID the leaf has. -/
def Agree (did : Did) (rows : List (RecordRow Cid)) (xs : List (Leaf Cid)) : Prop :=
  ∀ key, (Table.find RecordRow.uri (uriAt did key) rows).map RecordRow.cid =
    (find Leaf.key key xs).map Leaf.value

theorem agree_nil (did : Did) : Agree did ([] : List (RecordRow Cid)) [] := fun _ => rfl

section

variable [Codec Cid] {write : Write Cid}

/-- A write that goes through puts its record at its key, or takes out what is there. -/
theorem Write.after_cases (h : write.after xs = some xs') :
    (∃ value cid, write.record = some value ∧ write.cid = some cid ∧
      xs' = KeyedList.put Leaf.key ⟨write.key, cid⟩ xs) ∨
    write.record = none ∧ (find Leaf.key write.key xs).isSome = true ∧
      xs' = take Leaf.key write.key xs := by
  have hput : ∀ value, write.record = some value →
      (write.cid.map fun cid => KeyedList.put Leaf.key ⟨write.key, cid⟩ xs) = some xs' →
      ∃ value cid, write.record = some value ∧ write.cid = some cid ∧
        xs' = KeyedList.put Leaf.key ⟨write.key, cid⟩ xs := by
    intro value hv hm
    obtain ⟨cid, hc, rfl⟩ := Option.map_eq_some_iff.mp hm
    exact ⟨value, cid, hv, hc, rfl⟩
  cases write with
  | create collection rkey value =>
    simp only [Write.after] at h
    split_ifs at h
    exact Or.inl (hput value rfl h)
  | update collection rkey value =>
    simp only [Write.after] at h
    split_ifs at h
    exact Or.inl (hput value rfl h)
  | put collection rkey value => exact Or.inl (hput value rfl h)
  | delete collection rkey =>
    simp only [Write.after] at h
    split_ifs at h with hs
    cases h
    exact Or.inr ⟨rfl, hs, rfl⟩

theorem Write.after_ordered (h : write.after xs = some xs') (ho : Ordered Leaf.key xs) :
    Ordered Leaf.key xs' := by
  rcases Write.after_cases h with ⟨value, cid, -, -, rfl⟩ | ⟨-, -, rfl⟩
  · exact ho.put
  · exact ho.take

theorem leavesAfter_ordered {writes : List (Write Cid)} (h : leavesAfter writes xs = some xs')
    (ho : Ordered Leaf.key xs) : Ordered Leaf.key xs' := by
  induction writes generalizing xs with
  | nil =>
    cases h
    exact ho
  | cons write rest ih =>
    obtain ⟨ys, hy, hrest⟩ := Option.bind_eq_some_iff.mp h
    exact ih hrest (Write.after_ordered hy ho)

namespace Agree

variable {rev : Tid} {rows : List (RecordRow Cid)}

/-- A write moves the index as it moves the leaves. -/
theorem after (h : Agree did rows xs) (ho : Ordered Leaf.key xs) {record : Indexed Cid}
    (hw : write.Indexes record) (ha : write.after xs = some xs') :
    Agree did (record.indexRow did rev rows) xs' := by
  intro key
  have hkey : uri did write.collection write.rkey = uriAt did key ↔ write.key = key := by
    rw [uri_eq_uriAt, uriAt_inj]
    rfl
  rcases hw.eq_put_or_delete with ⟨value, bytes, blobs, hv, he, -, rfl⟩ | ⟨hv, rfl⟩
  · rcases Write.after_cases ha with ⟨value', cid, hv', hc, rfl⟩ | ⟨hv', -, -⟩
    · rw [cid_of_encode hv he] at hc
      obtain rfl := Option.some.inj hc
      rw [ho.find_put, Indexed.find_put]
      by_cases hk : write.key = key
      · rw [if_pos hk, if_pos (hkey.mpr hk)]
        cases Table.find RecordRow.uri (uriAt did key) rows <;> rfl
      · rw [if_neg hk, if_neg fun hu => hk (hkey.mp hu)]
        exact h key
    · rw [hv] at hv'
      cases hv'
  · rcases Write.after_cases ha with ⟨value', cid, hv', -, -⟩ | ⟨-, -, rfl⟩
    · rw [hv] at hv'
      cases hv'
    · rw [ho.find_take, Indexed.find_delete]
      by_cases hk : write.key = key
      · rw [if_pos hk, if_pos (hkey.mpr hk).symm]
        rfl
      · rw [if_neg hk, if_neg fun hu => hk (hkey.mp hu.symm)]
        exact h key

/-- A batch moves the index as it moves the leaves. -/
theorem leavesAfter {planned : List (Planned Cid)} (h : Agree did rows xs) (ho : Ordered Leaf.key xs)
    (hp : ∀ p ∈ planned, p.write.Indexes p.index)
    (hl : Manapds.leavesAfter (planned.map Planned.write) xs = some xs') :
    Agree did ((planned.map Planned.index).foldl (Indexed.indexRow did rev) rows) xs' := by
  induction planned generalizing xs rows with
  | nil =>
    cases hl
    exact h
  | cons p rest ih =>
    obtain ⟨ys, hy, hrest⟩ := Option.bind_eq_some_iff.mp hl
    exact ih (h.after ho (hp p List.mem_cons_self) hy) (Write.after_ordered hy ho)
      (fun q hq => hp q (List.mem_cons_of_mem p hq)) hrest

end Agree

omit [Codec Cid] in
/-- The CIDs in the index are those of the leaves. -/
theorem Agree.exists_row_iff {rows : List (RecordRow Cid)} (h : Agree did rows xs)
    (ho : Ordered Leaf.key xs) (hk : Table.Keyed RecordRow.uri rows)
    (hn : ∀ row ∈ rows, row.uri = uri did row.collection row.rkey) (cid : Cid) :
    (∃ row ∈ rows, row.cid = cid) ↔ cid ∈ xs.map Leaf.value := by
  rw [List.mem_map]
  constructor
  · rintro ⟨row, hm, rfl⟩
    have hat := h (recordPath row.collection row.rkey)
    rw [← uri_eq_uriAt, ← hn row hm, hk.find_eq_some.mpr ⟨hm, rfl⟩, Option.map_some] at hat
    obtain ⟨x, hx, hv⟩ := Option.map_eq_some_iff.mp hat.symm
    exact ⟨x, (find_mem hx).1, hv⟩
  · rintro ⟨x, hx, rfl⟩
    have hat := h x.key
    rw [ho.find_eq_some.mpr ⟨hx, rfl⟩, Option.map_some] at hat
    obtain ⟨row, hrow, hc⟩ := Option.map_eq_some_iff.mp hat
    exact ⟨row, Table.mem_of_find hrow, hc⟩

variable [DecidableEq Cid]

/-- An account's tables at a revision of its repository. -/
structure Tables.Carries (did : Did) (tables : Tables Cid) (repo : Repo Cid) (ℓ : ℕ)
    (xs : List (Leaf Cid)) : Prop where
  root : tables.repoRoot = some ⟨repo.cid, repo.rev⟩
  stands : repo.At tables.stored ℓ xs
  exact : Exact tables.stored repo.cid ℓ xs
  agree : Agree did tables.record xs
  mirrors : tables.Mirrors did
  tied : tables.Tied []
  blocks : Table.Keyed BlockRow.cid tables.repoBlock

/-- What is stored once a revision has landed is what was, with its blocks grown and settled. -/
theorem stored_of_blocksLeft [LawfulCodec Cid] {rev : Tid} {before after : Tables Cid}
    {blocks : BlockMap Cid} {dropped : List Cid} (hk : Table.Keyed BlockRow.cid before.repoBlock)
    (hb : after.repoBlock = Landing.blocksLeft rev blocks dropped after.record before.repoBlock)
    (hs : ∀ c b, before.stored c = some b → c = cidFor b) (hbs : blocks.Sound)
    (hr : ∀ cid, (∃ row ∈ after.record, row.cid = cid) ↔ cid ∈ xs.map Leaf.value) :
    after.stored = settled before.stored blocks dropped xs := by
  funext cid
  have hforget : (cid ∈ dropped ∧ ∀ row ∈ after.record, row.cid ≠ cid) ↔
      (cid ∈ dropped ∧ cid ∉ xs.map Leaf.value) := by
    rw [← hr]
    simp
  have hgrown : ((Table.find BlockRow.cid cid before.repoBlock).or
      ((blocks.lookup cid).map fun bytes => ⟨cid, rev, bytes⟩)).map BlockRow.content =
        grown before.stored blocks cid := by
    unfold grown
    cases hf : Table.find BlockRow.cid cid before.repoBlock with
    | none =>
      have hnone : before.stored cid = none := by
        unfold Tables.stored
        rw [hf]
        rfl
      rw [hnone, Option.none_or, Option.or_none, Option.map_map]
      exact Option.map_id'
    | some row =>
      have hsome : before.stored cid = some row.content := by
        unfold Tables.stored
        rw [hf]
        rfl
      rw [hsome, Option.some_or, Option.map_some]
      cases hl : blocks.lookup cid with
      | none => rfl
      | some bytes =>
        have hcid := (hs cid row.content hsome).symm.trans (hbs cid bytes hl)
        rw [Option.some_or, LawfulCodec.cidFor_injective hcid]
  unfold settled
  rw [Tables.stored, hb, Landing.find_blocksLeft hk]
  by_cases hd : cid ∈ dropped ∧ cid ∉ xs.map Leaf.value
  · rw [if_pos hd, if_pos (hforget.mpr hd)]
    rfl
  · rw [if_neg hd, if_neg fun hh => hd (hforget.mp hh), hgrown]

namespace Tables.Carries

variable {repo : Repo Cid} {after : Tables Cid}

/-- Blobs come and go without the repository noticing. -/
theorem frame (h : tables.Carries did repo ℓ xs) (hroot : after.repoRoot = tables.repoRoot)
    (hblock : after.repoBlock = tables.repoBlock) (hrecord : after.record = tables.record)
    (hlink : after.backlink = tables.backlink) (hrb : after.recordBlob = tables.recordBlob)
    (ht : after.Tied []) : after.Carries did repo ℓ xs := by
  have hstored : after.stored = tables.stored := by
    funext cid
    unfold Tables.stored
    rw [hblock]
  refine ⟨hroot.trans h.root, ?_, ?_, ?_, h.mirrors.frame hrecord hlink hrb, ht, ?_⟩
  · rw [hstored]
    exact h.stands
  · rw [hstored]
    exact h.exact
  · rw [hrecord]
    exact h.agree
  · rw [hblock]
    exact h.blocks

variable [LawfulCodec Cid] {actor actor' : ActorState Cid}

theorem genesis {keypair : Keypair} {now : ℕ} {clock clock' : TidClock} {blocks : BlockMap Cid}
    {files : BlobFiles Cid} {committed : Committed Cid}
    (hc : Repo.create did keypair now clock = (.ok (repo, blocks), clock'))
    (hl : (⟨Tables.empty, files⟩ : ActorState Cid).commit did
      ⟨none, ⟨repo.cid, repo.rev⟩, blocks, [], []⟩ = (.ok (some committed), actor)) :
    actor.tables.Carries did repo 0 [] := by
  obtain ⟨hr, hx⟩ := of_create hc
  obtain ⟨s, hs, -, htab, -, -⟩ := ActorState.commit_landed hl
  obtain ⟨hrecord, -, -, hblock, -⟩ := Landing.store_ok hs
  have hrows : s.tables.record = [] := hrecord
  have hmirrors : s.tables.Mirrors did := by
    apply Tables.Mirrors.empty.stored _ hs
    exact fun record hm => absurd hm List.not_mem_nil
  have hstored : s.tables.stored = blocks.lookup := by
    have hnone : ∀ cid, (∃ row ∈ s.tables.record, row.cid = cid) ↔
        cid ∈ ([] : List (Leaf Cid)).map Leaf.value := by
      simp [hrows]
    have hsettled := stored_of_blocksLeft (Table.keyed_nil _) hblock
      (fun c b hb => nomatch hb) hx.sound hnone
    rw [hsettled]
    funext cid
    simp only [settled, List.not_mem_nil, false_and, if_false, grown]
    exact Option.or_none
  rw [htab]
  refine ⟨rfl, ?_, ?_, ?_, hmirrors.frame rfl rfl rfl, ?_, ?_⟩
  · change repo.At s.tables.stored 0 []
    rw [hstored]
    exact hr
  · change Exact s.tables.stored repo.cid 0 []
    rw [hstored]
    exact hx
  · change Agree did s.tables.record []
    rw [hrows]
    exact agree_nil did
  · exact (ActorState.under_stored Tables.tied_empty hs).tied.frame rfl rfl
  · change Table.Keyed BlockRow.cid s.tables.repoBlock
    rw [hblock]
    exact Landing.keyed_blocksLeft (Table.keyed_nil _) _ _ _

/-- A commit of what a batch came to on one revision carries the tables to the next. -/
theorem landed (h : actor.tables.Carries did repo ℓ xs) {read next : Repo Cid} {plan : Plan Cid}
    {rounds now : ℕ} {keypair : Keypair} {clock clock' : TidClock} {blocks : BlockMap Cid}
    {dropped : List Cid} {start : Option (Root Cid)} {committed : Committed Cid}
    (hp : ∀ p ∈ plan.planned, p.write.Indexes p.index) (hr : repo.Again actor.tables ℓ xs read)
    (ha : exec (Store.answer actor.tables.stored) (read.apply rounds plan.writes keypair now) clock =
      (.ok (blocks, dropped, next), clock'))
    (hl : actor.commit did ⟨start, ⟨next.cid, next.rev⟩, blocks, dropped, plan.index⟩ =
      (.ok (some committed), actor')) :
    ∃ ℓ' xs', leavesAfter plan.writes xs = some xs' ∧ repo.rev < next.rev ∧
      actor'.tables.Carries did next ℓ' xs' := by
  have hx : Exact actor.tables.stored read.cid ℓ xs := by
    rw [hr.cid]
    exact h.exact
  obtain ⟨-, ℓ', xs', happ⟩ := of_exec_apply hr.stands (hx.closed hr.stands) ha
  obtain ⟨s, hs, -, htab, -, -⟩ := ActorState.commit_landed hl
  obtain ⟨hrecord, -, -, hblock, -⟩ := Landing.store_ok hs
  have hwrites : (⟨start, ⟨next.cid, next.rev⟩, blocks, dropped, plan.index⟩ :
      Revision Cid).OfWrites := by
    intro record hm
    obtain ⟨p, hpm, rfl⟩ := List.mem_map.mp hm
    exact ⟨p.write, hp p hpm⟩
  have hmirrors : s.tables.Mirrors did := h.mirrors.stored hwrites hs
  have hordered : Ordered Leaf.key xs' := leavesAfter_ordered happ.leaves hr.stands.data.keyed.ordered
  have hagree : Agree did s.tables.record xs' := by
    rw [hrecord]
    exact h.agree.leavesAfter hr.stands.data.keyed.ordered hp happ.leaves
  have hstored : s.tables.stored = settled actor.tables.stored blocks dropped xs' :=
    stored_of_blocksLeft h.blocks hblock h.exact.sound happ.sound
      (hagree.exists_row_iff hordered hmirrors.keyed hmirrors.named)
  have hrev : read.rev = repo.rev := congrArg Commit.rev hr.commit
  refine ⟨ℓ', xs', happ.leaves, hrev ▸ happ.rev, ?_⟩
  rw [htab]
  refine ⟨rfl, ?_, ?_, hagree, hmirrors.frame rfl rfl rfl, ?_, ?_⟩
  · change next.At s.tables.stored ℓ' xs'
    rw [hstored]
    exact happ.at_settled hr.stands hx
  · change Exact s.tables.stored next.cid ℓ' xs'
    rw [hstored]
    exact happ.exact hr.stands hx
  · exact (ActorState.under_stored h.tied hs).tied.frame rfl rfl
  · change Table.Keyed BlockRow.cid s.tables.repoBlock
    rw [hblock]
    exact Landing.keyed_blocksLeft h.blocks _ _ _

end Tables.Carries

end

end Manapds
