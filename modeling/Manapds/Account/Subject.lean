import Manapds.Account.Linear
import Manapds.Store.Address

/-!
# One record for each subject

A record of the four collections takes the place of whatever else in its collection points where it
does. What points there is looked up in the index, and the index says what the records say, so the
keys taken out are keys of the tree, each once, and no other record is touched.
-/

namespace Manapds

open KeyedList Shape QueryProgram Routine

variable {Cid : Type}

/-- `createRecord`, where the caller left it to be checked. -/
def createRecord (collection : Nsid) (rkey : RecordKey) (record : Value Cid) : Requested Cid :=
  ⟨.create collection rkey record, .anything, .refuse, .supersede⟩

/-- A write refused for what is at a key of the tree. -/
def AccountError.AtKey (e : AccountError Cid) : Prop :=
  ∃ key, e = .repo (.keyExists key) ∨ e = .repo (.keyMissing key)

/-! ## Errors that are not of a key -/

theorem error_of_append {ε α : Type} {a b : Except ε (List α)} {e : ε}
    (h : (do return (← a) ++ (← b)) = (.error e : Except ε (List α))) : a = .error e ∨ b = .error e := by
  cases a with
  | error e' =>
    cases h
    exact Or.inl rfl
  | ok l =>
    cases b with
    | error e' =>
      cases h
      exact Or.inr rfl
    | ok l' => cases h

mutual

theorem BlobRef.error_of {v : Ipld Cid} {e : RepoError Cid} (h : BlobRef.of v = .error e) :
    ∃ why, e = .notRecordData why := by
  cases v with
  | list items => exact BlobRef.error_ofItems h
  | map fields =>
    unfold BlobRef.of at h
    split at h
    · cases h
    · split_ifs at h
      · cases h
        exact ⟨_, rfl⟩
      · exact BlobRef.error_ofFields h
  | null | bool | integer | float | string | bytes | link => cases h

theorem BlobRef.error_ofItems {items : List (Ipld Cid)} {e : RepoError Cid}
    (h : BlobRef.ofItems items = .error e) : ∃ why, e = .notRecordData why := by
  cases items with
  | nil => cases h
  | cons v rest => exact (error_of_append h).elim BlobRef.error_of BlobRef.error_ofItems

theorem BlobRef.error_ofFields {fields : List (Str × Ipld Cid)} {e : RepoError Cid}
    (h : BlobRef.ofFields fields = .error e) : ∃ why, e = .notRecordData why := by
  cases fields with
  | nil => cases h
  | cons field rest => exact (error_of_append h).elim BlobRef.error_of BlobRef.error_ofFields

end

section

variable [Codec Cid] {write : Write Cid} {did : Did} {prev : Option Cid} {e : RepoError Cid}

theorem Write.planned_error (h : write.planned did prev = .error e) :
    (∃ why, e = .notRecordData why) ∨ ∃ why, e = .encode why := by
  unfold Write.planned at h
  cases hb : write.blobs with
  | error e' =>
    rw [hb] at h
    cases h
    unfold Write.blobs at hb
    cases hv : write.record with
    | none =>
      rw [hv] at hb
      cases hb
    | some value =>
      rw [hv] at hb
      exact Or.inl (BlobRef.error_of hb)
  | ok blobs =>
    cases hc : write.encoded with
    | ok cid =>
      rw [hb, hc] at h
      cases h
    | error e' =>
      rw [hb, hc] at h
      cases h
      right
      unfold Write.encoded at hc
      cases hv : write.record with
      | none =>
        rw [hv] at hc
        cases hc
      | some value =>
        rw [hv] at hc
        dsimp only at hc
        unfold encode at hc
        cases ht : (Codec.toVec value.ipld : Except String Bytes) with
        | error why =>
          rw [ht] at hc
          cases hc
          exact ⟨why, rfl⟩
        | ok bytes =>
          rw [ht] at hc
          cases hc

variable [DecidableEq Cid] [CidText Cid] {tables : Tables Cid} {xs : List (Leaf Cid)}

omit [Codec Cid] in
theorem Requested.check_error {asked : Requested Cid} {e : AccountError Cid}
    (h : asked.check prev = .error e) : ∃ held, e = .swapRecord held := by
  unfold Requested.check at h
  dsimp only at h
  split at h
  · cases h
  · cases h
  · split_ifs at h
    cases h
    exact ⟨_, rfl⟩
  · cases h
    exact ⟨_, rfl⟩

/-- A plan that cannot be made is not refused for what is at a key of the tree. -/
theorem planOn_error {requested : List (Requested Cid)} {e : AccountError Cid}
    (h : tables.planOn did xs requested = .error e) : ¬e.AtKey := by
  induction requested with
  | nil => cases h
  | cons asked rest ih =>
    unfold Tables.planOn at h
    dsimp only at h
    split_ifs at h with hskip
    · exact ih h
    cases hcheck : asked.check (heldAt xs asked.write.collection asked.write.rkey) with
    | error e' =>
      rw [hcheck] at h
      cases h
      obtain ⟨held, rfl⟩ := Requested.check_error hcheck
      rintro ⟨key, he | he⟩ <;> cases he
    | ok u =>
      cases hplanned : asked.write.planned did
          (heldAt xs asked.write.collection asked.write.rkey) with
      | error e' =>
        rw [hcheck, hplanned] at h
        cases h
        rintro ⟨key, he | he⟩
        · rcases Write.planned_error hplanned with ⟨why, rfl⟩ | ⟨why, rfl⟩ <;> cases he
        · rcases Write.planned_error hplanned with ⟨why, rfl⟩ | ⟨why, rfl⟩ <;> cases he
      | ok r =>
        cases hothers : tables.planOn did xs rest with
        | error e' =>
          rw [hcheck, hplanned, hothers] at h
          cases h
          exact ih hothers
        | ok others =>
          rw [hcheck, hplanned, hothers] at h
          cases h

end

/-! ## What points at a subject -/

section

variable {did : Did} {tables : Tables Cid} {collection : Nsid} {link : Backlink}

theorem Backlink.of_eq_singleton {record : Ipld Cid} (h : link ∈ Backlink.of record) :
    Backlink.of record = [link] := by
  have hlen : (Backlink.of record).length ≤ 1 := by
    unfold Backlink.of Backlink.ofDid Backlink.ofUri
    repeat' split
    all_goals simp
  match Backlink.of record, hlen, h with
  | [held], _, h => rw [List.mem_singleton.mp h]

/-- The key a row of `backlink` is read as, where it points at the subject. -/
def Tables.pointingFrom (tables : Tables Cid) (collection : Nsid) (link : Backlink) (row : BacklinkRow) :
    Option RecordKey :=
  if row.path = link.path ∧ row.linkTo = link.linkTo then
    match Table.find RecordRow.uri row.uri tables.record with
    | some record => if record.collection = collection then some record.rkey else none
    | none => none
  else none

theorem Tables.pointingAt_eq : tables.pointingAt collection link =
    tables.backlink.filterMap (tables.pointingFrom collection link) := rfl

theorem Tables.pointingFrom_eq_some {row : BacklinkRow} {rkey : RecordKey} :
    tables.pointingFrom collection link row = some rkey ↔
      row.path = link.path ∧ row.linkTo = link.linkTo ∧
      ∃ record, Table.find RecordRow.uri row.uri tables.record = some record ∧
        record.collection = collection ∧ record.rkey = rkey := by
  unfold pointingFrom
  by_cases hl : row.path = link.path ∧ row.linkTo = link.linkTo
  · rw [if_pos hl]
    cases hf : Table.find RecordRow.uri row.uri tables.record with
    | none => simp
    | some record => by_cases hc : record.collection = collection <;> simp [hl, hc]
  · rw [if_neg hl]
    constructor
    · intro h
      cases h
    · rintro ⟨hp, ht, -⟩
      exact absurd ⟨hp, ht⟩ hl

/-- A row that points at the subject is that of the key it is read as. -/
theorem Tables.uri_of_pointingFrom (hn : ∀ row ∈ tables.record, row.uri = uri did row.collection row.rkey)
    {row : BacklinkRow} {rkey : RecordKey}
    (h : tables.pointingFrom collection link row = some rkey) : row.uri = uri did collection rkey := by
  obtain ⟨-, -, record, hf, rfl, rfl⟩ := Tables.pointingFrom_eq_some.mp h
  rw [← hn record (Table.mem_of_find hf), Table.key_of_find hf]

variable [Codec Cid]

/-- The keys the index points at are those of the records that point there. -/
theorem Tables.Mirrors.mem_pointingAt [LawfulCodec Cid] (h : tables.Mirrors did) {rkey : RecordKey} :
    rkey ∈ tables.pointingAt collection link ↔
      ∃ record, tables.RecordAt (uri did collection rkey) record ∧ link ∈ Backlink.of record.ipld := by
  rw [Tables.pointingAt_eq, List.mem_filterMap]
  constructor
  · rintro ⟨row, hm, hrow⟩
    have hat := Tables.uri_of_pointingFrom h.named hrow
    obtain ⟨hp, ht, held, hf, -, -⟩ := Tables.pointingFrom_eq_some.mp hrow
    obtain ⟨record, hr, hshow⟩ := h.present row.uri (by rw [hf]; rfl)
    refine ⟨record, hat ▸ hr, (hshow.links link).mp ?_⟩
    rw [← hp, ← ht]
    exact hm
  · rintro ⟨record, hr, hlink⟩
    refine ⟨⟨_, link.path, link.linkTo⟩, ((h.shows hr).links link).mpr hlink, ?_⟩
    obtain ⟨row, bytes, hf, -, -⟩ := hr
    have hat : uri did row.collection row.rkey = uri did collection rkey := by
      rw [← h.named row (Table.mem_of_find hf), Table.key_of_find hf]
    exact Tables.pointingFrom_eq_some.mpr ⟨rfl, rfl, row, hf, (uri_eq_iff.mp hat).2⟩

/-- No key points at the subject twice. -/
theorem Tables.Mirrors.nodup_pointingAt (h : tables.Mirrors did) (collection : Nsid)
    (link : Backlink) :
    (tables.pointingAt collection link).Nodup := by
  rw [Tables.pointingAt_eq]
  have hpair := List.pairwise_map.mp h.linkKeyed
  apply List.Pairwise.filterMap _ _ hpair
  rintro row row' hne rkey hrow rkey' hrow' rfl
  have hat := Tables.uri_of_pointingFrom h.named hrow
  have hat' := Tables.uri_of_pointingFrom h.named hrow'
  obtain ⟨hp, -⟩ := Tables.pointingFrom_eq_some.mp hrow
  obtain ⟨hp', -⟩ := Tables.pointingFrom_eq_some.mp hrow'
  exact hne (Prod.ext (hat.trans hat'.symm) (hp.trans hp'.symm))

end

/-! ## What is taken out -/

section

variable [Codec Cid] {xs ys xs' : List (Leaf Cid)} {collection : Nsid} {rkey : RecordKey}
  {record : Value Cid} {link : Backlink} {did : Did} {tables : Tables Cid} {plan : Plan Cid}

theorem leavesAfter_append (writes rest : List (Write Cid)) (xs : List (Leaf Cid)) :
    leavesAfter (writes ++ rest) xs = (leavesAfter writes xs).bind (leavesAfter rest) := by
  induction writes generalizing xs with
  | nil => rfl
  | cons write writes ih =>
    rw [List.cons_append, leavesAfter, leavesAfter, Option.bind_assoc]
    exact congrArg _ (funext ih)

/-- Keys that are there, each named once, can all be taken out. -/
theorem leavesAfter_deletes (collection : Nsid) {rkeys : List RecordKey}
    (ho : Ordered Leaf.key xs) (hn : rkeys.Nodup)
    (hk : ∀ rkey ∈ rkeys, (find Leaf.key (recordPath collection rkey) xs).isSome = true) :
    ∃ ys, leavesAfter (rkeys.map (Write.delete collection)) xs = some ys ∧ Ordered Leaf.key ys ∧
      ∀ key, find Leaf.key key ys =
        if key ∈ rkeys.map (recordPath collection) then none else find Leaf.key key xs := by
  induction rkeys generalizing xs with
  | nil => exact ⟨xs, rfl, ho, fun key => (if_neg List.not_mem_nil).symm⟩
  | cons rkey rest ih =>
    obtain ⟨hnot, hrest⟩ := List.nodup_cons.mp hn
    have hafter : (Write.delete collection rkey : Write Cid).after xs =
        some (take Leaf.key (recordPath collection rkey) xs) :=
      if_pos (hk rkey List.mem_cons_self)
    have hkeep : ∀ held ∈ rest, (find Leaf.key (recordPath collection held)
        (take Leaf.key (recordPath collection rkey) xs)).isSome = true := by
      intro held hheld
      have hne : recordPath collection rkey ≠ recordPath collection held := by
        intro he
        obtain ⟨-, rfl⟩ := recordPath_inj.mp he
        exact hnot hheld
      rw [ho.find_take, if_neg hne]
      exact hk held (List.mem_cons_of_mem rkey hheld)
    obtain ⟨ys, hys, hord, hfind⟩ := ih ho.take hrest hkeep
    refine ⟨ys, ?_, hord, fun key => ?_⟩
    · rw [List.map_cons, leavesAfter, hafter, Option.bind_some, hys]
    · rw [hfind, ho.find_take, List.map_cons]
      by_cases hr : key ∈ rest.map (recordPath collection)
      · rw [if_pos hr, if_pos (List.mem_cons_of_mem _ hr)]
      · by_cases hkey : recordPath collection rkey = key
        · rw [if_neg hr, if_pos hkey, if_pos (List.mem_cons.mpr (Or.inl hkey.symm))]
        · rw [if_neg hr, if_neg hkey, if_neg]
          exact fun hm => (List.mem_cons.mp hm).elim (Ne.symm hkey) hr

variable [DecidableEq Cid] [CidText Cid]

/-- The plan of such a record, where it can be made. -/
theorem planOn_createRecord_eq (tables : Tables Cid) (did : Did) (xs : List (Leaf Cid))
    (rkey : RecordKey) (hheld : Backlink.heldToOne collection = true)
    (hlink : link ∈ Backlink.of record.ipld) {bytes : Bytes} (he : encode record.ipld = .ok bytes)
    {blobs : List (Blob Cid)} (hb : BlobRef.of record.ipld = .ok blobs) :
    tables.planOn did xs [createRecord collection rkey record] =
      .ok ⟨((tables.pointingAt collection link).map fun held =>
          .taking collection held (heldAt xs collection held)) ++
        [⟨.create collection rkey record,
          .put collection rkey (cidFor bytes) (Backlink.of record.ipld) blobs,
          ⟨.create, recordPath collection rkey, some (cidFor bytes), heldAt xs collection rkey⟩⟩],
        [⟨text "at://" ++ did.str ++ ascii '/' :: recordPath collection rkey, some (cidFor bytes)⟩]⟩ := by
  have htaken : tables.supersededOn xs (createRecord collection rkey record) =
      (tables.pointingAt collection link).map fun held =>
        .taking collection held (heldAt xs collection held) := by
    unfold Tables.supersededOn
    rw [if_pos ⟨rfl, hheld⟩]
    change (Backlink.of record.ipld).flatMap _ = _
    rw [Backlink.of_eq_singleton hlink, List.flatMap_singleton]
    rfl
  unfold Tables.planOn
  dsimp only
  rw [if_neg (fun h => absurd h.2 (by simp [createRecord])), htaken]
  have hplanned : (createRecord collection rkey record).write.planned did
      (heldAt xs (createRecord collection rkey record).write.collection
        (createRecord collection rkey record).write.rkey) =
      .ok (⟨.create collection rkey record,
        .put collection rkey (cidFor bytes) (Backlink.of record.ipld) blobs,
        ⟨.create, recordPath collection rkey, some (cidFor bytes), heldAt xs collection rkey⟩⟩,
        ⟨text "at://" ++ did.str ++ ascii '/' :: recordPath collection rkey, some (cidFor bytes)⟩) := by
    unfold Write.planned Write.blobs Write.encoded
    simp only [createRecord, Write.record, hb, he]
    rfl
  rw [hplanned]
  rfl

/-- The plan of a record that takes the place of what points where it does. -/
theorem planOn_createRecord (hheld : Backlink.heldToOne collection = true)
    (hlink : link ∈ Backlink.of record.ipld)
    (h : tables.planOn did xs [createRecord collection rkey record] = .ok plan) :
    ∃ bytes blobs, encode record.ipld = .ok bytes ∧
      plan.writes = (tables.pointingAt collection link).map (Write.delete collection) ++
        [.create collection rkey record] ∧
      plan.index = (tables.pointingAt collection link).map (Indexed.delete collection) ++
        [.put collection rkey (cidFor bytes) (Backlink.of record.ipld) blobs] := by
  rcases Tables.planOn_cons h with ⟨-, hskip, -⟩ | ⟨blobs, cid, others, -, hb, hc, -, -⟩
  · cases hskip
  · obtain ⟨value, bytes, hvalue, he, -⟩ : ∃ value bytes, (createRecord collection rkey record).write.record =
        some value ∧ encode value.ipld = .ok bytes ∧ cid = some (cidFor bytes) := by
      unfold Write.encoded at hc
      cases he : encode record.ipld with
      | error e =>
        simp only [createRecord, Write.record, he] at hc
        cases hc
      | ok bytes =>
        simp only [createRecord, Write.record, he] at hc
        cases hc
        exact ⟨record, bytes, rfl, he, rfl⟩
    cases hvalue
    have hblobs : BlobRef.of record.ipld = .ok blobs := hb
    rw [planOn_createRecord_eq tables did xs rkey hheld hlink he hblobs] at h
    cases h
    refine ⟨bytes, blobs, he, ?_, ?_⟩
    · simp only [Plan.writes, List.map_append, List.map_map, List.map_cons, List.map_nil]
      rfl
    · simp only [Plan.index, List.map_append, List.map_map, List.map_cons, List.map_nil]
      rfl

omit [CidText Cid] in
/-- What points at the subject is in the tree. -/
theorem Tables.Carries.isSome_find_pointingAt [LawfulCodec Cid] {repo : Repo Cid}
    {ℓ : ℕ} (h : tables.Carries did repo ℓ xs) {held : RecordKey}
    (hheld : held ∈ tables.pointingAt collection link) :
    (find Leaf.key (recordPath collection held) xs).isSome = true := by
  obtain ⟨value, ⟨row, bytes, hrow, -, -⟩, -⟩ := h.mirrors.mem_pointingAt.mp hheld
  have hat := h.agree (recordPath collection held)
  rw [← uri_eq_uriAt, hrow, Option.map_some] at hat
  obtain ⟨x, hx, -⟩ := Option.map_eq_some_iff.mp hat.symm
  rw [hx]
  rfl

omit [CidText Cid] in
/-- So all of it can be taken out. -/
theorem Tables.Carries.leavesAfter_taken [LawfulCodec Cid] {repo : Repo Cid} {ℓ : ℕ}
    (h : tables.Carries did repo ℓ xs) (collection : Nsid) (link : Backlink) : ∃ ys,
      leavesAfter ((tables.pointingAt collection link).map (Write.delete collection)) xs = some ys ∧
      ∀ key, find Leaf.key key ys =
        if key ∈ (tables.pointingAt collection link).map (recordPath collection) then none
        else find Leaf.key key xs := by
  obtain ⟨ys, hys, -, hfind⟩ := leavesAfter_deletes collection h.stands.data.keyed.ordered
    (h.mirrors.nodup_pointingAt collection link) fun held hheld => h.isSome_find_pointingAt hheld
  exact ⟨ys, hys, hfind⟩

/-- Where the key is free, or held by what makes way, the batch finds its keys as it wants them. -/
theorem Tables.Carries.leavesAfter_createRecord [LawfulCodec Cid] {repo : Repo Cid} {ℓ : ℕ}
    (h : tables.Carries did repo ℓ xs) (hheld : Backlink.heldToOne collection = true)
    (hlink : link ∈ Backlink.of record.ipld)
    (hplan : tables.planOn did xs [createRecord collection rkey record] = .ok plan)
    (hfree : ∀ held, tables.RecordAt (uri did collection rkey) held → link ∈ Backlink.of held.ipld) :
    ∃ xs', leavesAfter plan.writes xs = some xs' := by
  obtain ⟨bytes, blobs, he, hwrites, -⟩ := planOn_createRecord hheld hlink hplan
  obtain ⟨ys, hys, hfind⟩ := h.leavesAfter_taken collection link
  have hcid : (Write.create collection rkey record : Write Cid).cid = some (cidFor bytes) :=
    cid_of_encode rfl he
  have hnone : find Leaf.key (recordPath collection rkey) ys = none := by
    rw [hfind]
    by_cases hm : rkey ∈ tables.pointingAt collection link
    · exact if_pos (List.mem_map_of_mem hm)
    have hat := h.agree (recordPath collection rkey)
    rw [← uri_eq_uriAt] at hat
    cases hrow : Table.find RecordRow.uri (uri did collection rkey) tables.record with
    | none =>
      rw [hrow, Option.map_none] at hat
      rw [Option.map_eq_none_iff.mp hat.symm, ite_self]
    | some row =>
      obtain ⟨value, hvalue, -⟩ := h.mirrors.present _ (by rw [hrow]; rfl)
      exact absurd (h.mirrors.mem_pointingAt.mpr ⟨value, hvalue, hfree value hvalue⟩) hm
  refine ⟨KeyedList.put Leaf.key ⟨recordPath collection rkey, cidFor bytes⟩ ys, ?_⟩
  rw [hwrites, leavesAfter_append, hys, Option.bind_some, leavesAfter]
  have hafter : (Write.create collection rkey record : Write Cid).after ys =
      some (KeyedList.put Leaf.key ⟨recordPath collection rkey, cidFor bytes⟩ ys) := by
    simp only [Write.after, hcid, Option.map_some]
    rw [if_neg]
    · rfl
    · change ¬(find Leaf.key (recordPath collection rkey) ys).isSome = true
      rw [hnone]
      exact Bool.false_ne_true
  rw [hafter, Option.bind_some, leavesAfter]

omit [Codec Cid] [DecidableEq Cid] [CidText Cid] in
theorem find_foldl_delete (rev : Tid) (rkeys : List RecordKey) (rows : List (RecordRow Cid)) (at_ : Str) :
    Table.find RecordRow.uri at_
      ((rkeys.map (Indexed.delete collection)).foldl (Indexed.indexRow did rev) rows) =
      if at_ ∈ rkeys.map (uri did collection) then none else Table.find RecordRow.uri at_ rows := by
  induction rkeys generalizing rows with
  | nil => exact (if_neg List.not_mem_nil).symm
  | cons rkey rest ih =>
    rw [List.map_cons, List.foldl_cons, ih, Indexed.find_delete, List.map_cons]
    by_cases hr : at_ ∈ rest.map (uri did collection)
    · rw [if_pos hr, if_pos (List.mem_cons_of_mem _ hr)]
    · by_cases hat : at_ = uri did collection rkey
      · rw [if_neg hr, if_pos hat, if_pos (List.mem_cons.mpr (Or.inl hat))]
      · rw [if_neg hr, if_neg hat, if_neg]
        exact fun hm => (List.mem_cons.mp hm).elim hat hr

end

/-! ## The write alone -/

section

variable [Codec Cid] [DecidableEq Cid] [CidText Cid] {did : Did} {job : Job Cid}

/-- The answers a write is given while nobody else has the database. -/
def ActorState.Alone (actor : ActorState Cid) (did : Did) : ∀ q : WriteQuery Cid, q.Answer → Prop
  | .root, x => x = actor.tables.repoRoot
  | .read q, x => actor.tables.Answers q x
  | .commit revision, x => x = (actor.commit did revision).1 ∨ ∃ e, x = .error e

/-- A write refused for what is at a key was refused in an attempt on the root that is there. -/
theorem attempt_of_atKey {actor : ActorState Cid} {n : ℕ} {e : AccountError Cid}
    (h : (job.attempts n).Yields (actor.Alone did) (.error e)) (he : e.AtKey) :
    ∃ start, actor.tables.repoRoot = some start ∧
      (job.attempt start ()).Yields actor.tables.Answers (.error e, ()) := by
  induction n with
  | zero =>
    cases h
    obtain ⟨key, he | he⟩ := he <;> cases he
  | succ n ih =>
    obtain ⟨root, hroot, h⟩ := h
    obtain rfl : root = actor.tables.repoRoot := hroot
    cases hstart : actor.tables.repoRoot with
    | none =>
      rw [hstart] at h
      cases h
      obtain ⟨key, he | he⟩ := he <;> cases he
    | some start =>
      rw [hstart] at h
      obtain ⟨⟨r, u⟩, hr, h⟩ := Program.yields_bind.mp h
      have hread : (job.attempt start ()).Yields actor.tables.Answers (r, u) := by
        apply (Program.yields_via.mp hr).mono
        rintro q x ⟨y, hy, rfl⟩
        exact hy
      rcases r with e' | worked
      · cases h
        exact ⟨start, rfl, hread⟩
      · cases worked with
        | none => cases h
        | some worked =>
          obtain ⟨answer, -, h⟩ := h
          rcases answer with e' | committed
          · cases h
            obtain ⟨key, he | he⟩ := he <;> cases he
          · cases committed with
            | none =>
              obtain ⟨start', hs, hatt⟩ := ih h
              rw [hstart] at hs
              cases hs
              exact ⟨start, rfl, hatt⟩
            | some committed => cases h

variable [LawfulCodec Cid] {collection : Nsid} {rkey : RecordKey} {record : Value Cid}
  {link : Backlink}

/-- Only a key held by a record that points somewhere else stands in the way. -/
theorem refused_atKey {actor : ActorState Cid} {repo : Repo Cid} {ℓ : ℕ} {xs : List (Leaf Cid)}
    (hc : actor.tables.Carries did repo ℓ xs) (hd : job.did = did)
    (hasked : job.requested = [createRecord collection rkey record])
    (hheld : Backlink.heldToOne collection = true) (hlink : link ∈ Backlink.of record.ipld)
    {e : AccountError Cid} (h : (commitWrites job).Yields (actor.Alone did) (.error e)) (he : e.AtKey) :
    ∃ held, actor.tables.RecordAt (uri did collection rkey) held ∧ link ∉ Backlink.of held.ipld := by
  by_contra hno
  have hfree : ∀ held, actor.tables.RecordAt (uri did collection rkey) held →
      link ∈ Backlink.of held.ipld := by
    intro held hat
    by_contra hn
    exact hno ⟨held, hat, hn⟩
  obtain ⟨start, hroot, hatt⟩ := attempt_of_atKey h he
  rw [hc.root] at hroot
  cases hroot
  have hworks := works_attempt hc.stands hc.exact rfl hatt
  cases hworks with
  | unplanned hplan => exact planOn_error hplan he
  | swapped _ _ _ => obtain ⟨key, he | he⟩ := he <;> cases he
  | @refused plan read clock clock' now e' hplan hagain happ =>
    rw [hd, hasked] at hplan
    have hx : Exact actor.tables.stored read.cid ℓ xs := by
      rw [hagain.cid]
      exact hc.exact
    obtain ⟨xs', hleaves⟩ := hc.leavesAfter_createRecord hheld hlink hplan hfree
    obtain ⟨key, he | he⟩ := he
    all_goals
      cases he
      rcases exec_apply_error hagain.stands (hx.closed hagain.stands) hleaves happ with
        ⟨why, hwhy⟩ | hwhy | hwhy <;> cases hwhy

omit [LawfulCodec Cid] in
/-- What is in the index once such a record has landed: it, at its key, and besides it all that did
not point where it does. -/
theorem Moved.Lands.find_record {m : Moved Cid} {repo next : Repo Cid} {ℓ ℓ' : ℕ}
    {xs xs' : List (Leaf Cid)} {worked : Worked Cid}
    (h : m.Lands did repo ℓ xs worked next ℓ' xs') (hd : m.job.did = did)
    (hasked : m.job.requested = [createRecord collection rkey record])
    (hheld : Backlink.heldToOne collection = true) (hlink : link ∈ Backlink.of record.ipld) :
    m.after.RecordAt (uri did collection rkey) record ∧
    ∀ at_, at_ ≠ uri did collection rkey → Table.find RecordRow.uri at_ m.after.record =
      if at_ ∈ (m.before.pointingAt collection link).map (uri did collection) then none
      else Table.find RecordRow.uri at_ m.before.record := by
  obtain ⟨start, -, -, hworks⟩ := h.alone
  obtain ⟨-, -, -, -, -, -, -, hplan, -⟩ := hworks.exists_apply
  rw [hd, hasked] at hplan
  obtain ⟨bytes, blobs, he, -, hindex⟩ := planOn_createRecord hheld hlink hplan
  have hrecord := h.record
  rw [hindex, List.foldl_append, List.foldl_cons, List.foldl_nil] at hrecord
  constructor
  · obtain ⟨row, hrow, hcid⟩ := Indexed.exists_find_put did next.rev collection rkey (cidFor bytes)
      (Backlink.of record.ipld) blobs (((m.before.pointingAt collection link).map
        (Indexed.delete collection)).foldl (Indexed.indexRow did next.rev) m.before.record)
    refine ⟨row, bytes, ?_, he, hcid⟩
    rw [hrecord]
    exact hrow
  · intro at_ hat
    rw [hrecord, Indexed.find_put, if_neg (Ne.symm hat)]
    exact find_foldl_delete next.rev _ _ at_

variable {w : World Cid}

/-- Such a record lands where its key is free or held by what makes way. -/
theorem World.Reachable.exists_createRecord (h : World.Reachable did w) (rkey : RecordKey)
    {repo : Repo Cid} {ℓ : ℕ} {xs : List (Leaf Cid)} (hc : w.actor.tables.Carries did repo ℓ xs)
    (hroom : repo.rev.toParts.1 < Tid.ceiling) (hheld : Backlink.heldToOne collection = true)
    (hlink : link ∈ Backlink.of record.ipld) {bytes : Bytes} (he : encode record.ipld = .ok bytes)
    (hb : BlobRef.of record.ipld = .ok []) (hn : namesCollection collection record.ipld = true)
    (hfree : ∀ held, w.actor.tables.RecordAt (uri did collection rkey) held →
      link ∈ Backlink.of held.ipld) (keypair : Keypair) :
    ∃ (w' : World Cid) (m : Moved Cid) (plan : Plan Cid) (worked : Worked Cid)
      (committed : Committed Cid) (next : Repo Cid) (ℓ' : ℕ) (xs' : List (Leaf Cid)),
      World.Reachable did w' ∧ w'.moved = m :: w.moved ∧ m.before = w.actor.tables ∧
      m.after = w'.actor.tables ∧ m.job.did = did ∧
      m.job.requested = [createRecord collection rkey record] ∧
      w.actor.tables.planOn did xs [createRecord collection rkey record] = .ok plan ∧
      worked.plan = plan ∧ m.outcome = .done (.ok (some (worked.landed committed))) ∧
      w'.actor.tables.Carries did next ℓ' xs' ∧ next.rev.toParts.1 = repo.rev.toParts.1 + 1 := by
  have hplan := planOn_createRecord_eq w.actor.tables did xs rkey hheld hlink he hb
  obtain ⟨xs', hleaves⟩ := hc.leavesAfter_createRecord hheld hlink hplan hfree
  obtain ⟨w', m, worked, committed, next, ℓ', hw, hm, hbefore, hafter, hjob, -, hworked, houtcome,
    hcarries, hrev⟩ := h.exists_landed hc hroom keypair hplan (by simp [Plan.writes]) (by
      intro write hmem
      simp only [Plan.writes, List.map_append, List.map_map, List.mem_append, List.mem_map,
        List.map_cons, List.map_nil, List.mem_singleton] at hmem
      rcases hmem with ⟨held, -, rfl⟩ | rfl
      · rfl
      · exact hn) hleaves (ActorState.ready_of_blobless (by
      intro index hmem
      simp only [Plan.index, List.map_append, List.map_map, List.mem_append, List.mem_map,
        List.map_cons, List.map_nil, List.mem_singleton] at hmem
      rcases hmem with ⟨held, -, rfl⟩ | rfl <;> rfl))
  exact ⟨w', m, _, worked, committed, next, ℓ', xs', hw, hm, hbefore, hafter, by rw [hjob],
    by rw [hjob], hplan, hworked, houtcome, hcarries, hrev⟩

/-- One record per subject: the links in the index are those of the records, and a record of the
four collections that lands is the one that points at its subject, and touches no other. -/
theorem one_record_per_subject (h : World.Reachable did w) :
    ((∀ at_ held, w.actor.tables.RecordAt at_ held → ∀ link : Backlink,
        ⟨at_, link.path, link.linkTo⟩ ∈ w.actor.tables.backlink ↔ link ∈ Backlink.of held.ipld) ∧
      (∀ row ∈ w.actor.tables.record, ∃! held, w.actor.tables.RecordAt row.uri held) ∧
      ∀ row ∈ w.actor.tables.backlink, ∃ held, w.actor.tables.RecordAt row.uri held) ∧
    ∀ (job : Job Cid) (collection : Nsid) (rkey : RecordKey) (record : Value Cid) (link : Backlink),
      job.did = did → job.requested = [createRecord collection rkey record] →
      Backlink.heldToOne collection = true → link ∈ Backlink.of record.ipld →
      (∀ e, (commitWrites job).Yields (w.actor.Alone did) (.error e) → e.AtKey →
        ∃ held, w.actor.tables.RecordAt (uri did collection rkey) held ∧
          link ∉ Backlink.of held.ipld) ∧
      ∀ m ∈ w.moved, m.job = job →
        m.after.RecordAt (uri did collection rkey) record ∧
        (∀ rkey', (∃ held, m.after.RecordAt (uri did collection rkey') held ∧
          link ∈ Backlink.of held.ipld) ↔ rkey' = rkey) ∧
        ∀ at_, at_ ≠ uri did collection rkey →
          (∀ rkey' held, at_ = uri did collection rkey' → m.before.RecordAt at_ held →
            link ∉ Backlink.of held.ipld) →
          Table.find RecordRow.uri at_ m.after.record = Table.find RecordRow.uri at_ m.before.record ∧
            ∀ path linkTo, ⟨at_, path, linkTo⟩ ∈ m.after.backlink ↔
              ⟨at_, path, linkTo⟩ ∈ m.before.backlink := by
  have hsound := h.sound
  obtain ⟨repo, ℓ, xs, hc, -⟩ := hsound.carries
  refine ⟨⟨fun at_ held hat => (hc.mirrors.shows hat).links, fun row hrow => ?_, fun row hrow => ?_⟩,
    fun job collection rkey record link hd hasked hheld hlink => ⟨fun e hrun he => ?_,
      fun m hm hjob => ?_⟩⟩
  · obtain ⟨held, hat, -⟩ := hc.mirrors.present row.uri (Table.isSome_find.mpr ⟨row, hrow, rfl⟩)
    exact ⟨held, hat, fun other ho => ho.inj hat⟩
  · cases hf : Table.find RecordRow.uri row.uri w.actor.tables.record with
    | none => exact absurd rfl ((hc.mirrors.absent row.uri hf).2 row hrow)
    | some held =>
      obtain ⟨value, hat, -⟩ := hc.mirrors.present row.uri (by rw [hf]; rfl)
      exact ⟨value, hat⟩
  · exact refused_atKey hc hd hasked hheld hlink hrun he
  · subst hjob
    obtain ⟨repo, ℓ, xs, worked, next, ℓ', xs', hl⟩ := hsound.lands m hm
    obtain ⟨hself, hother⟩ := hl.find_record hd hasked hheld hlink
    have hbefore := hl.before.mirrors
    have hafter := hl.after.mirrors
    refine ⟨hself, fun rkey' => ⟨?_, ?_⟩, fun at_ hat hno => ?_⟩
    · rintro ⟨held, hheldAt, hpoints⟩
      by_contra hne
      have hat : uri did collection rkey' ≠ uri did collection rkey :=
        fun he => hne (uri_eq_iff.mp he).2.2
      obtain ⟨row, bytes, hrow, he, hcid⟩ := hheldAt
      rw [hother _ hat] at hrow
      split_ifs at hrow with hgone
      apply hgone
      apply List.mem_map_of_mem
      exact hbefore.mem_pointingAt.mpr ⟨held, ⟨row, bytes, hrow, he, hcid⟩, hpoints⟩
    · rintro rfl
      exact ⟨record, hself, hlink⟩
    · have hfind : Table.find RecordRow.uri at_ m.after.record =
          Table.find RecordRow.uri at_ m.before.record := by
        rw [hother at_ hat, if_neg]
        intro hgone
        obtain ⟨rkey', hm', rfl⟩ := List.mem_map.mp hgone
        obtain ⟨held, hheldAt, hpoints⟩ := hbefore.mem_pointingAt.mp hm'
        exact hno rkey' held rfl hheldAt hpoints
      refine ⟨hfind, fun path linkTo => ?_⟩
      cases hf : Table.find RecordRow.uri at_ m.before.record with
      | none =>
        have hnone := (hbefore.absent at_ hf).2
        have hnone' := (hafter.absent at_ (hfind.trans hf)).2
        exact ⟨fun hm => absurd rfl (hnone' _ hm), fun hm => absurd rfl (hnone _ hm)⟩
      | some row =>
        obtain ⟨held, ⟨row', bytes, hrow, he, hcid⟩, hshow⟩ := hbefore.present at_ (by rw [hf]; rfl)
        have hstill : m.after.RecordAt at_ held := ⟨row', bytes, hfind.trans hrow, he, hcid⟩
        exact ((hafter.shows hstill).links ⟨path, linkTo⟩).trans (hshow.links ⟨path, linkTo⟩).symm

end

section

open DagCbor

theorem followCollection_valid : Nsid.validate Backlink.follow = .ok () := rfl

def followCollection : Nsid := ⟨Backlink.follow, followCollection_valid⟩

theorem followRecord_wf (since : Str) : (Ipld.map [(text "$type", .string Backlink.follow),
    (text "createdAt", .string since),
    (Backlink.subject, .string recordDid.str)] : Ipld RawCid).wf = true := by
  have h : ([text "$type", text "createdAt", Backlink.subject]).Pairwise (· < ·) := by decide
  rw [Ipld.wf_map, Bool.and_eq_true, decide_eq_true_eq]
  exact ⟨h, rfl⟩

/-- A follow of the account itself, made at some time. -/
def followRecord (since : Str) : Value RawCid := ⟨_, followRecord_wf since⟩

def followLink : Backlink := ⟨Backlink.subject, recordDid.str⟩

theorem followLink_mem (since : Str) : followLink ∈ Backlink.of (followRecord since).ipld :=
  List.mem_singleton_self _

theorem followCollection_heldToOne : Backlink.heldToOne followCollection = true := rfl

theorem followRecord_named (since : Str) :
    namesCollection followCollection (followRecord since).ipld = true := rfl

theorem followRecord_blobs (since : Str) :
    BlobRef.of (followRecord since).ipld = .ok ([] : List (Blob RawCid)) := rfl

theorem encode_followRecord (since : Str) :
    encode (followRecord since).ipld = .ok (enc (followRecord since).ipld) :=
  encode_eq_ok.mpr (toVec_eq_ok.mpr ⟨rfl, rfl⟩)

/-- A database two follows of the one account have landed in, one after the other. -/
theorem exists_followed (rkey rkey' : RecordKey) (since since' : Str) :
    ∃ (w : World RawCid) (first second : Moved RawCid), World.Reachable recordDid w ∧
      w.moved = [second, first] ∧ first.job.did = recordDid ∧ second.job.did = recordDid ∧
      first.job.requested = [createRecord followCollection rkey (followRecord since)] ∧
      second.job.requested = [createRecord followCollection rkey' (followRecord since')] ∧
      second.before = first.after ∧ ∀ at_ held, ¬first.before.RecordAt at_ held := by
  obtain ⟨actor, repo, hf, hc, hrev⟩ :=
    World.exists_founded recordDid blankKey (⟨[], []⟩ : BlobFiles RawCid)
  have hempty : ∀ at_ held, ¬actor.tables.RecordAt at_ held := by
    rintro at_ held ⟨row, bytes, hrow, -, -⟩
    have hat := hc.agree (recordPath row.collection row.rkey)
    rw [← uri_eq_uriAt, ← hc.mirrors.named row (Table.mem_of_find hrow), Table.key_of_find hrow,
      hrow] at hat
    cases hat
  have hroom : repo.rev.toParts.1 + 1 < Tid.ceiling := by
    rw [hrev, Tid.ceiling_eq]
    omega
  obtain ⟨w1, first, plan1, worked1, committed1, next1, ℓ1, xs1, hw1, hm1, hbefore1, hafter1, hd1,
    hasked1, -, -, -, hc1, hrev1⟩ := (World.Reachable.founded hf).exists_createRecord rkey hc
      (by omega) followCollection_heldToOne (followLink_mem since) (encode_followRecord since)
      (followRecord_blobs since) (followRecord_named since)
      (fun held hat => absurd hat (hempty _ held)) blankKey
  have hmem : first ∈ w1.moved := by
    rw [hm1]
    exact List.mem_cons_self
  obtain ⟨_, _, _, _, _, _, _, hl⟩ := hw1.sound.lands first hmem
  obtain ⟨hself, hother⟩ := hl.find_record hd1 hasked1 rfl (followLink_mem since)
  have hfree : ∀ held, w1.actor.tables.RecordAt (uri recordDid followCollection rkey') held →
      followLink ∈ Backlink.of held.ipld := by
    intro held hat
    rw [← hafter1] at hat
    by_cases hk : uri recordDid followCollection rkey' = uri recordDid followCollection rkey
    · rw [hk] at hat
      rw [hat.inj hself]
      exact followLink_mem since
    · obtain ⟨row, bytes, hrow, he, hcid⟩ := hat
      rw [hother _ hk, hbefore1] at hrow
      split_ifs at hrow
      exact absurd ⟨row, bytes, hrow, he, hcid⟩ (hempty _ held)
  obtain ⟨w2, second, plan2, worked2, committed2, next2, ℓ2, xs2, hw2, hm2, hbefore2, -, hd2,
    hasked2, -⟩ := hw1.exists_createRecord rkey' hc1 (by omega)
      followCollection_heldToOne (followLink_mem since') (encode_followRecord since')
      (followRecord_blobs since') (followRecord_named since') hfree
      blankKey
  refine ⟨w2, first, second, hw2, ?_, hd1, hd2, hasked1, hasked2, ?_, ?_⟩
  · rw [hm2, hm1]
  · rw [hbefore2, hafter1]
  · rw [hbefore1]
    exact hempty

/-- The second of two follows is the one left. -/
theorem one_record_per_subject_followed : ∃ (w : World RawCid) (first second : Moved RawCid),
    w.moved = [second, first] ∧
    first.after.RecordAt (uri recordDid followCollection recordKey) (followRecord (text "1")) ∧
    second.before = first.after ∧ ∀ rkey,
      (∃ held, second.after.RecordAt (uri recordDid followCollection rkey) held ∧
        followLink ∈ Backlink.of held.ipld) ↔ rkey = otherKey := by
  obtain ⟨w, first, second, hw, hm, hd, hd', hasked, hasked', hbefore, -⟩ :=
    exists_followed recordKey otherKey (text "1") (text "2")
  have hfirst : first ∈ w.moved := by simp [hm]
  have hsecond : second ∈ w.moved := by simp [hm]
  obtain ⟨-, hone⟩ := one_record_per_subject hw
  obtain ⟨-, hlands⟩ := hone first.job followCollection recordKey (followRecord (text "1")) followLink
    hd hasked rfl (followLink_mem _)
  obtain ⟨-, hlands'⟩ := hone second.job followCollection otherKey (followRecord (text "2")) followLink
    hd' hasked' rfl (followLink_mem _)
  exact ⟨w, first, second, hm, (hlands first hfirst rfl).1, hbefore, (hlands' second hsecond rfl).2.1⟩

end

end Manapds
