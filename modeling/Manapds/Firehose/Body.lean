import Manapds.Account.Log
import Manapds.Repo.CarWriting
import Manapds.Store.Sequencer
import Manapds.Xrpc.Records

/-!
# Event bodies

What a consumer is handed when something happens to a repository. The blocks of an entry travel as
a file, and what a consumer hears is read out of the bytes again: the file is opened, and its root
has to be the commit the entry names.
-/

namespace Manapds

open Sequencer

variable {Cid : Type}

/-! ## Writing -/

def Action.asStr : Action → Str
  | .create => text "create"
  | .update => text "update"
  | .delete => text "delete"

def Op.toIpld (op : Op Cid) : Ipld Cid :=
  .map ([(text "action", .string op.action.asStr), (text "cid", .ofLink op.cid),
    (text "path", .string op.path)] ++ (op.prev.map fun prev => (text "prev", .link prev)).toList)

namespace Firehose

/-- An entry built and waiting for the log. -/
abbrev Body := Event × Bytes

def ofTid : Option Tid → Ipld Cid
  | none => .null
  | some rev => .string rev.str

/-- A handle or DID document changed. -/
def identity (did : Did) (handle : Handle) : Ipld Cid :=
  .map [(text "did", .string did.str), (text "handle", .string handle.str)]

/-- An account became reachable or stopped being. -/
def account (did : Did) (active : Bool) : Ipld Cid :=
  .map [(text "active", .bool active), (text "did", .string did.str)]

/-- Where a repository is now, for a consumer that fell behind. -/
def sync (did : Did) (rev : Tid) (file : Bytes) : Ipld Cid :=
  .map [(text "blocks", .bytes file), (text "did", .string did.str), (text "rev", .string rev.str)]

end Firehose

open Firehose

/-- An append entry around the file its blocks travel in. -/
def Append.fields (entry : Append Cid) (file : Bytes) : List (Str × Ipld Cid) :=
  [(text "blobs", .list (entry.blobs.map .link)), (text "blocks", .bytes file),
    (text "commit", .link entry.commit), (text "ops", .list (entry.ops.map Op.toIpld))] ++
  (entry.prevData.map fun data => (text "prevData", .link data)).toList ++
  [(text "rebase", .bool entry.rebase), (text "repo", .string entry.repo.str),
    (text "rev", .string entry.rev.str), (text "since", ofTid entry.since),
    (text "tooBig", .bool entry.tooBig)]

section

variable [Codec Cid] [CarCodec Cid] [CidOrd Cid]

/-- The entry one commit puts in the log. -/
def Append.body (entry : Append Cid) : Except (RepoError Cid) Firehose.Body := do
  let file ← Car.write entry.commit entry.blocks
  let bytes ← encode (.map (entry.fields file))
  return (.append, bytes)

/-- The first revision, which follows none and did nothing to any record. -/
def Append.first (did : Did) (commit : Cid) (rev : Tid) (blocks : BlockMap Cid) : Append Cid where
  repo := did
  commit := commit
  rev := rev
  since := none
  blocks := blocks
  ops := []
  prevData := none
  rebase := false
  tooBig := false
  blobs := []

namespace Firehose

/-- The four entries a new account puts in the log. -/
def accountCreated [DecidableEq Cid] (did : Did) (handle : Handle) (commit : Cid) (rev : Tid)
    (blocks : BlockMap Cid) : Except (RepoError Cid) (List Firehose.Body) := do
  let block ← match blocks.lookup commit with
    | none => .error (.missingBlock commit)
    | some block => .ok block
  let named ← encode (identity did handle : Ipld Cid)
  let active ← encode (account did true : Ipld Cid)
  let written ← (Append.first did commit rev blocks).body
  let file ← Car.write commit ((∅ : BlockMap Cid).insert commit block)
  let now ← encode (sync did rev file : Ipld Cid)
  return [(.identity, named), (.account, active), written, (.sync, now)]

end Firehose

end

/-! ## Reading -/

namespace Firehose

/-- What an append entry tells, as it is read. -/
structure Told (Cid : Type) where
  repo : Str
  commit : Cid
  rev : Str
  since : Option Str
  blocks : BlockMap Cid
  prevData : Option Cid

section

variable [CarCodec Cid] [ValueCodec Cid] [DecidableEq Cid]

def fieldsOf (bytes : Bytes) : Option (List (Str × Ipld Cid)) :=
  match ValueCodec.fromSlice bytes with
  | .ok (.map fields) => some fields
  | _ => none

def stringAt (fields : List (Str × Ipld Cid)) (name : Str) : Option Str :=
  match Ipld.get fields name with
  | some (.string s) => some s
  | _ => none

def linkAt (fields : List (Str × Ipld Cid)) (name : Str) : Option Cid :=
  match Ipld.get fields name with
  | some (.link cid) => some cid
  | _ => none

/-- The file of an entry: its root and its blocks. -/
def fileAt (fields : List (Str × Ipld Cid)) : Option (Cid × BlockMap Cid) :=
  match Ipld.get fields (text "blocks") with
  | some (.bytes file) => (Car.read file).toOption
  | _ => none

/-- A field that may be null. -/
def nullableAt (fields : List (Str × Ipld Cid)) (name : Str) : Option (Option Str) :=
  match Ipld.get fields name with
  | some .null => some none
  | some (.string s) => some (some s)
  | _ => none

/-- A field that may be left out. -/
def optionalAt (fields : List (Str × Ipld Cid)) (name : Str) : Option (Option Cid) :=
  match Ipld.get fields name with
  | none => some none
  | some (.link cid) => some (some cid)
  | _ => none

/-- What the bytes of an append entry tell. -/
def hear (bytes : Bytes) : Option (Told Cid) := do
  let fields ← fieldsOf bytes
  let repo ← stringAt fields (text "repo")
  let commit ← linkAt fields (text "commit")
  let rev ← stringAt fields (text "rev")
  let since ← nullableAt fields (text "since")
  let (root, blocks) ← fileAt fields
  let prevData ← optionalAt fields (text "prevData")
  if root = commit then some ⟨repo, commit, rev, since, blocks, prevData⟩ else none

/-- Whose repository the bytes of a sync entry are of, and the commit it is on. -/
def hearSync (bytes : Bytes) : Option (Str × Cid) := do
  let fields ← fieldsOf bytes
  let did ← stringAt fields (text "did")
  let (root, _) ← fileAt fields
  return (did, root)

end

/-! ## What is written is heard -/

end Firehose

section

theorem Op.wf_toIpld (op : Op Cid) : op.toIpld.wf = true := by
  obtain ⟨action, path, cid, prev⟩ := op
  cases prev with
  | none =>
    have h : ([text "action", text "cid", text "path"]).Pairwise (· < ·) := by decide
    rw [toIpld, Ipld.wf_map, Bool.and_eq_true, decide_eq_true_eq]
    exact ⟨h, by simp [Ipld.wf]⟩
  | some prev =>
    have h : ([text "action", text "cid", text "path", text "prev"]).Pairwise (· < ·) := by decide
    rw [toIpld, Ipld.wf_map, Bool.and_eq_true, decide_eq_true_eq]
    exact ⟨h, by simp [Ipld.wf]⟩

theorem Op.plain_toIpld (op : Op Cid) : op.toIpld.plain = true := by
  rw [toIpld, Ipld.plain_map]
  cases op.prev <;> simp [Ipld.plain]

namespace Firehose

@[simp] theorem wf_ofTid (rev : Option Tid) : (ofTid rev : Ipld Cid).wf = true := by
  cases rev <;> rfl

@[simp] theorem plain_ofTid (rev : Option Tid) : (ofTid rev : Ipld Cid).plain = true := by
  cases rev <;> rfl

end Firehose

theorem Append.wf_fields (entry : Append Cid) (file : Bytes) :
    (Ipld.map (entry.fields file)).wf = true := by
  have hops : Ipld.wfItems (entry.ops.map Op.toIpld) = true := by
    simp [Ipld.wfItems_eq_all, Op.wf_toIpld]
  have hblobs : Ipld.wfItems (entry.blobs.map Ipld.link) = true := by
    simp [Ipld.wfItems_eq_all, Ipld.wf]
  rw [fields, Ipld.wf_map, Bool.and_eq_true, decide_eq_true_eq]
  cases entry.prevData with
  | none =>
    have h : ([text "blobs", text "blocks", text "commit", text "ops", text "rebase", text "repo",
      text "rev", text "since", text "tooBig"]).Pairwise (· < ·) := by decide
    exact ⟨h, by simp [Ipld.wf, hops, hblobs]⟩
  | some data =>
    have h : ([text "blobs", text "blocks", text "commit", text "ops", text "prevData",
      text "rebase", text "repo", text "rev", text "since", text "tooBig"]).Pairwise (· < ·) := by
      decide
    exact ⟨h, by simp [Ipld.wf, hops, hblobs]⟩

theorem Append.plain_fields (entry : Append Cid) (file : Bytes) :
    (Ipld.map (entry.fields file)).plain = true := by
  have hops : Ipld.plainItems (entry.ops.map Op.toIpld) = true := by
    simp [Ipld.plainItems_eq_all, Op.plain_toIpld]
  have hblobs : Ipld.plainItems (entry.blobs.map Ipld.link) = true := by
    simp [Ipld.plainItems_eq_all, Ipld.plain]
  rw [fields, Ipld.plain_map]
  cases entry.prevData <;> simp [Ipld.plain, hops, hblobs]

/-- Where each field is. -/
theorem Append.get_fields (entry : Append Cid) (file : Bytes) :
    Ipld.get (entry.fields file) (text "repo") = some (.string entry.repo.str) ∧
    Ipld.get (entry.fields file) (text "commit") = some (.link entry.commit) ∧
    Ipld.get (entry.fields file) (text "rev") = some (.string entry.rev.str) ∧
    Ipld.get (entry.fields file) (text "since") = some (ofTid entry.since) ∧
    Ipld.get (entry.fields file) (text "blocks") = some (.bytes file) ∧
    Ipld.get (entry.fields file) (text "prevData") = entry.prevData.map .link := by
  obtain ⟨repo, commit, rev, since, blocks, ops, prevData, rebase, tooBig, blobs⟩ := entry
  cases prevData <;> exact ⟨rfl, rfl, rfl, rfl, rfl, rfl⟩

variable [Codec Cid] [LawfulCodec Cid] [CarCodec Cid] [LawfulCarCodec Cid] [CidOrd Cid]
  [ValueCodec Cid] [LawfulValueCodec Cid] [DecidableEq Cid]

omit [LawfulCodec Cid] [CarCodec Cid] [LawfulCarCodec Cid] [CidOrd Cid] [DecidableEq Cid] in
theorem Firehose.fieldsOf_encode {fields : List (Str × Ipld Cid)} {bytes : Bytes}
    (hw : (Ipld.map fields).wf = true) (he : encode (.map fields) = .ok bytes) :
    fieldsOf bytes = some fields := by
  have hread : ValueCodec.fromSlice bytes = .ok (Ipld.map fields) :=
    @LawfulValueCodec.fromSlice_toVec Cid _ _ _ ⟨.map fields, hw⟩ bytes (encode_eq_ok.mp he)
  rw [fieldsOf, hread]

/-- An append entry is heard as what it tells. -/
theorem Append.hear_body (entry : Append Cid) (hb : entry.blocks.Sound)
    (hc : entry.commit ∈ entry.blocks) : ∃ bytes held, entry.body = .ok (.append, bytes) ∧
      (∀ c, held.lookup c = entry.blocks.lookup c) ∧
      Firehose.hear bytes = some ⟨entry.repo.str, entry.commit, entry.rev.str,
        entry.since.map Tid.str, held, entry.prevData⟩ := by
  obtain ⟨file, held, hwrite, hread, hheld⟩ := Car.read_write hb hc
  obtain ⟨bytes, hbytes⟩ := exists_encode (entry.wf_fields file) (entry.plain_fields file)
  have hfields := fieldsOf_encode (entry.wf_fields file) hbytes
  refine ⟨bytes, held, ?_, hheld, ?_⟩
  · rw [Append.body, hwrite]
    simp only [bind, Except.bind, hbytes]
    rfl
  · obtain ⟨hrepo, hcommit, hrev, hsince, hfile, hprev⟩ := entry.get_fields file
    have hfileAt : fileAt (entry.fields file) = some (entry.commit, held) := by
      rw [fileAt, hfile]
      dsimp only
      rw [hread]
      rfl
    have hsinceAt : nullableAt (entry.fields file) (text "since") =
        some (entry.since.map Tid.str) := by
      rw [nullableAt, hsince]
      cases entry.since <;> rfl
    have hprevAt : optionalAt (entry.fields file) (text "prevData") = some entry.prevData := by
      rw [optionalAt, hprev]
      cases entry.prevData <;> rfl
    rw [hear, hfields]
    simp only [bind, Option.bind, stringAt, linkAt, hrepo, hcommit, hrev, hsinceAt, hfileAt,
      hprevAt, if_true]

namespace Firehose

omit [Codec Cid] [LawfulCodec Cid] [CarCodec Cid] [LawfulCarCodec Cid] [CidOrd Cid]
  [ValueCodec Cid] [LawfulValueCodec Cid] [DecidableEq Cid] in
theorem wf_plain_identity (did : Did) (handle : Handle) :
    (identity did handle : Ipld Cid).wf = true ∧
    (identity did handle : Ipld Cid).plain = true := by
  have h : ([text "did", text "handle"]).Pairwise (· < ·) := by decide
  refine ⟨?_, rfl⟩
  rw [identity, Ipld.wf_map, Bool.and_eq_true, decide_eq_true_eq]
  exact ⟨h, rfl⟩

omit [Codec Cid] [LawfulCodec Cid] [CarCodec Cid] [LawfulCarCodec Cid] [CidOrd Cid]
  [ValueCodec Cid] [LawfulValueCodec Cid] [DecidableEq Cid] in
theorem wf_plain_account (did : Did) (active : Bool) :
    (account did active : Ipld Cid).wf = true ∧
    (account did active : Ipld Cid).plain = true := by
  have h : ([text "active", text "did"]).Pairwise (· < ·) := by decide
  refine ⟨?_, rfl⟩
  rw [account, Ipld.wf_map, Bool.and_eq_true, decide_eq_true_eq]
  exact ⟨h, rfl⟩

omit [Codec Cid] [LawfulCodec Cid] [CarCodec Cid] [LawfulCarCodec Cid] [CidOrd Cid]
  [ValueCodec Cid] [LawfulValueCodec Cid] [DecidableEq Cid] in
theorem wf_plain_sync (did : Did) (rev : Tid) (file : Bytes) :
    (sync did rev file : Ipld Cid).wf = true ∧ (sync did rev file : Ipld Cid).plain = true := by
  have h : ([text "blocks", text "did", text "rev"]).Pairwise (· < ·) := by decide
  refine ⟨?_, rfl⟩
  rw [sync, Ipld.wf_map, Bool.and_eq_true, decide_eq_true_eq]
  exact ⟨h, rfl⟩

/-- The entries of a new account are heard as what they tell. -/
theorem hear_accountCreated (did : Did) (handle : Handle) {commit : Cid} (rev : Tid)
    {blocks : BlockMap Cid} (hb : blocks.Sound) (hc : commit ∈ blocks) :
    ∃ named active written now held,
      accountCreated did handle commit rev blocks =
        .ok [(.identity, named), (.account, active), (.append, written), (.sync, now)] ∧
      (∀ c, held.lookup c = blocks.lookup c) ∧
      hear written = some ⟨did.str, commit, rev.str, none, held, none⟩ ∧
      hearSync now = some (did.str, commit) := by
  obtain ⟨block, hblock⟩ := Option.isSome_iff_exists.mp (AList.lookup_isSome.mpr hc)
  obtain ⟨hw1, hp1⟩ := @wf_plain_identity Cid did handle
  obtain ⟨hw2, hp2⟩ := @wf_plain_account Cid did true
  obtain ⟨named, hnamed⟩ := exists_encode hw1 hp1
  obtain ⟨active, hactive⟩ := exists_encode hw2 hp2
  obtain ⟨written, held, hwritten, hheld, hhear⟩ :=
    (Append.first did commit rev blocks).hear_body hb hc
  have hroot : BlockMap.Sound (AList.insert commit block (∅ : BlockMap Cid)) := by
    rw [hb commit block hblock]
    exact BlockMap.Sound.empty.insert block
  have hmem : commit ∈ AList.insert commit block (∅ : BlockMap Cid) :=
    (AList.mem_insert _).mpr (Or.inl rfl)
  obtain ⟨file, only, hfile, hread, -⟩ := Car.read_write hroot hmem
  obtain ⟨hw3, hp3⟩ := @wf_plain_sync Cid did rev file
  obtain ⟨now, hnow⟩ := exists_encode hw3 hp3
  refine ⟨named, active, written, now, held, ?_, hheld, hhear, ?_⟩
  · rw [accountCreated, hblock]
    simp only [bind, Except.bind, hnamed, hactive, hwritten, hfile, hnow]
    rfl
  · obtain ⟨fields, hsync⟩ : ∃ fields : List (Str × Ipld Cid), fields =
      [(text "blocks", .bytes file), (text "did", .string did.str),
        (text "rev", .string rev.str)] := ⟨_, rfl⟩
    have hfields : fieldsOf now = some fields := by
      rw [hsync]
      exact fieldsOf_encode hw3 hnow
    have hdid : stringAt fields (text "did") = some did.str := by
      rw [hsync]
      rfl
    have hget : Ipld.get fields (text "blocks") = some (.bytes file) := by
      rw [hsync]
      rfl
    have hfileAt : fileAt fields = some (commit, only) := by
      rw [fileAt, hget]
      dsimp only
      rw [hread]
      rfl
    rw [hearSync, hfields]
    simp only [bind, Option.bind, hdid, hfileAt]
    rfl

end Firehose

end

end Manapds
