import Manapds.Lib.KeyedList
import Manapds.Repo.Walker

/-!
# An account's repository

A repository is a commit and the tree it names. `Repo.apply` takes a batch of writes to the tree
and signs a commit over what they leave, and hands back every block that has to be stored before
the new revision can be read and every CID the revision stops reaching. The clock is the state of
the routine, since it is the one thing a batch moves on even where it fails.
-/

namespace Manapds

open KeyedList QueryProgram

variable {Cid : Type}

/-- What signs for an account. -/
structure Keypair where
  sign : Bytes → Bytes

/-- The only commit version this server writes or trusts. -/
def Commit.currentVersion : UInt8 := 3

/-- Signs a tree root into a commit. -/
def Commit.sign [Codec Cid] (did : Did) (rev : Tid) (data : Cid) (key : Keypair) :
    Except (RepoError Cid) (Commit Cid) := do
  let commit : Commit Cid := ⟨did, currentVersion, data, rev, none, []⟩
  let bytes ← encode commit.unsigned
  return { commit with sig := key.sign bytes }

/-- One record operation, to be applied with others under a single commit. -/
inductive Write (Cid : Type) where
  | create (collection : Nsid) (rkey : RecordKey) (record : Value Cid)
  | update (collection : Nsid) (rkey : RecordKey) (record : Value Cid)
  /-- Writes a record whether or not the key is taken. -/
  | put (collection : Nsid) (rkey : RecordKey) (record : Value Cid)
  | delete (collection : Nsid) (rkey : RecordKey)

/-- Where in the tree a record of a collection is. -/
def recordPath (collection : Nsid) (rkey : RecordKey) : Str :=
  collection.str ++ ascii '/' :: rkey.str

/-- A record names the collection it is in, which is also what keeps one from encoding as a node
of the tree holding it. -/
def namesCollection (collection : Nsid) : Ipld Cid → Bool
  | .map fields => match Ipld.get fields (text "$type") with
    | some (.string named) => named = collection.str
    | _ => false
  | _ => true

namespace Write

def collection : Write Cid → Nsid
  | .create collection _ _ | .update collection _ _ | .put collection _ _ => collection
  | .delete collection _ => collection

def rkey : Write Cid → RecordKey
  | .create _ rkey _ | .update _ rkey _ | .put _ rkey _ => rkey
  | .delete _ rkey => rkey

/-- The record this operation writes, where it writes one. -/
def record : Write Cid → Option (Value Cid)
  | .create _ _ record | .update _ _ record | .put _ _ record => some record
  | .delete _ _ => none

/-- Where in the tree this operation lands. -/
def key (write : Write Cid) : Str := recordPath write.collection write.rkey

/-- Whether the record it writes, if any, names the collection it is in. -/
def named (write : Write Cid) : Bool :=
  write.record.all fun record => namesCollection write.collection record.ipld

end Write

/-- An account's repository at one revision. -/
structure Repo (Cid : Type) where
  cid : Cid
  commit : Commit Cid
  data : Mst Cid

/-- A batch under way: every record its writes encode, the key each one ends at, and the tree. -/
structure Batch (Cid : Type) where
  encoded : BlockMap Cid
  leaves : List (Leaf Cid)
  data : Mst Cid

namespace Repo

/-- Which revision it is on. -/
def rev (repo : Repo Cid) : Tid := repo.commit.rev

variable [Codec Cid] [DecidableEq Cid]

/-- Signs the first commit, over a tree with nothing in it. -/
def createIn (did : Did) (keypair : Keypair) (now : ℕ) :
    Reads Cid TidClock (Repo Cid × BlockMap Cid) := do
  let ((root, blocks), data) ← Mst.empty.unstoredBlocks
  let clock ← Routine.get
  let (rev, clock) := clock.mint now
  Routine.set clock
  let commit ← Routine.ofExcept (Commit.sign did rev root keypair)
  let (cid, blocks) ← Routine.ofExcept (blocks.add commit.toIpld)
  return (⟨cid, commit, data⟩, blocks)

/-- Nothing is stored yet, so there is nothing to read. -/
def create (did : Did) (keypair : Keypair) (now : ℕ) (clock : TidClock) :
    Except (RepoError Cid) (Repo Cid × BlockMap Cid) × TidClock :=
  Routine.exec (Store.answer fun _ => none) (createIn did keypair now) clock

section

variable {σ : Type}

/-- Reads a repository from the commit a root names. -/
def load (cid : Cid) : Reads Cid σ (Repo Cid) := do
  match ← Routine.ask (StoreQuery.get cid) with
  | none => Routine.throw (.missingBlock cid)
  | some bytes =>
    let commit ← Routine.ofExcept (decodeCommit bytes)
    return ⟨cid, commit, Mst.load commit.data⟩

/-- Where a record is, if the repository holds one there. -/
def get (repo : Repo Cid) (collection : Nsid) (rkey : RecordKey) :
    Reads Cid σ (Option Cid × Repo Cid) := do
  let (found, data) ← repo.data.get (recordPath collection rkey)
  return (found, { repo with data })

/-- Every record in the repository, in key order. -/
def records (repo : Repo Cid) : Reads Cid σ (List (Leaf Cid) × Repo Cid) := do
  let (found, data) ← repo.data.leaves
  return (found, { repo with data })

/-- Encodes a record and writes down where it ends up, with the tree still to follow. -/
def encodeAt (batch : Batch Cid) (key : Str) (record : Value Cid) :
    Except (RepoError Cid) (Cid × Batch Cid) := do
  let (cid, encoded) ← batch.encoded.add record.ipld
  return (cid, { batch with encoded, leaves := put Leaf.key ⟨key, cid⟩ batch.leaves })

/-- The one write that does not care which of the two it is. -/
def updateOrAdd (data : Mst Cid) (key : Str) (cid : Cid) : Reads Cid σ (Mst Cid) := do
  let (held, data) ← data.get key
  if held.isSome then data.update key cid else data.add key cid

def applyWrite (batch : Batch Cid) (write : Write Cid) : Reads Cid σ (Batch Cid) :=
  match write with
  | .create _ _ record => do
    let (cid, batch) ← Routine.ofExcept (encodeAt batch write.key record)
    let data ← batch.data.add write.key cid
    return { batch with data }
  | .update _ _ record => do
    let (cid, batch) ← Routine.ofExcept (encodeAt batch write.key record)
    let data ← batch.data.update write.key cid
    return { batch with data }
  | .put _ _ record => do
    let (cid, batch) ← Routine.ofExcept (encodeAt batch write.key record)
    let data ← updateOrAdd batch.data write.key cid
    return { batch with data }
  | .delete _ _ => do
    let data ← batch.data.delete write.key
    return { batch with leaves := take Leaf.key write.key batch.leaves, data }

def applyWrites : Batch Cid → List (Write Cid) → Reads Cid σ (Batch Cid)
  | batch, [] => pure batch
  | batch, write :: rest => do
    let batch ← applyWrite batch write
    applyWrites batch rest

end

/-- The records a batch leaves in the tree, as blocks to be written. A batch that writes one key
twice leaves the first block reachable from nothing. -/
def survivors (encoded : BlockMap Cid) : List (Leaf Cid) → Except (RepoError Cid) (BlockMap Cid)
  | [] => .ok ∅
  | leaf :: rest => match encoded.lookup leaf.value with
    | none => .error (.missingBlock leaf.value)
    | some bytes => do
      let blocks ← survivors encoded rest
      return blocks.insert leaf.value bytes

/-- Applies writes and signs the commit over what they leave, handing back every block that has to
be stored before this revision can be read and every CID the revision stops reaching. `rounds`
bounds the walk that finds those. -/
def apply (rounds : ℕ) (repo : Repo Cid) (writes : List (Write Cid)) (keypair : Keypair) (now : ℕ) :
    Reads Cid TidClock (BlockMap Cid × List Cid × Repo Cid) := do
  if writes.any fun write => !write.named then
    Routine.throw (.notRecordData "a record that names no collection")
  else do
    let batch ← applyWrites ⟨∅, [], repo.data⟩ writes
    let blocks ← Routine.ofExcept (survivors batch.encoded batch.leaves)
    let ((root, tree), data) ← batch.data.unstoredBlocks
    let blocks := blocks.merge tree
    let dropped ← data.dropped rounds repo.data
    let clock ← Routine.get
    let (rev, clock) := clock.mintAfter now repo.rev
    Routine.set clock
    match rev with
    | none => Routine.throw (.noRevisionAfter repo.rev)
    | some rev => do
      let commit ← Routine.ofExcept (Commit.sign repo.commit.did rev root keypair)
      let (cid, blocks) ← Routine.ofExcept (blocks.add commit.toIpld)
      -- Nothing reaches a revision once the one after it is signed. Asked rather than assumed.
      let dropped := if cid ≠ repo.cid then dropped ++ [repo.cid] else dropped
      return (blocks, dropped, ⟨cid, commit, data⟩)

end Repo

end Manapds
