import Manapds.Lib.Program
import Manapds.Store.Blobs
import Mathlib.Logic.Function.Basic

/-!
# Rows and files a step at a time

The rows of an account's blobs are in its database and the blobs themselves in files beside it, so
whatever is done to both is done in steps that others come between. Each function here is a program
whose questions are these steps: the statements a transaction is made of, the statements that are
transactions of their own, and the calls that read or change a directory. The transaction of a
commit, put to a database and a disk that nothing else uses, does what `ActorState.commit` says.
-/

namespace Manapds

open QueryProgram

/-- What an account's blobs are in: a file served under its own name, or an upload under a key. -/
inductive FileName (Cid : Type) where
  | served (cid : Cid)
  | upload (key : Str)
deriving DecidableEq

/-- The directories they are in. -/
inductive BlobDirectory where
  | stored
  | uploads
deriving DecidableEq

def FileName.directory {Cid : Type} : FileName Cid → BlobDirectory
  | .served _ => .stored
  | .upload _ => .uploads

/-- Names, the files they are links to, and when each file was last written. -/
structure Disk (Cid : Type) where
  file : FileName Cid → Option ℕ
  modified : ℕ → Timestamp

/-- An account's database and files, and what the transaction that is under way has taken, if there
is one: the blobs whose files it has linked or opened. -/
structure Storage (Cid : Type) where
  tables : Tables Cid
  disk : Disk Cid
  transaction : Option (List Cid)

/-- What comes of making a hard link. -/
inductive Linking where
  | linked
  | alreadyExists
  /-- There is no such upload, or no directory to link it into. -/
  | refused
deriving DecidableEq

/-- The steps that are taken under no transaction but their own. -/
inductive FilesQuery (Cid : Type) where
  | unheld (cid : Cid)
  | uploadKeys
  | blobCids
  | stale (cutoff : Timestamp)
  | takeStale (found : Cid × Str)
  | addBlob (blob : Blob Cid) (key : Str)
  /-- The upload is moved onto its place. -/
  | put (key : Str)
  | readDir (directory : BlobDirectory)
  | modified (name : FileName Cid)
  | remove (name : FileName Cid)

def FilesQuery.Answer {Cid : Type} : FilesQuery Cid → Type
  | .unheld _ => Bool
  | .uploadKeys => List Str
  | .blobCids => List Cid
  | .stale _ => List (Cid × Str)
  | .takeStale _ => Bool
  | .addBlob _ _ => Unit
  | .put _ => Unit
  | .readDir _ => List (FileName Cid)
  | .modified _ => Option Timestamp
  | .remove _ => Unit

/-- The steps of a commit. -/
inductive CommitQuery (Cid : Type) where
  /-- What reading the repository and planning on it come to. -/
  | plan
  /-- A transaction begins where its first statement has the database. -/
  | transaction
  /-- Whether the database carries a statement out. -/
  | statement
  | link (key : Str) (cid : Cid)
  | openFile (cid : Cid)
  | setModified (file : ℕ)
  | commit (tables : Tables Cid)
  | rollback
  | delete (cid : Cid)

def CommitQuery.Answer {Cid : Type} : CommitQuery Cid → Type
  | .plan => Option (Revision Cid)
  | .transaction => Option (Tables Cid)
  | .statement => Bool
  | .link _ _ => Linking
  | .openFile _ => Option ℕ
  | .setModified _ => Bool
  | .commit _ => Bool
  | .rollback => Unit
  | .delete _ => Unit

/-- What runs on a thread of its own. It stops where the database will not answer. -/
abbrev Task (Cid : Type) (α : Type) := Program (FilesQuery Cid) FilesQuery.Answer α

abbrev Committing (Cid : Type) (α : Type) := Program (CommitQuery Cid) CommitQuery.Answer α

/-- A transaction under way. The files of a `Landing` are not its own here, they are on the disk. -/
abbrev Transacting (Cid : Type) (α : Type) :=
  Routine (CommitQuery Cid) CommitQuery.Answer (Landing Cid) (StoreError Cid) α

variable {Cid : Type} [DecidableEq Cid]

namespace Disk

def empty : Disk Cid := ⟨fun _ => none, fun _ => 0⟩

def link (disk : Disk Cid) (cid : Cid) (file : ℕ) : Disk Cid :=
  { disk with file := Function.update disk.file (.served cid) (some file) }

def put (disk : Disk Cid) (key : Str) (file : ℕ) (now : Timestamp) : Disk Cid :=
  ⟨Function.update disk.file (.upload key) (some file), Function.update disk.modified file now⟩

def setModified (disk : Disk Cid) (file : ℕ) (now : Timestamp) : Disk Cid :=
  { disk with modified := Function.update disk.modified file now }

def remove (disk : Disk Cid) (name : FileName Cid) : Disk Cid :=
  { disk with file := Function.update disk.file name none }

end Disk

namespace Storage

def transact (s : Storage Cid) : Option (Tables Cid) × Storage Cid :=
  match s.transaction with
  | none => (some s.tables, { s with transaction := some [] })
  | some _ => (none, s)

def link (s : Storage Cid) (key : Str) (cid : Cid) : Linking × Storage Cid :=
  match s.transaction, s.disk.file (.upload key), s.disk.file (.served cid) with
  | some taken, some file, none => (.linked, ⟨s.tables, s.disk.link cid file, some (cid :: taken)⟩)
  | some _, some _, some _ => (.alreadyExists, s)
  | _, _, _ => (.refused, s)

def openFile (s : Storage Cid) (cid : Cid) : Option ℕ × Storage Cid :=
  match s.transaction, s.disk.file (.served cid) with
  | some taken, some file => (some file, { s with transaction := some (cid :: taken) })
  | _, _ => (none, s)

def commit (s : Storage Cid) (tables : Tables Cid) : Bool × Storage Cid :=
  match s.transaction with
  | some _ => (true, ⟨tables, s.disk, none⟩)
  | none => (false, s)

/-- What a step of a commit comes to where the database and the disk do what they are asked. -/
def carry (planned : Option (Revision Cid)) :
    (q : CommitQuery Cid) → Storage Cid → q.Answer × Storage Cid
  | .plan, s => (planned, s)
  | .transaction, s => s.transact
  | .statement, s => (true, s)
  | .link key cid, s => s.link key cid
  | .openFile cid, s => s.openFile cid
  | .setModified file, s => (true, { s with disk := s.disk.setModified file 0 })
  | .commit tables, s => s.commit tables
  | .rollback, s => ((), { s with transaction := none })
  | .delete cid, s => ((), { s with disk := s.disk.remove (.served cid) })

end Storage

namespace Task

def step (q : FilesQuery Cid) : Task Cid q.Answer := Program.query q

/-- Takes the files under a directory that nothing in `held` names and that were last written before
`cutoff`. -/
def sweep (directory : BlobDirectory) (held : List (FileName Cid)) (cutoff : Timestamp) : Task Cid Unit := do
  let names : List (FileName Cid) ← step (.readDir directory)
  names.forM fun name =>
    if name ∈ held then pure () else do
      let modified : Option Timestamp ← step (.modified name)
      match modified with
      | none => pure ()
      | some modified => if cutoff ≤ modified then pure () else step (.remove name)

/-- Clears up the disk behind a commit: the files of blobs nothing holds, and the uploads of blobs a
record has taken. -/
def cleared (orphaned : List Cid) (taken : List Str) : Task Cid Unit := do
  orphaned.forM fun cid => do
    let unheld : Bool ← step (.unheld cid)
    if unheld then step (.remove (.served cid)) else pure ()
  taken.forM fun key => step (.remove (.upload key))

/-- Takes the upload files under an account that no row names. -/
def stranded (cutoff : Timestamp) : Task Cid Unit := do
  let held : List Str ← step .uploadKeys
  sweep .uploads (held.map .upload) cutoff

/-- Blobs uploaded before `cutoff` that no record ever named, taken out a row at a time. -/
def sweepUnclaimed (cutoff : Timestamp) : Task Cid (List Str) := do
  let stale : List (Cid × Str) ← step (.stale cutoff)
  stale.foldlM (fun swept found => do
    let gone : Bool ← step (.takeStale found)
    pure (if gone then swept ++ [found.2] else swept)) []

/-- Takes out the blobs an account uploaded and never named in a record, and the upload files its
rows have stopped naming, where anything is old enough to go. -/
def sweepBlobs : Option Timestamp → Task Cid Unit
  | none => pure ()
  | some cutoff => do
    stranded cutoff
    let swept ← sweepUnclaimed cutoff
    cleared [] swept

/-- Takes the served files under an account that no row holds. -/
def unheldFiles (cutoff : Timestamp) : Task Cid Unit := do
  let held : List Cid ← step .blobCids
  sweep .stored (held.map .served) cutoff

/-- Stores a blob and writes down what it is, and then sweeps. -/
def uploadBlob (blob : Blob Cid) (key : Str) (cutoff : Option Timestamp) : Task Cid Unit := do
  step (.put key)
  step (.addBlob blob key)
  sweepBlobs cutoff

end Task

namespace Transacting

def step (q : CommitQuery Cid) : Transacting Cid q.Answer := Routine.ask q

/-- Statements that come to `f`, or one that is not carried out. -/
def carryOut (f : Landing Cid → Landing Cid) : Transacting Cid Unit := do
  let done : Bool ← step .statement
  if done then Routine.modify f else Routine.throw .sqlite

/-- Puts a blob where it is served from, and says whether this is what put it there. One that lies
there already is as new as the row taking it. -/
def claimFile (key : Str) (cid : Cid) : Transacting Cid Bool := do
  let link : Linking ← step (.link key cid)
  match link with
  | .linked => pure true
  | .refused => Routine.throw .io
  | .alreadyExists =>
    let opened : Option ℕ ← step (.openFile cid)
    match opened with
    | none => Routine.throw .io
    | some file =>
      let done : Bool ← step (.setModified file)
      if done then pure false else Routine.throw .io

/-- What was linked is taken back if the transaction does not land, and the upload is cleared up if
it does. -/
def took (key : Str) (cid : Cid) (linked : Bool) (s : Landing Cid) : Landing Cid :=
  { s with
    linked := if linked then s.linked ++ [cid] else s.linked
    cleared := { s.cleared with taken := s.cleared.taken ++ [key] } }

/-- What is done with the row a blob is found in. -/
def claimRow (uri : Str) (blob : Blob Cid) : Option (BlobRow Cid) → Transacting Cid Unit
  | none => Routine.throw (.blobMissing blob.cid)
  | some row => match row.tempKey with
    -- A second record naming a blob takes what the first one settled.
    | none => carryOut fun s => s.tie uri blob.cid
    | some key => match Landing.mismatch row blob with
      | some e => Routine.throw e
      | none => do
        let linked ← claimFile key blob.cid
        Routine.modify (took key blob.cid linked)
        carryOut fun s => s.tie uri blob.cid

/-- Ties a blob to the record naming it, and takes it out of the state an upload leaves it in. -/
def claim (uri : Str) (blob : Blob Cid) : Transacting Cid Unit := do
  carryOut id
  let s ← Routine.get
  claimRow uri blob (s.tables.blob.find? fun row => row.cid = blob.cid && row.takedownRef.isNone)

/-- What one write does to the record index, the links and the blobs. -/
def indexOne (did : Did) (rev : Tid) (kept : List Cid) : Indexed Cid → Transacting Cid Unit
  | .put collection rkey cid links blobs => do
    let at_ := uri did collection rkey
    carryOut (Landing.relink at_ links)
    carryOut (Landing.dereference at_ kept)
    blobs.forM (claim at_)
    carryOut (Landing.putRecord did rev collection rkey cid)
  | .delete collection rkey => do
    let at_ := uri did collection rkey
    carryOut (Landing.relink at_ [])
    carryOut (Landing.dereference at_ kept)
    carryOut (Landing.removeRecord at_)

/-- Everything but moving the root. -/
def store (did : Did) (revision : Revision Cid) : Transacting Cid Unit := do
  carryOut (Landing.insertBlocks revision.root.rev revision.written)
  revision.records.forM (indexOne did revision.root.rev (Landing.kept revision.records))
  carryOut (Landing.forgetBlocks revision.dropped)
  carryOut (Landing.sweepKept (Landing.kept revision.records))

/-- The transaction is committed, unless the root was not where the revision was built on. -/
def land (cleared : Committed Cid) :
    Except (StoreError Cid) (Option (Tables Cid)) → Transacting Cid (Option (Committed Cid))
  | .error e => Routine.throw e
  | .ok none => pure none
  | .ok (some tables) => do
    let done : Bool ← step (.commit tables)
    if done then pure (some cleared) else Routine.throw .sqlite

def landing (did : Did) (revision : Revision Cid) : Transacting Cid (Option (Committed Cid)) := do
  store did revision
  carryOut id
  let s ← Routine.get
  land s.cleared (s.tables.moveRoot revision.start revision.root)

theorem indexOne_eq (did : Did) (rev : Tid) (kept : List Cid) (record : Indexed Cid) :
    indexOne did rev kept record = (do
      carryOut (Landing.relink (record.uri did) record.links)
      carryOut (Landing.dereference (record.uri did) kept)
      record.blobs.forM (claim (record.uri did))
      carryOut (record.settle did rev)) := by
  cases record <;> rfl

end Transacting

namespace Committing

def step (q : CommitQuery Cid) : Committing Cid q.Answer := Program.query q

/-- A link is not part of the transaction, so one made by a revision that does not land is taken
back by hand. -/
def settle : Except (StoreError Cid) (Option (Committed Cid)) → Landing Cid →
    Committing Cid (Except (StoreError Cid) (Option (Committed Cid)))
  | .ok (some committed), _ => pure (.ok (some committed))
  | landed, s => do
    step .rollback
    s.linked.forM fun cid => step (.delete cid)
    return landed

omit [DecidableEq Cid] in
theorem settle_eq {landed : Except (StoreError Cid) (Option (Committed Cid))}
    (hn : ∀ committed, landed ≠ .ok (some committed)) (s : Landing Cid) :
    settle landed s = Program.ask .rollback fun _ =>
      (s.linked.forM fun cid => step (.delete cid)).bind fun _ => .done landed := by
  cases landed with
  | error e => rfl
  | ok landed =>
    cases landed with
    | none => rfl
    | some committed => exact absurd rfl (hn committed)

/-- Stores a revision's blocks, indexes the records it touched, forgets the blocks it drops and
moves the root onto it, together or not at all. -/
def commit (did : Did) (revision : Revision Cid) :
    Committing Cid (Except (StoreError Cid) (Option (Committed Cid))) := do
  let transaction : Option (Tables Cid) ← step .transaction
  match transaction with
  | none => return .error .sqlite
  | some tables =>
    let (landed, s) ← Transacting.landing did revision ⟨tables, ⟨[], []⟩, ⟨[], []⟩, []⟩
    settle landed s

end Committing

end Manapds
