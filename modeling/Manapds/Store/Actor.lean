import Manapds.Lib.Table
import Manapds.Repo.Block
import Manapds.Store.Stamp

/-!
# One account's database

The tables an account's repository is kept in, and the transaction that moves them from one
revision to the next: the blocks a revision writes go in, the records it touched are indexed, the
blocks it drops go out unless a record still names them, and the root moves only while it is still
the one the revision was worked out from. Rows are in the order they were inserted.
-/

namespace Manapds

variable {Cid : Type}

/-- Where a repository has got to. -/
structure Root (Cid : Type) where
  cid : Cid
  rev : Tid
deriving DecidableEq

/-- A row of `repo_block`. -/
structure BlockRow (Cid : Type) where
  cid : Cid
  repoRev : Tid
  content : Bytes

/-- A row of `record`. -/
structure RecordRow (Cid : Type) where
  uri : Str
  cid : Cid
  collection : Nsid
  rkey : RecordKey
  repoRev : Tid

/-- A row of `blob`. -/
structure BlobRow (Cid : Type) where
  cid : Cid
  mimeType : Str
  size : ℤ
  tempKey : Option Str
  createdAt : ℕ
  takedownRef : Option Str

/-- A row of `record_blob`, which is its own key. -/
structure RecordBlobRow (Cid : Type) where
  blobCid : Cid
  recordUri : Str
deriving DecidableEq

/-- What a record points at that it may only point at once. -/
structure Backlink where
  path : Str
  linkTo : Str
deriving DecidableEq

/-- A row of `backlink`. -/
structure BacklinkRow where
  uri : Str
  path : Str
  linkTo : Str
deriving DecidableEq

/-- A blob this account has uploaded, as the index holds it. -/
structure Blob (Cid : Type) where
  cid : Cid
  mime : Str
  size : ℕ

/-- Where one commit leaves a record in the index. -/
inductive Indexed (Cid : Type) where
  | put (collection : Nsid) (rkey : RecordKey) (cid : Cid) (links : List Backlink)
      (blobs : List (Blob Cid))
  | delete (collection : Nsid) (rkey : RecordKey)

/-- What the database says in place of an answer. -/
inductive StoreError (Cid : Type) where
  /-- A row under a key that is taken. -/
  | sqlite
  /-- A file that is not there. -/
  | io
  | blobMissing (cid : Cid)
  | blobMismatch (what : String) (held named : Str)

/-- What every key in a collection is indexed under. -/
def uriPrefix (did : Did) (collection : Nsid) : Str :=
  text "at://" ++ did.str ++ ascii '/' :: (collection.str ++ [ascii '/'])

/-- What the index keys a record under. -/
def uri (did : Did) (collection : Nsid) (rkey : RecordKey) : Str := uriPrefix did collection ++ rkey.str

structure Tables (Cid : Type) where
  repoRoot : Option (Root Cid)
  repoBlock : List (BlockRow Cid)
  record : List (RecordRow Cid)
  blob : List (BlobRow Cid)
  recordBlob : List (RecordBlobRow Cid)
  backlink : List BacklinkRow

namespace Tables

/-- The schema, with nothing in it. -/
def empty : Tables Cid := ⟨none, [], [], [], [], []⟩

/-- The keys in a collection already pointing where a record would. -/
def pointingAt (tables : Tables Cid) (collection : Nsid) (link : Backlink) : List RecordKey :=
  tables.backlink.filterMap fun row =>
    if row.path = link.path ∧ row.linkTo = link.linkTo then
      match Table.find RecordRow.uri row.uri tables.record with
      | some record => if record.collection = collection then some record.rkey else none
      | none => none
    else none

variable [DecidableEq Cid]

/-- What a block is stored as. -/
def stored (tables : Tables Cid) (cid : Cid) : Option Bytes :=
  (Table.find BlockRow.cid cid tables.repoBlock).map BlockRow.content

/-- Whether any record still names this blob. -/
def held (tables : Tables Cid) (cid : Cid) : Bool := tables.recordBlob.any fun row => row.blobCid = cid

/-- Takes out the blobs nothing holds, and says which went. -/
def orphan (kept : List Cid) : Tables Cid → List Cid → Tables Cid × List Cid
  | tables, [] => (tables, [])
  | tables, cid :: rest =>
    if cid ∈ kept ∨ tables.held cid then orphan kept tables rest
    else
      let (tables, gone) :=
        orphan kept { tables with blob := Table.delete BlobRow.cid cid tables.blob } rest
      (tables, cid :: gone)

/-- Lets go of every blob a record was holding, and says which of them nothing holds any more.
`kept` is what the same commit leaves another record holding. -/
def dereference (tables : Tables Cid) (uri : Str) (kept : List Cid) : Tables Cid × List Cid :=
  let released := tables.recordBlob.filter fun row => row.recordUri = uri
  let left := tables.recordBlob.filter fun row => row.recordUri ≠ uri
  orphan kept { tables with recordBlob := left } (released.map RecordBlobRow.blobCid)

/-- Forgets a block, unless some key still points at it. -/
def forget (tables : Tables Cid) (cid : Cid) : Tables Cid :=
  if tables.record.any fun row => row.cid = cid then tables
  else { tables with repoBlock := Table.delete BlockRow.cid cid tables.repoBlock }

def insertBlock (rev : Tid) (tables : Tables Cid) (cid : Cid) (bytes : Bytes) : Tables Cid :=
  { tables with repoBlock := Table.insertOrIgnore BlockRow.cid ⟨cid, rev, bytes⟩ tables.repoBlock }

def unlink (tables : Tables Cid) (uri : Str) : Tables Cid :=
  { tables with backlink := tables.backlink.filter fun row => row.uri ≠ uri }

def link (uri : Str) (tables : Tables Cid) (link : Backlink) : Tables Cid :=
  { tables with
    backlink := Table.insertOrIgnore (fun row => (row.uri, row.path)) ⟨uri, link.path, link.linkTo⟩
      tables.backlink }

/-- The row an upload under `key` leaves, which no record has claimed yet. -/
def uploadedRow (blob : Blob Cid) (key : Str) (now : Timestamp) : BlobRow Cid :=
  ⟨blob.cid, blob.mime, min blob.size 9223372036854775807, some key, stamp now, none⟩

/-- Writes down a blob that has been stored. Uploading one again puts it back at the start of the
window it is kept for, and one a record already claimed is left alone. -/
def addBlob (tables : Tables Cid) (blob : Blob Cid) (key : Str) (now : Timestamp) : Tables Cid :=
  { tables with
    blob := Table.upsert BlobRow.cid (uploadedRow blob key now)
      (fun row =>
        if row.tempKey.isSome then { row with tempKey := some key, createdAt := stamp now } else row)
      tables.blob }

/-- Whether no row is left under this blob, which is what makes its file nobody's. -/
def unheld (tables : Tables Cid) (cid : Cid) : Bool := (Table.find BlobRow.cid cid tables.blob).isNone

/-- The uploads from before `cutoff` that no record has named. -/
def stale (tables : Tables Cid) (cutoff : Timestamp) : List (Cid × Str) :=
  tables.blob.filterMap fun row => match row.tempKey with
    | some key => if row.createdAt < stamp cutoff then some (row.cid, key) else none
    | none => none

/-- Takes one of them out, unless it was uploaded again or claimed since it was read. -/
def takeStale (tables : Tables Cid) (found : Cid × Str) : Tables Cid :=
  { tables with
    blob := tables.blob.filter fun row => ¬(row.cid = found.1 ∧ row.tempKey = some found.2) }

/-- Whether it is there to be taken out. -/
def hasStale (tables : Tables Cid) (found : Cid × Str) : Bool :=
  tables.blob.any fun row => row.cid = found.1 ∧ row.tempKey = some found.2

/-- Takes out the rows that were found, one statement each, and says which keys went. -/
def sweepRows : Tables Cid → List (Cid × Str) → Tables Cid × List Str
  | tables, [] => (tables, [])
  | tables, found :: rest =>
    let (after, swept) := sweepRows (tables.takeStale found) rest
    (after, if tables.hasStale found then found.2 :: swept else swept)

/-- Blobs uploaded before `cutoff` that no record ever named, taken out of the index so their
files can go. -/
def sweepUnclaimed (tables : Tables Cid) (cutoff : Timestamp) : Tables Cid × List Str :=
  tables.sweepRows (tables.stale cutoff)

/-- Every key an upload is still held under. -/
def uploadKeys (tables : Tables Cid) : List Str := tables.blob.filterMap BlobRow.tempKey

/-- Every blob the account has a row for. -/
def blobCids (tables : Tables Cid) : List Cid := tables.blob.map BlobRow.cid

/-- Moves the root, if it is still where the revision was built on. -/
def moveRoot (tables : Tables Cid) (start : Option (Root Cid)) (root : Root Cid) :
    Except (StoreError Cid) (Option (Tables Cid)) :=
  match start, tables.repoRoot with
  | some start, some held =>
    if held.cid = start.cid then .ok (some { tables with repoRoot := some root }) else .ok none
  | some _, none => .ok none
  | none, some _ => .error .sqlite
  | none, none => .ok (some { tables with repoRoot := some root })

end Tables

/-- The files an account's blobs are in: those served, and uploads under keys of their own. -/
structure BlobFiles (Cid : Type) where
  stored : List Cid
  uploads : List Str

namespace BlobFiles

variable [DecidableEq Cid]

/-- Puts a blob where it is served from, and says whether this is what put it there. -/
def claim (files : BlobFiles Cid) (key : Str) (cid : Cid) :
    Except (StoreError Cid) (Bool × BlobFiles Cid) :=
  if files.uploads.contains key = false then .error .io
  else if cid ∈ files.stored then .ok (false, files)
  else .ok (true, { files with stored := cid :: files.stored })

def delete (files : BlobFiles Cid) (cid : Cid) : BlobFiles Cid :=
  { files with stored := files.stored.filter fun held => held ≠ cid }

end BlobFiles

/-- What a commit leaves for the caller to clear up on disk. -/
structure Committed (Cid : Type) where
  orphaned : List Cid
  taken : List Str

/-- A transaction under way: the tables as it sees them, the files it has linked, and what it will
leave to clear up. -/
structure Landing (Cid : Type) where
  tables : Tables Cid
  files : BlobFiles Cid
  cleared : Committed Cid
  linked : List Cid

namespace Landing

variable [DecidableEq Cid]

/-- What `claim` asks of an upload it takes: that it is what the record says it is. -/
def mismatch (row : BlobRow Cid) (blob : Blob Cid) : Option (StoreError Cid) :=
  if row.mimeType ≠ blob.mime then some (.blobMismatch "Mimetype" row.mimeType blob.mime)
  else if row.size.toNat ≠ blob.size then
    some (.blobMismatch "Size" (text (toString row.size)) (text (toString blob.size)))
  else none

/-- Ties a blob to the record naming it. -/
def tie (s : Landing Cid) (uri : Str) (cid : Cid) : Landing Cid :=
  { s with
    tables :=
      { s.tables with
        recordBlob := Table.insertOrIgnore id ⟨cid, uri⟩ s.tables.recordBlob
        blob := s.tables.blob.map fun row => if row.cid = cid then { row with tempKey := none } else row } }

/-- Takes an upload: links its file under its own name. -/
def takeUpload (s : Landing Cid) (key : Str) (cid : Cid) : Except (StoreError Cid) (Landing Cid) := do
  let (linked, files) ← s.files.claim key cid
  return { s with
    files
    linked := if linked then s.linked ++ [cid] else s.linked
    cleared := { s.cleared with taken := s.cleared.taken ++ [key] } }

/-- Ties a blob to the record naming it, and takes it out of the state an upload leaves it in. -/
def claim (uri : Str) (blob : Blob Cid) : EStateM (StoreError Cid) (Landing Cid) Unit := fun s =>
  match s.tables.blob.find? fun row => row.cid = blob.cid && row.takedownRef.isNone with
  | none => .error (.blobMissing blob.cid) s
  | some row => match row.tempKey with
    -- A second record naming a blob takes what the first one settled.
    | none => .ok () (s.tie uri blob.cid)
    | some key => match mismatch row blob with
      | some e => .error e s
      | none => match s.takeUpload key blob.cid with
        | .error e => .error e s
        | .ok s => .ok () (s.tie uri blob.cid)

def dereference (uri : Str) (kept : List Cid) (s : Landing Cid) : Landing Cid :=
  let (tables, gone) := s.tables.dereference uri kept
  { s with tables, cleared := { s.cleared with orphaned := s.cleared.orphaned ++ gone } }

/-- Points the index at the block a record is in. -/
def putRecord (did : Did) (rev : Tid) (collection : Nsid) (rkey : RecordKey) (cid : Cid) (s : Landing Cid) :
    Landing Cid :=
  { s with
    tables :=
      { s.tables with
        record := Table.upsert RecordRow.uri ⟨uri did collection rkey, cid, collection, rkey, rev⟩
          (fun row => { row with cid, repoRev := rev }) s.tables.record } }

/-- The links of a record are rewritten with it, so one that stops pointing anywhere loses them. -/
def relink (at_ : Str) (links : List Backlink) (s : Landing Cid) : Landing Cid :=
  { s with tables := links.foldl (Tables.link at_) (s.tables.unlink at_) }

def removeRecord (at_ : Str) (s : Landing Cid) : Landing Cid :=
  { s with tables := { s.tables with record := Table.delete RecordRow.uri at_ s.tables.record } }

/-- What one write does to the record index, the links and the blobs. -/
def indexOne (did : Did) (rev : Tid) (kept : List Cid) :
    Indexed Cid → EStateM (StoreError Cid) (Landing Cid) Unit
  | .put collection rkey cid links blobs => do
    let at_ := uri did collection rkey
    modify (relink at_ links)
    modify (dereference at_ kept)
    blobs.forM (claim at_)
    modify (putRecord did rev collection rkey cid)
  | .delete collection rkey => do
    let at_ := uri did collection rkey
    modify (relink at_ [])
    modify (dereference at_ kept)
    modify (removeRecord at_)

/-- Every blob a batch of records names, each once. -/
def kept (records : List (Indexed Cid)) : List Cid :=
  (records.flatMap fun
    | .put _ _ _ _ blobs => blobs.map Blob.cid
    | .delete _ _ => []).dedup

def insertBlocks (rev : Tid) (written : BlockMap Cid) (s : Landing Cid) : Landing Cid :=
  { s with
    tables := written.entries.foldl (fun tables row => tables.insertBlock rev row.1 row.2) s.tables }

def forgetBlocks (dropped : List Cid) (s : Landing Cid) : Landing Cid :=
  { s with tables := dropped.foldl Tables.forget s.tables }

/-- `kept` spares a blob for a record a later write may have replaced, so each is asked for again
once every record has had its turn. -/
def sweepKept (cids : List Cid) (s : Landing Cid) : Landing Cid :=
  let (tables, gone) := s.tables.orphan [] cids
  { s with tables, cleared := { s.cleared with orphaned := s.cleared.orphaned ++ gone } }

/-- Everything but moving the root. -/
def store (did : Did) (root : Root Cid) (written : BlockMap Cid) (dropped : List Cid)
    (records : List (Indexed Cid)) : EStateM (StoreError Cid) (Landing Cid) Unit := do
  modify (insertBlocks root.rev written)
  records.forM (indexOne did root.rev (kept records))
  modify (forgetBlocks dropped)
  modify (sweepKept (kept records))

end Landing

/-- An account's database and the files beside it. -/
structure ActorState (Cid : Type) where
  tables : Tables Cid
  files : BlobFiles Cid

/-- What a commit is asked to land: the root it was built on, the root it moves to, the blocks it
writes and drops, and the records it touched. -/
structure Revision (Cid : Type) where
  start : Option (Root Cid)
  root : Root Cid
  written : BlockMap Cid
  dropped : List Cid
  records : List (Indexed Cid)

namespace ActorState

variable [DecidableEq Cid]

/-- A link is not part of the transaction, so a revision that does not land takes back the ones it
made. -/
def abandon (actor : ActorState Cid) (s : Landing Cid) : ActorState Cid :=
  { actor with files := s.linked.foldl BlobFiles.delete s.files }

/-- Stores a revision's blocks, indexes the records it touched, forgets the blocks it drops and
moves the root onto it, together or not at all. -/
def commit (actor : ActorState Cid) (did : Did) (revision : Revision Cid) :
    Except (StoreError Cid) (Option (Committed Cid)) × ActorState Cid :=
  let s : Landing Cid := ⟨actor.tables, actor.files, ⟨[], []⟩, []⟩
  match Landing.store did revision.root revision.written revision.dropped revision.records s with
  | .error e s => (.error e, actor.abandon s)
  | .ok () s => match s.tables.moveRoot revision.start revision.root with
    | .error e => (.error e, actor.abandon s)
    | .ok none => (.ok none, actor.abandon s)
    | .ok (some tables) => (.ok (some s.cleared), ⟨tables, s.files⟩)

end ActorState

end Manapds
