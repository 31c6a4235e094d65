import Manapds.Account.Reference
import Manapds.Repo.Repository

/-!
# Working out a write

`plan` turns the writes an account asks for into what they leave in the tree, in the index, in the
log and in the answer, and `commitWrites` carries them out: it reads where the repository has got
to, plans, applies and lands the revision, and starts over where somebody else moved the root
first. Everything it reads is a question of its own, put to the database at a moment of its own.
-/

namespace Manapds

open QueryProgram

variable {Cid : Type}

/-- What a caller believes is at a key. -/
inductive Expect (Cid : Type) where
  | anything
  | nothing
  | block (cid : Cid)
deriving DecidableEq

/-- What a write whose key holds nothing should do. -/
inductive Missing where
  | refuse
  | skip
deriving DecidableEq

/-- What to do about a record already pointing where this one would. -/
inductive Conflicts where
  | ignore
  | supersede
deriving DecidableEq

/-- One write, and what has to be at its key for it to land. -/
structure Requested (Cid : Type) where
  write : Write Cid
  expect : Expect Cid
  missing : Missing
  conflicts : Conflicts

inductive Action where
  | create
  | update
  | delete
deriving DecidableEq, Repr

/-- One record operation, as the log tells it. -/
structure Op (Cid : Type) where
  action : Action
  path : Str
  cid : Option Cid
  prev : Option Cid
deriving DecidableEq

/-- Where a write left its record, as the caller is told. -/
structure Applied (Cid : Type) where
  uri : Str
  cid : Option Cid

inductive AccountError (Cid : Type) where
  | noRepo (did : Did)
  /-- What is at the key instead, which is what the caller has to swap against. -/
  | swapRecord (held : Str)
  | swap (held : Cid)
  | contended
  | repo (error : RepoError Cid)
  | store (error : StoreError Cid)

/-- What working a write out asks: for a block, for the keys pointing somewhere, and for the clock
revisions are minted from with the time on it. -/
inductive ReadQuery (Cid : Type) where
  | block (q : StoreQuery Cid)
  | pointingAt (collection : Nsid) (link : Backlink)
  | clock

abbrev ReadQuery.Answer : ReadQuery Cid → Type
  | .block q => q.Answer
  | .pointingAt _ _ => List RecordKey
  | .clock => TidClock × ℕ

abbrev Working (Cid : Type) := Routine (ReadQuery Cid) ReadQuery.Answer Unit (AccountError Cid)

/-- A read of the repository, as part of a write. -/
def reading {σ α : Type} (t : Reads Cid σ α) (s : σ) : Working Cid α := fun u =>
  ((t s).via ReadQuery.block fun _ answer => answer).bind fun result =>
    .done (result.1.mapError .repo, u)

/-- One write of a plan, with what it leaves in the index and in the log. -/
structure Planned (Cid : Type) where
  write : Write Cid
  index : Indexed Cid
  op : Op Cid

/-- What a set of writes leaves in the index, in the log and in the answer. -/
structure Plan (Cid : Type) where
  planned : List (Planned Cid)
  results : List (Applied Cid)

namespace Plan

def writes (plan : Plan Cid) : List (Write Cid) := plan.planned.map Planned.write

def index (plan : Plan Cid) : List (Indexed Cid) := plan.planned.map Planned.index

def ops (plan : Plan Cid) : List (Op Cid) := plan.planned.map Planned.op

end Plan

section

variable [Codec Cid]

/-- The CID of the record a write carries. -/
def Write.encoded (write : Write Cid) : Except (RepoError Cid) (Option Cid) :=
  match write.record with
  | none => .ok none
  | some record => do return some (cidFor (← encode record.ipld))

def Write.action (write : Write Cid) (prev : Option Cid) : Action :=
  match write with
  | .create _ _ _ => .create
  | .update _ _ _ => .update
  -- What was there decides which of the two this one was.
  | .put _ _ _ => if prev.isSome then .update else .create
  | .delete _ _ => .delete

def Write.blobs (write : Write Cid) : Except (RepoError Cid) (List (Blob Cid)) :=
  match write.record with
  | none => .ok []
  | some record => BlobRef.of record.ipld

def Write.links (write : Write Cid) : List Backlink :=
  match write.record with
  | none => []
  | some record => Backlink.of record.ipld

/-- What a write leaves in the index, given where its record is. -/
def Write.indexed (write : Write Cid) (cid : Option Cid) (blobs : List (Blob Cid)) : Indexed Cid :=
  match cid with
  | some cid => .put write.collection write.rkey cid write.links blobs
  | none => .delete write.collection write.rkey

/-- What a write leaves behind, where `prev` is what it finds. -/
def Write.planned (did : Did) (write : Write Cid) (prev : Option Cid) :
    Except (RepoError Cid) (Planned Cid × Applied Cid) := do
  let blobs ← write.blobs
  let cid ← write.encoded
  return (⟨write, write.indexed cid blobs, ⟨write.action prev, write.key, cid, prev⟩⟩,
    ⟨text "at://" ++ did.str ++ ascii '/' :: write.key, cid⟩)

/-- Taking a record out to make way for another. -/
def Planned.taking (collection : Nsid) (rkey : RecordKey) (prev : Option Cid) : Planned Cid :=
  ⟨.delete collection rkey, .delete collection rkey,
    ⟨.delete, recordPath collection rkey, none, prev⟩⟩

variable [DecidableEq Cid]

/-- Whether what is at a key is what the caller expects there. -/
def Requested.check [CidText Cid] (asked : Requested Cid) (prev : Option Cid) :
    Except (AccountError Cid) Unit :=
  let refused := AccountError.swapRecord ((prev.map CidText.toText).getD (text "null"))
  match asked.expect, prev with
  | .anything, _ => .ok ()
  | .nothing, none => .ok ()
  | .block wanted, some held => if wanted = held then .ok () else .error refused
  | _, _ => .error refused

/-- The records under some keys of a collection, taken out one by one. -/
def supersededAt (collection : Nsid) : List RecordKey → Repo Cid →
    Working Cid (List (Planned Cid) × Repo Cid)
  | [], repo => pure ([], repo)
  | held :: rest, repo => do
    let (prev, repo) ← reading (repo.get collection held) ()
    let (taken, repo) ← supersededAt collection rest repo
    return (.taking collection held prev :: taken, repo)

def supersededBy (collection : Nsid) : List Backlink → Repo Cid →
    Working Cid (List (Planned Cid) × Repo Cid)
  | [], repo => pure ([], repo)
  | link :: rest, repo => do
    let held ← Routine.ask (ReadQuery.pointingAt collection link)
    let (taken, repo) ← supersededAt collection held repo
    let (others, repo) ← supersededBy collection rest repo
    return (taken ++ others, repo)

/-- Every record this one would take the place of, as the writes that take them out. -/
def superseded (repo : Repo Cid) (asked : Requested Cid) :
    Working Cid (List (Planned Cid) × Repo Cid) :=
  if asked.conflicts = .supersede ∧ Backlink.heldToOne asked.write.collection = true then
    supersededBy asked.write.collection asked.write.links repo
  else pure ([], repo)

variable [CidText Cid]

/-- Works out all three before any of the writes lands. -/
def plan (did : Did) : List (Requested Cid) → Repo Cid → Working Cid (Plan Cid × Repo Cid)
  | [], repo => pure (⟨[], []⟩, repo)
  | asked :: rest, repo => do
    let (prev, repo) ← reading (repo.get asked.write.collection asked.write.rkey) ()
    -- A key holding nothing is what a write that skips asked for.
    if prev.isNone ∧ asked.missing = .skip then plan did rest repo
    else do
      Routine.ofExcept (asked.check prev)
      -- Goes out before the write, so one landing on the same key finds it empty.
      let (taken, repo) ← superseded repo asked
      let (planned, result) ← Routine.ofExcept ((asked.write.planned did prev).mapError .repo)
      let (others, repo) ← plan did rest repo
      return (⟨taken ++ planned :: others.planned, result :: others.results⟩, repo)

end

/-- A revision worked out and yet to land, with what it leaves for the log and the answer. -/
structure Worked (Cid : Type) where
  revision : Revision Cid
  plan : Plan Cid
  since : Tid
  prevData : Cid

/-- One commit, and everything the log and the answer want from it. -/
structure Landed (Cid : Type) where
  results : List (Applied Cid)
  root : Root Cid
  blocks : BlockMap Cid
  ops : List (Op Cid)
  since : Tid
  prevData : Cid
  committed : Committed Cid

def Worked.landed (worked : Worked Cid) (committed : Committed Cid) : Landed Cid :=
  ⟨worked.plan.results, worked.revision.root, worked.revision.written, worked.plan.ops,
    worked.since, worked.prevData, committed⟩

/-- What a write is asked for: whose it is and what signs for it, the requests, the commit it has
to follow where it names one, and how many rounds the walk of `Mst.dropped` is given. -/
structure Job (Cid : Type) where
  did : Did
  keypair : Keypair
  requested : List (Requested Cid)
  swap : Option Cid
  rounds : ℕ

/-- What a whole write asks: where the repository has got to, what working it out asks, and in the
end to land. -/
inductive WriteQuery (Cid : Type) where
  | root
  | read (q : ReadQuery Cid)
  | commit (revision : Revision Cid)

abbrev WriteQuery.Answer : WriteQuery Cid → Type
  | .root => Option (Root Cid)
  | .read q => q.Answer
  | .commit _ => Except (StoreError Cid) (Option (Committed Cid))

abbrev Writes (Cid : Type) := Program (WriteQuery Cid) WriteQuery.Answer

section

variable [Codec Cid] [DecidableEq Cid] [CidText Cid]

/-- Signs the revision a plan comes to. -/
def Job.sign (job : Job Cid) (start : Root Cid) (repo : Repo Cid) (plan : Plan Cid) :
    Working Cid (Worked Cid) := do
  let (clock, now) ← Routine.ask ReadQuery.clock
  let (blocks, dropped, next) ← reading (repo.apply job.rounds plan.writes job.keypair now) clock
  return ⟨⟨some start, ⟨next.cid, next.rev⟩, blocks, dropped, plan.index⟩, plan, repo.rev,
    repo.commit.data⟩

/-- One attempt at a write: everything from reading the commit a root names to a revision that is
ready to land, or nothing where there is nothing to write. -/
def Job.attempt (job : Job Cid) (start : Root Cid) : Working Cid (Option (Worked Cid)) := do
  let repo ← reading (Repo.load start.cid) ()
  let (plan, repo) ← plan job.did job.requested repo
  if plan.writes = [] then return none
  else if job.swap.all (· = start.cid) then do
    let worked ← job.sign start repo plan
    return some worked
  else Routine.throw (.swap start.cid)

/-- What a write does with the revision an attempt came to: it lands, or `again` starts over. -/
def Job.land (again : Writes Cid (Except (AccountError Cid) (Option (Landed Cid)))) :
    Except (AccountError Cid) (Option (Worked Cid)) × Unit →
    Writes Cid (Except (AccountError Cid) (Option (Landed Cid)))
  | (.error e, _) => .done (.error e)
  | (.ok none, _) => .done (.ok none)
  | (.ok (some worked), _) => .ask (.commit worked.revision) fun
    | .error e => .done (.error (.store e))
    | .ok none => again
    | .ok (some committed) => .done (.ok (some (worked.landed committed)))

/-- An attempt under way, and what is done with what it comes to. -/
def Job.underway (again : Writes Cid (Except (AccountError Cid) (Option (Landed Cid))))
    (rest : Program (ReadQuery Cid) ReadQuery.Answer
      (Except (AccountError Cid) (Option (Worked Cid)) × Unit)) :
    Writes Cid (Except (AccountError Cid) (Option (Landed Cid))) :=
  (rest.via WriteQuery.read fun _ answer => answer).bind (Job.land again)

def Job.attempts (job : Job Cid) :
    ℕ → Writes Cid (Except (AccountError Cid) (Option (Landed Cid)))
  | 0 => .done (.error .contended)
  | n + 1 => .ask .root fun
    | none => .done (.error (.noRepo job.did))
    | some start => Job.underway (job.attempts n) (job.attempt start ())

/-- How many times a write works itself out again against a root somebody else moved first. -/
def maxAttempts : ℕ := 8

/-- The whole of one write. -/
def commitWrites (job : Job Cid) : Writes Cid (Except (AccountError Cid) (Option (Landed Cid))) :=
  job.attempts maxAttempts

end

end Manapds
