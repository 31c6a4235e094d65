import Manapds.Account.Index
import Manapds.Store.Checked
import Manapds.Store.Holding

/-!
# A server process and the blobs of one account

Everything that touches the blobs of one account in one server process: the call of `write` that has
the account's turn, and any number of uploads, sweeps and walks over the files. A call may be dropped
at any of its awaits. What it has on a blocking thread runs on: `commit_writes` with the turn, and
`cleared` without, as the turn is then with the call. Each step puts one question of one of them to
the database or the disk. What `commit_writes` works out on the repository it reads is left open.
-/

namespace Manapds

open QueryProgram

variable {Cid : Type} [DecidableEq Cid]

/-- Works a revision out and commits it, as often as the root has moved in between. -/
def Committing.attempts (did : Did) : ℕ → Committing Cid (Option (Committed Cid))
  | 0 => pure none
  | n + 1 => do
    let planned : Option (Revision Cid) ← step .plan
    match planned with
    | none => pure none
    | some revision =>
      match ← commit did revision with
      | .error _ => pure none
      | .ok none => attempts did n
      | .ok (some committed) => pure (some committed)

def Committing.commitWrites (did : Did) : Committing Cid (Option (Committed Cid)) :=
  attempts did maxAttempts

/-- What a step is, as far as it matters when it comes. What sweeps is the call with the turn, `none`,
or one of the tasks. -/
inductive Serving.Event (Cid : Type) where
  | unheld (who : Option ℕ) (cid : Cid)
  | blobCids (who : Option ℕ)
  /-- A commit links or opens the file the blob is served from. -/
  | take (cid : Cid)
  /-- That file is taken, other than by the commit that linked it. -/
  | remove (who : Option ℕ) (cid : Cid)
  /-- A call is dropped, and what it was clearing runs on as a task. -/
  | drop (i : ℕ)
  | other

def FileName.removed (who : Option ℕ) : FileName Cid → Serving.Event Cid
  | .served cid => .remove who cid
  | .upload _ => .other

namespace Storage

/-- The steps that are taken under no transaction but their own. Statements that change the database
wait for the transaction that is under way. -/
inductive Does (s : Storage Cid) (who : Option ℕ) :
    Serving.Event Cid → (q : FilesQuery Cid) → q.Answer → Storage Cid → Prop where
  | unheld (cid : Cid) : Does s who (.unheld who cid) (.unheld cid) (s.tables.unheld cid) s
  | uploadKeys : Does s who .other .uploadKeys s.tables.uploadKeys s
  | blobCids : Does s who (.blobCids who) .blobCids s.tables.blobCids s
  | stale (cutoff : Timestamp) : Does s who .other (.stale cutoff) (s.tables.stale cutoff) s
  | takeStale (found : Cid × Str) (free : s.transaction = none) : Does s who .other
      (.takeStale found) (s.tables.hasStale found) { s with tables := s.tables.takeStale found }
  | addBlob (blob : Blob Cid) (key : Str) (now : Timestamp) (free : s.transaction = none) :
      Does s who .other (.addBlob blob key) () { s with tables := s.tables.addBlob blob key now }
  | put (key : Str) (now : Timestamp) {file : ℕ} (new : ∀ name, s.disk.file name ≠ some file) :
      Does s who .other (.put key) () { s with disk := s.disk.put key file now }
  | readDir {directory : BlobDirectory} (names : List (FileName Cid))
      (within : ∀ name ∈ names, name.directory = directory) :
      Does s who .other (.readDir directory) names s
  | modified (name : FileName Cid) :
      Does s who .other (.modified name) ((s.disk.file name).map s.disk.modified) s
  | remove (name : FileName Cid) :
      Does s who (name.removed who) (.remove name) () { s with disk := s.disk.remove name }
  /-- It will not delete, which is logged. -/
  | spare (name : FileName Cid) : Does s who .other (.remove name) () s

/-- The steps of `commit_writes`, which alone has transactions of more than one statement. -/
inductive Commits [Codec Cid] (s : Storage Cid) :
    Serving.Event Cid → (q : CommitQuery Cid) → q.Answer → Storage Cid → Prop where
  | nothing : Commits s .other .plan none s
  | plan {revision : Revision Cid} (of : revision.OfWrites) (built : revision.start ≠ none) :
      Commits s .other .plan (some revision) s
  | refuse : Commits s .other .transaction none s
  | transaction (free : s.transaction = none) :
      Commits s .other .transaction (some s.tables) { s with transaction := some [] }
  | statement (done : Bool) : Commits s .other .statement done s
  | link {key : Str} {cid : Cid} {taken : List Cid} {file : ℕ} (under : s.transaction = some taken)
      (upload : s.disk.file (.upload key) = some file) (free : s.disk.file (.served cid) = none) :
      Commits s (.take cid) (.link key cid) .linked ⟨s.tables, s.disk.link cid file, some (cid :: taken)⟩
  | alreadyExists {key : Str} {cid : Cid} (there : s.disk.file (.served cid) ≠ none) :
      Commits s .other (.link key cid) .alreadyExists s
  | unlinked {key : Str} {cid : Cid} : Commits s .other (.link key cid) .refused s
  | openFile {cid : Cid} {taken : List Cid} {file : ℕ} (under : s.transaction = some taken)
      (there : s.disk.file (.served cid) = some file) :
      Commits s (.take cid) (.openFile cid) (some file) { s with transaction := some (cid :: taken) }
  | unopened {cid : Cid} : Commits s .other (.openFile cid) none s
  | setModified (file : ℕ) (now : Timestamp) :
      Commits s .other (.setModified file) true { s with disk := s.disk.setModified file now }
  | unmodified (file : ℕ) : Commits s .other (.setModified file) false s
  | commit (tables : Tables Cid) {taken : List Cid} (under : s.transaction = some taken) :
      Commits s .other (.commit tables) true ⟨tables, s.disk, none⟩
  | uncommitted (tables : Tables Cid) : Commits s .other (.commit tables) false s
  | rollback : Commits s .other .rollback () { s with transaction := none }
  | delete (cid : Cid) : Commits s .other (.delete cid) () { s with disk := s.disk.remove (.served cid) }
  | spare (cid : Cid) : Commits s .other (.delete cid) () s

end Storage

/-- How far a call with the turn has come. -/
inductive Serving.Stage (Cid : Type) where
  /-- `commit_writes` is at it, and the call waits for it or has been dropped. -/
  | committing (waits : Bool) (rest : Committing Cid (Option (Committed Cid)))
  | clearing (rest : Task Cid Unit)
  /-- Its entry is appended to the log and the root beside it moved. -/
  | following

/-- An account's database and files, the call that has its turn and what runs without. -/
structure Serving (Cid : Type) where
  storage : Storage Cid
  turn : Option (Serving.Stage Cid)
  tasks : ℕ → Option (Task Cid Unit)

namespace Serving

def resume (s : Serving Cid) (i : ℕ) (rest : Task Cid Unit) : Serving Cid :=
  { s with tasks := Function.update s.tasks i (some rest) }

variable [Codec Cid]

inductive Step (did : Did) (s : Serving Cid) : Event Cid → Serving Cid → Prop where
  | upload {i : ℕ} (blob : Blob Cid) (key : Str) (cutoff : Option Timestamp) (idle : s.tasks i = none) :
      Step did s .other (s.resume i (Task.uploadBlob blob key cutoff))
  | sweep {i : ℕ} (cutoff : Option Timestamp) (idle : s.tasks i = none) :
      Step did s .other (s.resume i (Task.sweepBlobs cutoff))
  /-- What `reconcile` does for an account after a sweep, whatever became of that. -/
  | walk {i : ℕ} (cutoff : Timestamp) (idle : s.tasks i = none) :
      Step did s .other (s.resume i (Task.unheldFiles cutoff))
  | task {i : ℕ} {q : FilesQuery Cid} {next : q.Answer → Task Cid Unit} {x : q.Answer}
      {e : Event Cid} {storage : Storage Cid} (asks : s.tasks i = some (.ask q next))
      (does : s.storage.Does (some i) e q x storage) :
      Step did s e { s.resume i (next x) with storage }
  | take (free : s.turn = none) :
      Step did s .other { s with turn := some (.committing true (Committing.commitWrites did)) }
  | work {waits : Bool} {q : CommitQuery Cid}
      {next : q.Answer → Committing Cid (Option (Committed Cid))} {x : q.Answer} {e : Event Cid}
      {storage : Storage Cid} (asks : s.turn = some (.committing waits (.ask q next)))
      (does : s.storage.Commits e q x storage) :
      Step did s e { s with storage, turn := some (.committing waits (next x)) }
  | unheard {r : Option (Committed Cid)} (ends : s.turn = some (.committing false (.done r))) :
      Step did s .other { s with turn := none }
  | nothing (ends : s.turn = some (.committing true (.done none))) :
      Step did s .other { s with turn := none }
  | clear {committed : Committed Cid}
      (ends : s.turn = some (.committing true (.done (some committed)))) : Step did s .other
        { s with turn := some (.clearing (Task.cleared committed.orphaned committed.taken)) }
  | clearing {q : FilesQuery Cid} {next : q.Answer → Task Cid Unit} {x : q.Answer} {e : Event Cid}
      {storage : Storage Cid} (asks : s.turn = some (.clearing (.ask q next)))
      (does : s.storage.Does none e q x storage) :
      Step did s e { s with storage, turn := some (.clearing (next x)) }
  | cleared (ends : s.turn = some (.clearing (.done ()))) :
      Step did s .other { s with turn := some .following }
  | answer (ends : s.turn = some .following) : Step did s .other { s with turn := none }
  /-- A call is dropped and `commit_writes` runs on. -/
  | abandon {rest : Committing Cid (Option (Committed Cid))}
      (at_ : s.turn = some (.committing true rest)) :
      Step did s .other { s with turn := some (.committing false rest) }
  /-- A call is dropped and `cleared` runs on. -/
  | drop {i : ℕ} {rest : Task Cid Unit} (at_ : s.turn = some (.clearing rest))
      (idle : s.tasks i = none) : Step did s (.drop i) { s.resume i rest with turn := none }

omit [DecidableEq Cid] [Codec Cid] in
/-- A commit has linked or opened the file of the blob since what sweeps last asked about its row.
The last step is the first one here. -/
def Crossed (cid : Cid) : List (Event Cid) → Option ℕ → Prop
  | [], _ => False
  | .take taken :: past, who => taken = cid ∨ Crossed cid past who
  | .unheld asker asked :: past, who => ¬(asker = who ∧ asked = cid) ∧ Crossed cid past who
  | .blobCids asker :: past, who => asker ≠ who ∧ Crossed cid past who
  | .drop i :: past, who => Crossed cid past (if who = some i then none else who)
  | .remove _ _ :: past, who => Crossed cid past who
  | .other :: past, who => Crossed cid past who

omit [DecidableEq Cid] [Codec Cid] in
/-- No commit comes between the question about a blob's row and the removal that it allowed. -/
def Kept (past : List (Event Cid)) : Event Cid → Prop
  | .remove who cid => ¬Crossed cid past who
  | _ => True

/-- Any order of steps, or with `kept` any whose steps are all `Kept`. An account starts with no blob
in its database, whatever lies on the disk. -/
inductive Reachable (did : Did) (kept : Bool) : Serving Cid → List (Event Cid) → Prop where
  | opened {tables : Tables Cid} (disk : Disk Cid) : tables.blob = [] →
      Reachable did kept ⟨⟨tables, disk, none⟩, none, fun _ => none⟩ []
  | step {s s' : Serving Cid} {past : List (Event Cid)} {e : Event Cid} :
      Reachable did kept s past → Step did s e s' → (kept = true → Kept past e) →
      Reachable did kept s' (e :: past)

end Serving

/-! ## What a step can do -/

namespace Tables

variable {tables : Tables Cid} {cid : Cid}

/-- An upload claims nothing. -/
theorem claimed_of_addBlob {blob : Blob Cid} {key : Str} {now : Timestamp}
    (h : (tables.addBlob blob key now).Claimed cid) : tables.Claimed cid := by
  obtain ⟨row, hm, hc, hn⟩ := h
  unfold addBlob Table.upsert at hm
  dsimp only at hm
  split_ifs at hm
  · obtain ⟨held, hh, rfl⟩ := List.mem_map.mp hm
    split_ifs at hc hn with hcid hs
    · exact ⟨held, hh, hc, hn⟩
    · exact ⟨held, hh, hc, hn⟩
  · rcases List.mem_append.mp hm with hm | hm
    · exact ⟨row, hm, hc, hn⟩
    · rw [List.mem_singleton.mp hm] at hn
      exact absurd hn (Option.some_ne_none key)

theorem claimed_of_takeStale {found : Cid × Str} (h : (tables.takeStale found).Claimed cid) :
    tables.Claimed cid := h.mono fun _ hm => (List.mem_filter.mp hm).1

theorem unheld_eq_true : tables.unheld cid = true ↔ cid ∉ tables.blobCids := by
  rw [unheld, Option.isNone_iff_eq_none, Table.find_eq_none, blobCids, List.mem_map]
  simp

end Tables

namespace Committing

variable {did : Did} {h : Holding Cid}

/-- However often a revision is worked out again, no transaction is left behind. -/
theorem meets_attempts (n : ℕ) (hu : h.under = none) :
    (attempts did n).Meets (Holding.watch Cid) (fun _ h => h.under = none) h := by
  induction n generalizing h with
  | zero => exact hu
  | succ n ih =>
    refine ⟨trivial, fun planned => ?_⟩
    cases planned with
    | none => exact hu
    | some revision =>
      apply (meets_commit revision hu).bind
      intro r h hu
      cases r with
      | error e => exact hu
      | ok landed =>
        cases landed with
        | none => exact ih hu
        | some committed => exact hu

end Committing

namespace Storage

variable {s s' : Storage Cid} {e : Serving.Event Cid} {cid : Cid}

/-- What the transaction under way has come to, if there is one. -/
structure Holds (s : Storage Cid) (h : Holding Cid) : Prop where
  transaction : s.transaction = h.under.map Prod.snd
  base : ∀ u ∈ h.under, u.1 = s.tables
  linked : ∀ cid ∈ h.linked, ¬s.tables.Claimed cid

/-- What is claimed and what is being taken has its file. -/
structure Serves (s : Storage Cid) : Prop where
  claimed : ∀ cid, s.tables.Claimed cid → s.disk.file (.served cid) ≠ none
  taken : ∀ taken, s.transaction = some taken → ∀ cid ∈ taken, s.disk.file (.served cid) ≠ none
  listed : ∀ taken, s.transaction = some taken → ∀ cid ∈ taken, cid ∈ s.tables.blobCids

/-- A blob is neither claimed nor being taken. -/
def Free (s : Storage Cid) (cid : Cid) : Prop :=
  ¬s.tables.Claimed cid ∧ ∀ taken, s.transaction = some taken → cid ∉ taken

omit [DecidableEq Cid] in
/-- A blob without a row is free. -/
theorem Serves.free_of_not_mem (hs : s.Serves) (hn : cid ∉ s.tables.blobCids) : s.Free cid := by
  refine ⟨?_, fun taken ht hm => hn (hs.listed taken ht cid hm)⟩
  rintro ⟨row, hm, hc, -⟩
  exact hn (List.mem_map.mpr ⟨row, hm, hc⟩)

namespace Does

variable {who : Option ℕ} {q : FilesQuery Cid} {x : q.Answer}

theorem claimed (hd : s.Does who e q x s') (hc : s'.tables.Claimed cid) : s.tables.Claimed cid := by
  cases hd with
  | takeStale found free => exact Tables.claimed_of_takeStale hc
  | addBlob blob key now free => exact Tables.claimed_of_addBlob hc
  | _ => exact hc

theorem transaction (hd : s.Does who e q x s') : s'.transaction = s.transaction := by
  cases hd <;> rfl

/-- The tables a transaction was begun on stay while it is under way. -/
theorem tables_eq (hd : s.Does who e q x s') (ht : s.transaction ≠ none) : s'.tables = s.tables := by
  cases hd with
  | takeStale found free => exact absurd free ht
  | addBlob blob key now free => exact absurd free ht
  | _ => rfl

theorem served (hd : s.Does who e q x s') (hn : e ≠ .remove who cid)
    (hf : s.disk.file (.served cid) ≠ none) : s'.disk.file (.served cid) ≠ none := by
  cases hd with
  | put key now new => simpa [Disk.put] using hf
  | remove name =>
    have hne : FileName.served cid ≠ name := by
      rintro rfl
      exact hn rfl
    simpa [Disk.remove, hne] using hf
  | _ => exact hf

theorem holds (hd : s.Does who e q x s') {h : Holding Cid} (hh : s.Holds h) : s'.Holds h := by
  refine ⟨hd.transaction.trans hh.transaction, fun u hu => ?_, fun cid hm hc => ?_⟩
  · have ht : s.transaction ≠ none := by
      rw [hh.transaction, Option.mem_def.mp hu]
      exact Option.some_ne_none u.2
    rw [hd.tables_eq ht]
    exact hh.base u hu
  · exact hh.linked cid hm (hd.claimed hc)

theorem free (hd : s.Does who e q x s') (hf : s.Free cid) : s'.Free cid := by
  refine ⟨fun hc => hf.1 (hd.claimed hc), ?_⟩
  rw [hd.transaction]
  exact hf.2

/-- Where what is taken is free, what is served stays served. -/
theorem serves (hd : s.Does who e q x s') (hs : s.Serves)
    (hk : ∀ cid, e = .remove who cid → s.Free cid) : s'.Serves := by
  refine ⟨fun cid hc => ?_, fun taken ht cid hm => ?_, fun taken ht cid hm => ?_⟩
  · apply hd.served _ (hs.claimed cid (hd.claimed hc))
    exact fun he => (hk cid he).1 (hd.claimed hc)
  · rw [hd.transaction] at ht
    apply hd.served _ (hs.taken taken ht cid hm)
    exact fun he => (hk cid he).2 taken ht hm
  · rw [hd.transaction] at ht
    rw [hd.tables_eq (by simp [ht])]
    exact hs.listed taken ht cid hm

end Does

namespace Holds

variable {h : Holding Cid} {taken : List Cid}

omit [DecidableEq Cid] in
/-- What is taken is taken on the tables the transaction was begun on. -/
theorem take (hh : s.Holds h) (ht : s.transaction = some taken) (cid : Cid) :
    some (cid :: taken) = (h.take cid).map Prod.snd ∧ ∀ u ∈ h.take cid, u.1 = s.tables := by
  rw [hh.transaction] at ht
  obtain ⟨u, hu, rfl⟩ := Option.map_eq_some_iff.mp ht
  have hbase := hh.base u hu
  rw [Holding.take, hu]
  refine ⟨rfl, ?_⟩
  rintro _ ⟨⟩
  exact hbase

end Holds

/-- A commit moves onto nothing claimed that was not, but what it has taken. -/
theorem Commits.claimed [Codec Cid] {q : CommitQuery Cid} {x : q.Answer} {h : Holding Cid}
    (hc : s.Commits e q x s') (hh : s.Holds h) (hd : h.Demands q) (hclaimed : s'.tables.Claimed cid) :
    s.tables.Claimed cid ∨ ∃ taken, s.transaction = some taken ∧ cid ∈ taken := by
  cases hc with
  | @commit tables taken under =>
    obtain ⟨u, hu, hclaims⟩ := hd
    rcases hclaims cid hclaimed with hclaimed | htaken
    · rw [hh.base u hu] at hclaimed
      exact Or.inl hclaimed
    · refine Or.inr ⟨u.2, ?_, htaken⟩
      rw [hh.transaction, hu]
      rfl
  | _ => exact Or.inl hclaimed

/-- A blob stays free until a commit takes it. -/
theorem Commits.free [Codec Cid] {q : CommitQuery Cid} {x : q.Answer} {h : Holding Cid}
    (hc : s.Commits e q x s') (hh : s.Holds h) (hd : h.Demands q) (hf : s.Free cid) :
    e = .take cid ∨ s'.Free cid := by
  by_cases he : e = .take cid
  · exact Or.inl he
  refine Or.inr ⟨fun hclaimed => ?_, ?_⟩
  · rcases hc.claimed hh hd hclaimed with hclaimed | ⟨taken, htaken, hm⟩
    · exact hf.1 hclaimed
    · exact hf.2 taken htaken hm
  · cases hc with
    | transaction =>
      rintro _ ⟨⟩
      exact List.not_mem_nil
    | @link _ held taken _ under _ _ =>
      rintro _ ⟨⟩ hm
      rcases List.mem_cons.mp hm with rfl | hm
      · exact he rfl
      · exact hf.2 taken under hm
    | @openFile held taken _ under _ =>
      rintro _ ⟨⟩ hm
      rcases List.mem_cons.mp hm with rfl | hm
      · exact he rfl
      · exact hf.2 taken under hm
    | commit | rollback => rintro _ ⟨⟩
    | _ => exact hf.2

theorem Commits.serves [Codec Cid] {q : CommitQuery Cid} {x : q.Answer} {h : Holding Cid}
    (hc : s.Commits e q x s') (hs : s.Serves) (hh : s.Holds h) (hd : h.Demands q) :
    s'.Serves ∧ s'.Holds (h.move q x) := by
  cases hc with
  | transaction free =>
    refine ⟨⟨hs.claimed, ?_, ?_⟩, rfl, ?_, fun cid hc => absurd hc List.not_mem_nil⟩
    · rintro _ ⟨⟩ cid hc
      cases hc
    · rintro _ ⟨⟩ cid hc
      cases hc
    · rintro _ ⟨⟩
      rfl
  | @link key cid taken file under upload free =>
    obtain ⟨u, hu, hlisted⟩ := hd
    obtain ⟨htaken, hbase⟩ := hh.take under cid
    have hlink : ∀ held, s.disk.file (.served held) ≠ none ∨ held = cid →
        (s.disk.link cid file).file (.served held) ≠ none := by
      intro held hf
      by_cases hc : held = cid
      · simp [Disk.link, hc]
      · simpa [Disk.link, hc] using hf.resolve_right hc
    refine ⟨⟨fun held hc => hlink held (Or.inl (hs.claimed held hc)), ?_, ?_⟩, htaken, hbase, ?_⟩
    · rintro _ ⟨⟩ held hm
      rcases List.mem_cons.mp hm with hm | hm
      · exact hlink held (Or.inr hm)
      · exact hlink held (Or.inl (hs.taken taken under held hm))
    · rintro _ ⟨⟩ held hm
      rcases List.mem_cons.mp hm with rfl | hm
      · rwa [hh.base u hu] at hlisted
      · exact hs.listed taken under held hm
    · intro held hm hc
      rcases List.mem_cons.mp hm with rfl | hm
      · exact hs.claimed held hc free
      · exact hh.linked held hm hc
  | @openFile cid taken file under there =>
    obtain ⟨u, hu, hlisted⟩ := hd
    obtain ⟨htaken, hbase⟩ := hh.take under cid
    refine ⟨⟨hs.claimed, ?_, ?_⟩, htaken, hbase, hh.linked⟩
    · rintro _ ⟨⟩ held hm
      rcases List.mem_cons.mp hm with rfl | hm
      · simp [there]
      · exact hs.taken taken under held hm
    · rintro _ ⟨⟩ held hm
      rcases List.mem_cons.mp hm with rfl | hm
      · rwa [hh.base u hu] at hlisted
      · exact hs.listed taken under held hm
  | commit tables under =>
    have hcommits : s.Commits .other (.commit tables) true ⟨tables, s.disk, none⟩ :=
      .commit tables under
    refine ⟨⟨fun cid hc => ?_, ?_, ?_⟩, rfl, ?_, fun cid hc => absurd hc List.not_mem_nil⟩
    · rcases hcommits.claimed hh hd hc with hc | ⟨taken, htaken, hc⟩
      · exact hs.claimed cid hc
      · exact hs.taken taken htaken cid hc
    · rintro _ ⟨⟩
    · rintro _ ⟨⟩
    · rintro _ ⟨⟩
  | rollback =>
    refine ⟨⟨hs.claimed, ?_, ?_⟩, rfl, ?_, hh.linked⟩
    · rintro _ ⟨⟩
    · rintro _ ⟨⟩
    · rintro _ ⟨⟩
  | delete cid =>
    obtain ⟨hu, hl⟩ := hd
    have ht : s.transaction = none := by
      rw [hh.transaction, hu]
      rfl
    refine ⟨⟨fun held hc => ?_, ?_, hs.listed⟩, hh.transaction, hh.base, hh.linked⟩
    · have hne : held ≠ cid := by
        rintro rfl
        exact hh.linked held hl hc
      simpa [Disk.remove, hne] using hs.claimed held hc
    · intro taken htaken
      cases ht.symm.trans htaken
  | setModified file now =>
    exact ⟨⟨hs.claimed, hs.taken, hs.listed⟩, hh.transaction, hh.base, hh.linked⟩
  | _ => exact ⟨hs, hh⟩

end Storage

/-- What the database and the disk do where they do what they are asked. -/
theorem Storage.commits_carry [Codec Cid] {planned : Option (Revision Cid)}
    (hp : ∀ revision ∈ planned, revision.OfWrites ∧ revision.start ≠ none) (q : CommitQuery Cid)
    (s : Storage Cid) :
    ∃ e, s.Commits e q (Storage.carry planned q s).1 (Storage.carry planned q s).2 := by
  cases q with
  | plan =>
    cases planned with
    | none => exact ⟨_, .nothing⟩
    | some revision => exact ⟨_, .plan (hp revision rfl).1 (hp revision rfl).2⟩
  | transaction =>
    change ∃ e, s.Commits e .transaction s.transact.1 s.transact.2
    unfold transact
    split
    · next ht => exact ⟨_, .transaction ht⟩
    · exact ⟨_, .refuse⟩
  | statement => exact ⟨_, .statement true⟩
  | link key cid =>
    change ∃ e, s.Commits e (.link key cid) (s.link key cid).1 (s.link key cid).2
    unfold link
    split
    · next taken file ht hu hf => exact ⟨_, .link ht hu hf⟩
    · next hf => exact ⟨_, .alreadyExists (by simp [hf])⟩
    · exact ⟨_, .unlinked⟩
  | openFile cid =>
    change ∃ e, s.Commits e (.openFile cid) (s.openFile cid).1 (s.openFile cid).2
    unfold openFile
    split
    · next ht hf => exact ⟨_, .openFile ht hf⟩
    · exact ⟨_, .unopened⟩
  | setModified file => exact ⟨_, .setModified file 0⟩
  | commit tables =>
    change ∃ e, s.Commits e (.commit tables) (s.commit tables).1 (s.commit tables).2
    unfold commit
    split
    · next ht => exact ⟨_, .commit tables ht⟩
    · exact ⟨_, .uncommitted tables⟩
  | rollback => exact ⟨_, .rollback⟩
  | delete cid => exact ⟨_, .delete cid⟩

end Manapds
