import Manapds.Repo.Going
import Manapds.Repo.Publish
import Manapds.Store.Landing
import Manapds.Store.Registration

/-!
# Taking a signup back out

A signup writes its account's key, operation and database on a blocking thread, then its rows on
another, and is undone from the moment it knows its identifier to the moment it tells the directory.
Undoing is what happens on the way out: as the call returns an error or is dropped, on whatever
thread that is, while what a blocking thread was given runs on.

A new identifier is the hash of an operation that names a new key. Nothing is there under it before.
-/

namespace Manapds

variable {Cid : Type}

/-- An account's directory. -/
structure ActorDirectory (Cid : Type) where
  key : Option Bytes
  didOp : Option Bytes
  store : Option (ActorState Cid)

/-- The reserved key and the directory of one account, as far as there are any. -/
structure SignupFiles (Cid : Type) where
  reservedKey : Option Bytes
  actor : Option (ActorDirectory Cid)

/-- What a signup leaves, in the order in which undoing it takes it out. -/
inductive Part where
  | rows
  | reservedKey
  | directory
deriving DecidableEq

inductive FileOp (Cid : Type) where
  | writeReserved (key : Bytes)
  | makeDirectory
  | writeKey (key : Bytes)
  | writeOp (encoded : Bytes)
  | openStore
  | commit (revision : Revision Cid)

/-- The account's key, the operation its identifier comes from, and its first commit. -/
def startRepo (key encoded : Bytes) (revision : Revision Cid) : List (FileOp Cid) :=
  [.writeReserved key, .makeDirectory, .writeKey key, .writeOp encoded, .makeDirectory, .openStore,
    .commit revision]

namespace FileOp

def makes : FileOp Cid → Option Part
  | .writeReserved _ => some .reservedKey
  | .makeDirectory => some .directory
  | _ => none

/-- What an operation makes of the files, unless it fails. -/
def run [DecidableEq Cid] (did : Did) (files : SignupFiles Cid) :
    FileOp Cid → Option (SignupFiles Cid)
  | .writeReserved key =>
    if files.reservedKey.isSome then none else some { files with reservedKey := some key }
  | .makeDirectory => some { files with actor := some (files.actor.getD ⟨none, none, none⟩) }
  | .writeKey key => files.actor.bind fun directory =>
    if directory.key.isSome then none
    else some { files with actor := some { directory with key := some key } }
  | .writeOp encoded => files.actor.map fun directory =>
    { files with actor := some { directory with didOp := some encoded } }
  | .openStore => files.actor.map fun directory =>
    { files with
      actor := some { directory with
        store := some (directory.store.getD ⟨Tables.empty, ⟨[], []⟩⟩) } }
  | .commit revision =>
    match files.actor with
    -- The database is unlinked by now, and what is written to it is gone with it.
    | none => some files
    | some directory => directory.store.bind fun actor =>
      match actor.commit did revision with
      | (.ok (some _), actor) =>
        some { files with actor := some { directory with store := some actor } }
      | _ => none

end FileOp

inductive SignupStage where
  | startingRepo
  | hashing
  | registering
  | sending
  | ended
deriving DecidableEq

/-- A signup, what its blocking threads have left to do and what is left of undoing it. -/
structure Signup (Cid : Type) where
  tables : AccountTables Cid
  files : SignupFiles Cid
  stage : SignupStage
  starting : List (FileOp Cid)
  registering : Option (Registration Cid)
  undo : List Part

namespace Signup

/-- One step of `discard`. -/
def discard (did : Did) (s : Signup Cid) (undo : List Part) : Part → Signup Cid
  | .rows => { s with tables := s.tables.delete did, undo }
  | .reservedKey => { s with files := { s.files with reservedKey := none }, undo }
  | .directory => { s with files := { s.files with actor := none }, undo }

/-- A signup that is undone from here on. -/
def armed (tables : AccountTables Cid) (key encoded : Bytes) (revision : Revision Cid) : Signup Cid :=
  ⟨tables, ⟨none, none⟩, .startingRepo, startRepo key encoded revision, none,
    [.rows, .reservedKey, .directory]⟩

/-- One step, and what of a signup it leaves if anything. -/
inductive Step [DecidableEq Cid] (did : Did) (s : Signup Cid) : Option Part → Signup Cid → Prop where
  | work {op : FileOp Cid} {rest : List (FileOp Cid)} {files : SignupFiles Cid}
      (next : s.starting = op :: rest) (runs : op.run did s.files = some files) :
      Step did s op.makes { s with files, starting := rest }
  /-- `start_repo` fails, whoever is told. -/
  | refuse {op : FileOp Cid} {rest : List (FileOp Cid)} (next : s.starting = op :: rest) :
      Step did s none { s with starting := [], stage := .ended }
  | started (at_ : s.stage = .startingRepo) (done : s.starting = []) :
      Step did s none { s with stage := .hashing }
  | hashed {registration : Registration Cid} (at_ : s.stage = .hashing)
      (of : registration.did = did) :
      Step did s none { s with stage := .registering, registering := some registration }
  | register {registration : Registration Cid} {now : Timestamp} {tables : AccountTables Cid}
      (next : s.registering = some registration)
      (creates : s.tables.create registration now = .ok tables) :
      Step did s (some .rows) { s with tables, registering := none }
  | decline {registration : Registration Cid} {now : Timestamp} {e : RegistrationError}
      (next : s.registering = some registration)
      (refuses : s.tables.create registration now = .error e) :
      Step did s none { s with registering := none, stage := .ended }
  | settled (at_ : s.stage = .registering) (done : s.registering = none) :
      Step did s none { s with stage := .sending }
  | drop (early : s.stage ≠ .sending) : Step did s none { s with stage := .ended }
  | discard {part : Part} {undo : List Part} (at_ : s.stage = .ended) (next : s.undo = part :: undo) :
      Step did s none (s.discard did undo part)
  /-- What goes on for other accounts. -/
  | others {tables : AccountTables Cid} (same : tables.of did = s.tables.of did) :
      Step did s none { s with tables }

/-- What has been left after it was taken out, with one step more. -/
def late (s : Signup Cid) (late : List Part) : Option Part → List Part
  | none => late
  | some part => if part ∈ s.undo then late else part :: late

/-- Any order of steps, with what a step has left after undoing took it out. -/
inductive Reachable [DecidableEq Cid] (did : Did) : Signup Cid → List Part → Prop where
  | armed {tables : AccountTables Cid} {key encoded : Bytes} {revision : Revision Cid} :
      tables.of did = .empty → Reachable did (armed tables key encoded revision) []
  | step {s s' : Signup Cid} {late : List Part} {makes : Option Part} : Reachable did s late →
      Step did s makes s' → Reachable did s' (s.late late makes)

/-- The call is over before it has told the directory, and everything it started has ended. -/
structure Finished (s : Signup Cid) : Prop where
  ended : s.stage = .ended
  starting : s.starting = []
  registering : s.registering = none
  undo : s.undo = []

/-- Whether something of an account is there. -/
def Holds (did : Did) (s : Signup Cid) : Part → Prop
  | .rows => s.tables.of did ≠ .empty
  | .reservedKey => s.files.reservedKey ≠ none
  | .directory => s.files.actor ≠ none

/-- Nothing is left of it. -/
def Gone (did : Did) (s : Signup Cid) : Prop := ∀ part, ¬s.Holds did part

/-! ## What is left -/

section

variable [DecidableEq Cid] {did : Did} {s s' : Signup Cid} {late : List Part}

/-- What an operation makes is there after it, and the rest is there if it was before. -/
theorem ne_none_run {op : FileOp Cid} {files files' : SignupFiles Cid}
    (h : op.run did files = some files') :
    (files'.reservedKey ≠ none ↔ files.reservedKey ≠ none ∨ op.makes = some .reservedKey) ∧
    (files'.actor ≠ none ↔ files.actor ≠ none ∨ op.makes = some .directory) := by
  cases op with
  | writeReserved key =>
    unfold FileOp.run at h
    split_ifs at h
    cases h
    simp [FileOp.makes]
  | makeDirectory =>
    cases h
    simp [FileOp.makes]
  | writeKey key =>
    obtain ⟨directory, hactor, h⟩ := Option.bind_eq_some_iff.mp h
    split_ifs at h
    cases h
    simp [FileOp.makes, hactor]
  | writeOp encoded =>
    obtain ⟨directory, hactor, rfl⟩ := Option.map_eq_some_iff.mp h
    simp [FileOp.makes, hactor]
  | openStore =>
    obtain ⟨directory, hactor, rfl⟩ := Option.map_eq_some_iff.mp h
    simp [FileOp.makes, hactor]
  | commit revision =>
    unfold FileOp.run at h
    cases hactor : files.actor with
    | none =>
      simp only [hactor] at h
      cases h
      simp [FileOp.makes, hactor]
    | some directory =>
      simp only [hactor] at h
      obtain ⟨actor, -, h⟩ := Option.bind_eq_some_iff.mp h
      split at h
      · cases h
        simp [FileOp.makes]
      · cases h

/-- What holds between two steps: what has been taken out is there again if something was left
after that. -/
structure Sound (did : Did) (s : Signup Cid) (late : List Part) : Prop where
  apart : s.tables.Apart did
  of : ∀ registration, s.registering = some registration → registration.did = did
  distinct : s.undo.Nodup
  early : ∀ part ∈ s.undo, part ∉ late
  left : ∀ part, part ∉ s.undo → (s.Holds did part ↔ part ∈ late)

namespace Sound

omit [DecidableEq Cid] in
/-- Undoing does not go on, and what is there is what was there and what the step makes. -/
theorem make (h : s.Sound did late) {makes : Option Part} (hundo : s'.undo = s.undo)
    (hapart : s'.tables.Apart did)
    (hof : ∀ registration, s'.registering = some registration → registration.did = did)
    (hholds : ∀ part, s'.Holds did part ↔ s.Holds did part ∨ makes = some part) :
    s'.Sound did (s.late late makes) := by
  refine ⟨hapart, hof, hundo ▸ h.distinct, ?_, ?_⟩
  · intro part hpart
    rw [hundo] at hpart
    cases makes with
    | none => exact h.early part hpart
    | some made =>
      unfold Signup.late
      dsimp only
      split_ifs with hmade
      · exact h.early part hpart
      · intro hmem
        rcases List.mem_cons.mp hmem with rfl | hmem
        · exact hmade hpart
        · exact h.early part hpart hmem
  · intro part hpart
    rw [hundo] at hpart
    rw [hholds, h.left part hpart]
    cases makes with
    | none => simp [Signup.late]
    | some made =>
      unfold Signup.late
      dsimp only
      split_ifs with hmade
      · constructor
        · rintro (hmem | hmade')
          · exact hmem
          · obtain rfl := Option.some.inj hmade'
            exact absurd hmade hpart
        · exact Or.inl
      · rw [List.mem_cons, Option.some.injEq, or_comm, eq_comm]

omit [DecidableEq Cid] in
/-- Nothing changes but how far the signup is. -/
theorem keep (h : s.Sound did late) (hundo : s'.undo = s.undo)
    (hof : ∀ registration, s'.registering = some registration → registration.did = did)
    (hfiles : s'.files = s.files) (hrows : s'.tables.of did = s.tables.of did) :
    s'.Sound did (s.late late none) := by
  apply h.make hundo (h.apart.of_eq hrows) hof
  intro part
  cases part with
  | rows => simp [Holds, hrows]
  | reservedKey => simp [Holds, hfiles]
  | directory => simp [Holds, hfiles]

omit [DecidableEq Cid] in
theorem discard (h : s.Sound did late) {part : Part} {undo : List Part}
    (hn : s.undo = part :: undo) : (s.discard did undo part).Sound did late := by
  have hnodup := h.distinct
  rw [hn, List.nodup_cons] at hnodup
  have hgone : ¬(s.discard did undo part).Holds did part := by
    cases part with
    | rows => simp [Signup.discard, Holds, AccountTables.of_delete h.apart]
    | reservedKey => simp [Signup.discard, Holds]
    | directory => simp [Signup.discard, Holds]
  have hundo : (s.discard did undo part).undo = undo := by cases part <;> rfl
  have hothers : ∀ other, other ≠ part →
      ((s.discard did undo part).Holds did other ↔ s.Holds did other) := by
    intro other hne
    cases part <;> cases other <;> first | rfl | exact absurd rfl hne
  refine ⟨?_, ?_, ?_, ?_, ?_⟩
  · cases part with
    | rows => exact .of_empty (AccountTables.of_delete h.apart)
    | reservedKey => exact h.apart
    | directory => exact h.apart
  · cases part <;> exact h.of
  · rw [hundo]
    exact hnodup.2
  · intro other hother
    rw [hundo] at hother
    apply h.early
    rw [hn]
    exact List.mem_cons_of_mem _ hother
  · intro other hother
    rw [hundo] at hother
    by_cases he : other = part
    · subst he
      refine ⟨fun hholds => absurd hholds hgone, fun hlate => absurd hlate ?_⟩
      apply h.early
      rw [hn]
      exact List.mem_cons_self
    · rw [hothers other he]
      apply h.left
      rw [hn]
      exact fun hmem => (List.mem_cons.mp hmem).elim he hother

theorem step {makes : Option Part} (h : s.Sound did late) (hs : Step did s makes s') :
    s'.Sound did (s.late late makes) := by
  cases hs with
  | work next runs =>
    obtain ⟨hreserved, hdirectory⟩ := ne_none_run runs
    refine h.make ?_ h.apart h.of ?_
    · rfl
    intro part
    cases part with
    | rows =>
      refine ⟨Or.inl, fun hor => hor.resolve_right ?_⟩
      rename_i op _ _
      cases op <;> simp [FileOp.makes]
    | reservedKey => exact hreserved
    | directory => exact hdirectory
  | refuse | started | settled | drop => exact h.keep rfl h.of rfl rfl
  | hashed at_ of =>
    refine h.keep rfl ?_ rfl rfl
    intro registration hr
    cases hr
    exact of
  | register next creates =>
    obtain ⟨⟨row, hrow, hdid⟩, hinvite, hother⟩ := AccountTables.create_eq_ok creates
    refine h.make ?_ (h.apart.congr hinvite hother) ?_ ?_
    · rfl
    · intro registration hr
      cases hr
    · intro part
      cases part with
      | rows =>
        refine ⟨fun _ => Or.inr rfl, fun _ hempty => ?_⟩
        rw [h.of _ next] at hdid
        have hmem : row ∈ (AccountTables.of _ did).actor :=
          List.mem_filter.mpr ⟨hrow, decide_eq_true hdid⟩
        rw [hempty] at hmem
        exact List.not_mem_nil hmem
      | reservedKey => simp [Holds]
      | directory => simp [Holds]
  | decline =>
    refine h.keep rfl ?_ rfl rfl
    intro registration hr
    cases hr
  | discard at_ next => exact h.discard next
  | others same => exact h.keep rfl h.of rfl same

end Sound

theorem Reachable.sound (h : Reachable did s late) : s.Sound did late := by
  induction h with
  | armed hfresh =>
    refine ⟨.of_empty hfresh, ?_, ?_, ?_, ?_⟩
    · intro registration hr
      cases hr
    · simp [Signup.armed]
    · exact fun _ _ => List.not_mem_nil
    · intro part hpart
      cases part <;> simp [Signup.armed] at hpart
  | step _ hs ih => exact ih.step hs

omit [DecidableEq Cid] in
theorem Sound.gone_iff (h : s.Sound did late) (hf : s.Finished) : s.Gone did ↔ late = [] := by
  have hleft := h.left
  rw [hf.undo] at hleft
  rw [List.eq_nil_iff_forall_not_mem]
  exact forall_congr' fun part => not_congr (hleft part List.not_mem_nil)

/-- A signup that is abandoned leaves nothing behind if and only if nothing of it was made after
undoing took it out. -/
theorem signup_gone_iff (h : Reachable did s late) (hf : s.Finished) : s.Gone did ↔ late = [] :=
  h.sound.gone_iff hf

/-! ## Without a drop -/

/-- The call is dropped with a blocking thread at work for it. -/
def Cut (s s' : Signup Cid) : Prop :=
  (s.starting ≠ [] ∨ s.registering ≠ none) ∧ s' = { s with stage := .ended }

/-- Any order of steps in which that does not happen. -/
inductive Attended [DecidableEq Cid] (did : Did) : Signup Cid → List Part → Prop where
  | armed {tables : AccountTables Cid} {key encoded : Bytes} {revision : Revision Cid} :
      tables.of did = .empty → Attended did (armed tables key encoded revision) []
  | step {s s' : Signup Cid} {late : List Part} {makes : Option Part} : Attended did s late →
      Step did s makes s' → ¬s.Cut s' → Attended did s' (s.late late makes)

theorem Attended.reachable (h : Attended did s late) : Reachable did s late := by
  induction h with
  | armed hfresh => exact .armed hfresh
  | step _ hs _ ih => exact ih.step hs

/-- Undoing begins when no blocking thread has anything left to do. -/
structure Orderly (s : Signup Cid) (late : List Part) : Prop where
  starting : s.stage ≠ .startingRepo → s.starting = []
  registering : s.registering ≠ none → s.stage = .registering
  undo : s.stage ≠ .ended → s.undo = [.rows, .reservedKey, .directory]
  late : late = []

omit [DecidableEq Cid] in
/-- What is made while nothing has been taken out is not left behind. -/
theorem Orderly.late_eq (h : s.Orderly late) (hstage : s.stage ≠ .ended) (makes : Option Part) :
    s.late late makes = [] := by
  cases makes with
  | none => exact h.late
  | some part =>
    have hmem : part ∈ s.undo := by
      rw [h.undo hstage]
      cases part <;> simp
    exact (if_pos hmem).trans h.late

theorem Orderly.step {makes : Option Part} (h : s.Orderly late) (hs : Step did s makes s')
    (hcut : ¬s.Cut s') : s'.Orderly (s.late late makes) := by
  cases hs with
  | work next runs =>
    have hstage : s.stage = .startingRepo := by
      by_contra hne
      rw [h.starting hne] at next
      cases next
    have hearly : s.stage ≠ .ended := by simp [hstage]
    exact ⟨fun hne => absurd hstage hne, h.registering, h.undo, h.late_eq hearly _⟩
  | refuse next =>
    refine ⟨fun _ => rfl, fun hne => ?_, fun hne => absurd rfl hne, h.late⟩
    have hstage : s.stage ≠ .startingRepo := by simp [h.registering hne]
    rw [h.starting hstage] at next
    cases next
  | started at_ done =>
    refine ⟨fun _ => done, fun hne => ?_, fun _ => h.undo (by simp [at_]), h.late⟩
    rw [h.registering hne] at at_
    cases at_
  | hashed at_ =>
    exact ⟨fun _ => h.starting (by simp [at_]), fun _ => rfl, fun _ => h.undo (by simp [at_]), h.late⟩
  | register next =>
    have hstage : s.stage = .registering := h.registering (by simp [next])
    exact ⟨h.starting, fun hne => absurd rfl hne, h.undo, h.late_eq (by simp [hstage]) _⟩
  | decline next =>
    have hstage : s.stage = .registering := h.registering (by simp [next])
    exact ⟨fun _ => h.starting (by simp [hstage]), fun hne => absurd rfl hne,
      fun hne => absurd rfl hne, h.late⟩
  | settled at_ done =>
    exact ⟨fun _ => h.starting (by simp [at_]), fun hne => absurd done hne,
      fun _ => h.undo (by simp [at_]), h.late⟩
  | drop =>
    -- Nothing is on a blocking thread, or this would be such a drop.
    obtain ⟨hstarting, hregistering⟩ := not_or.mp fun hbusy => hcut ⟨hbusy, rfl⟩
    exact ⟨fun _ => not_not.mp hstarting, fun hne => absurd hne hregistering,
      fun hne => absurd rfl hne, h.late⟩
  | discard at_ next =>
    rename_i part undo
    cases part with
    | rows | reservedKey | directory =>
      exact ⟨h.starting, h.registering, fun hne => absurd at_ hne, h.late⟩
  | others => exact ⟨h.starting, h.registering, h.undo, h.late⟩

theorem Attended.orderly (h : Attended did s late) : s.Orderly late := by
  induction h with
  | armed => exact ⟨fun hne => absurd rfl hne, fun hne => absurd rfl hne, fun _ => rfl, rfl⟩
  | step _ hs hcut ih => exact ih.step hs hcut

/-- A signup that is not dropped while a blocking thread is at work for it leaves nothing behind. -/
theorem Attended.gone (h : Attended did s late) (hf : s.Finished) : s.Gone did :=
  (h.reachable.sound.gone_iff hf).mpr h.orderly.late

end

section

open DagCbor

theorem signupHandle_valid : Handle.validate (text "alice.test") = .ok () := by decide

def signupHandle : Handle := ⟨text "alice.test", signupHandle_valid⟩

/-- A signup whose files are all written. -/
theorem exists_started : ∃ files : SignupFiles RawCid,
    Reachable recordDid
      ⟨.empty, files, .startingRepo, [], none, [.rows, .reservedKey, .directory]⟩ [] := by
  obtain ⟨repo, blocks, -, -⟩ := exists_create RawCid recordDid blankKey 1 ⟨0, 0⟩
  obtain ⟨committed, actor, hcommit⟩ := ActorState.commit_goes recordDid
    ⟨Tables.empty, ⟨[], []⟩⟩ ⟨none, ⟨repo.cid, repo.rev⟩, blocks, [], []⟩ (fun _ hm => nomatch hm) rfl
  have harmed : Reachable recordDid
      (armed .empty [1] [2] ⟨none, ⟨repo.cid, repo.rev⟩, blocks, [], []⟩) [] := .armed rfl
  have h1 := harmed.step (.work rfl rfl)
  have h2 := h1.step (.work rfl rfl)
  have h3 := h2.step (.work rfl rfl)
  have h4 := h3.step (.work rfl rfl)
  have h5 := h4.step (.work rfl rfl)
  have h6 := h5.step (.work rfl rfl)
  have hruns : (FileOp.commit ⟨none, ⟨repo.cid, repo.rev⟩, blocks, [], []⟩).run recordDid
      ⟨some [1], some ⟨some [1], some [2], some ⟨Tables.empty, ⟨[], []⟩⟩⟩⟩ =
      some ⟨some [1], some ⟨some [1], some [2], some actor⟩⟩ := by
    simp only [FileOp.run, Option.bind_some, hcommit]
  have h7 := h6.step (.work rfl hruns)
  exact ⟨_, h7⟩

/-- A signup dropped while its rows are waiting to be written: undoing it finds none, and they are
written after that. -/
theorem not_signup_gone : ∃ (s : Signup RawCid) (late : List Part), Reachable recordDid s late ∧
    s.Finished ∧ (∃ row ∈ s.tables.actor, row.did = recordDid ∧ row.handle = some signupHandle.str) ∧
    ¬s.Gone recordDid := by
  obtain ⟨files, hs⟩ := exists_started
  obtain ⟨repo, -, -, -⟩ := exists_create RawCid recordDid blankKey 1 ⟨0, 0⟩
  obtain ⟨registration, hdid, hcreates⟩ : ∃ registration : Registration RawCid,
      registration.did = recordDid ∧
      ∃ tables, (AccountTables.empty.delete recordDid).create registration 0 = .ok tables ∧
        tables.actor = [⟨recordDid, some signupHandle.str, stamp 0, none⟩] :=
    ⟨⟨recordDid, some signupHandle, text "alice@host.test", [], ⟨repo.cid, repo.rev⟩, none, none⟩, rfl,
      _, rfl, rfl⟩
  obtain ⟨tables, hcreate, hactor⟩ := hcreates
  have hhashing := hs.step (.started rfl rfl)
  have hwaiting := hhashing.step (.hashed rfl hdid)
  have hdropped := hwaiting.step (.drop (by simp))
  have hrows := hdropped.step (.discard rfl rfl)
  have hkey := hrows.step (.discard rfl rfl)
  have hdirectory := hkey.step (.discard rfl rfl)
  have hcreated := hdirectory.step (.register rfl hcreate)
  refine ⟨_, _, hcreated, ⟨rfl, rfl, rfl, rfl⟩,
    ⟨⟨recordDid, some signupHandle.str, stamp 0, none⟩, ?_, rfl, rfl⟩, ?_⟩
  · exact hactor ▸ List.mem_singleton_self _
  · intro hgone
    have hlate := (hcreated.sound.left .rows List.not_mem_nil).mpr List.mem_cons_self
    exact hgone .rows hlate

/-- A signup dropped once its files are written. -/
theorem signup_gone_iff_dropped : ∃ s : Signup RawCid, s.Finished ∧ s.Gone recordDid := by
  obtain ⟨files, hs⟩ := exists_started
  have hdropped := hs.step (.drop (by simp))
  have hrows := hdropped.step (.discard rfl rfl)
  have hkey := hrows.step (.discard rfl rfl)
  have hdirectory := hkey.step (.discard rfl rfl)
  refine ⟨_, ?_, (signup_gone_iff hdirectory ?_).mpr rfl⟩
  · exact ⟨rfl, rfl, rfl, rfl⟩
  · exact ⟨rfl, rfl, rfl, rfl⟩

end

end Signup

end Manapds
