import Manapds.Account.Revision

/-!
# One account's database under any number of writers

Writers are programs in flight: each step puts one question of one of them to the tables as they
are at that moment, or lands its revision. Uploads and sweeps come and go between. What a writer
has read is read of one revision as long as the root is the one it started from, and no root comes
back once it has been left behind, so a revision that lands was worked out on the one before it.
-/

namespace Manapds

open KeyedList Shape QueryProgram Routine

variable {Cid : Type}

/-- What a whole write comes to. -/
abbrev Outcome (Cid : Type) := Except (AccountError Cid) (Option (Landed Cid))

/-- A write in flight: what was asked, and what is left of the program carrying it out. -/
structure Writer (Cid : Type) where
  job : Job Cid
  rest : Writes Cid (Outcome Cid)

/-- A revision that landed: what was asked, what landed and what its writer did with that, and the
tables on either side. -/
structure Moved (Cid : Type) where
  job : Job Cid
  revision : Revision Cid
  outcome : Writes Cid (Outcome Cid)
  before : Tables Cid
  after : Tables Cid

/-- The database, the writers on it and the revisions that have landed, the last one first. -/
structure World (Cid : Type) where
  actor : ActorState Cid
  writers : ℕ → Option (Writer Cid)
  moved : List (Moved Cid)

/-- The same tables but for the rows of `blob`. -/
structure Tables.Same (tables tables' : Tables Cid) : Prop where
  repoRoot : tables'.repoRoot = tables.repoRoot
  repoBlock : tables'.repoBlock = tables.repoBlock
  record : tables'.record = tables.record
  backlink : tables'.backlink = tables.backlink
  recordBlob : tables'.recordBlob = tables.recordBlob

/-- The database of an account whose repository has just been founded. -/
inductive Founded [Codec Cid] [DecidableEq Cid] (did : Did) : ActorState Cid → Prop where
  | mk {keypair : Keypair} {now : ℕ} {clock clock' : TidClock} {repo : Repo Cid}
      {blocks : BlockMap Cid} {files : BlobFiles Cid} {committed : Committed Cid}
      {actor : ActorState Cid} :
      Repo.create did keypair now clock = (.ok (repo, blocks), clock') →
      (⟨Tables.empty, files⟩ : ActorState Cid).commit did
        ⟨none, ⟨repo.cid, repo.rev⟩, blocks, [], []⟩ = (.ok (some committed), actor) →
      Founded did actor

namespace World

/-- The tables the first revision that landed was worked out on, if any has. -/
def opened (w : World Cid) : Tables Cid := (w.moved.getLast?.map Moved.before).getD w.actor.tables

variable [Codec Cid] [DecidableEq Cid] [CidText Cid]

/-- One writer goes on with what is left of its program. -/
def resume (w : World Cid) (i : ℕ) (job : Job Cid) (rest : Writes Cid (Outcome Cid)) : World Cid :=
  { w with writers := Function.update w.writers i (some ⟨job, rest⟩) }

/-- One step, and which writer takes it if one does. -/
inductive Step (did : Did) : Option ℕ → World Cid → World Cid → Prop where
  | start {w : World Cid} {i : ℕ} {job : Job Cid} : w.writers i = none → job.did = did →
      Step did (some i) w (w.resume i job (commitWrites job))
  | root {w : World Cid} {i : ℕ} {job : Job Cid} {next : Option (Root Cid) → Writes Cid (Outcome Cid)} :
      w.writers i = some ⟨job, .ask .root next⟩ →
      Step did (some i) w (w.resume i job (next w.actor.tables.repoRoot))
  | read {w : World Cid} {i : ℕ} {job : Job Cid} {q : ReadQuery Cid}
      {next : q.Answer → Writes Cid (Outcome Cid)} (x : q.Answer) :
      w.writers i = some ⟨job, .ask (.read q) next⟩ → w.actor.tables.Answers q x →
      Step did (some i) w (w.resume i job (next x))
  | landed {w : World Cid} {i : ℕ} {job : Job Cid} {revision : Revision Cid}
      {next : Except (StoreError Cid) (Option (Committed Cid)) → Writes Cid (Outcome Cid)}
      {committed : Committed Cid} {actor : ActorState Cid} :
      w.writers i = some ⟨job, .ask (.commit revision) next⟩ →
      w.actor.commit did revision = (.ok (some committed), actor) →
      Step did (some i) w ⟨actor,
        Function.update w.writers i (some ⟨job, next (.ok (some committed))⟩),
        ⟨job, revision, next (.ok (some committed)), w.actor.tables, actor.tables⟩ :: w.moved⟩
  | lost {w : World Cid} {i : ℕ} {job : Job Cid} {revision : Revision Cid}
      {next : Except (StoreError Cid) (Option (Committed Cid)) → Writes Cid (Outcome Cid)}
      {answer : Except (StoreError Cid) (Option (Committed Cid))} {actor : ActorState Cid} :
      w.writers i = some ⟨job, .ask (.commit revision) next⟩ →
      w.actor.commit did revision = (answer, actor) → (∀ committed, answer ≠ .ok (some committed)) →
      Step did (some i) w { w.resume i job (next answer) with actor }
  /-- A transaction the database would not carry out. -/
  | fault {w : World Cid} {i : ℕ} {job : Job Cid} {revision : Revision Cid}
      {next : Except (StoreError Cid) (Option (Committed Cid)) → Writes Cid (Outcome Cid)}
      (e : StoreError Cid) : w.writers i = some ⟨job, .ask (.commit revision) next⟩ →
      Step did (some i) w (w.resume i job (next (.error e)))
  | leave {w : World Cid} {i : ℕ} :
      Step did (some i) w { w with writers := Function.update w.writers i none }
  | addBlob {w : World Cid} (blob : Blob Cid) (key : Str) (now : Timestamp) : Step did none w
      { w with actor := { w.actor with tables := w.actor.tables.addBlob blob key now } }
  | takeStale {w : World Cid} (found : Cid × Str) : Step did none w
      { w with actor := { w.actor with tables := w.actor.tables.takeStale found } }
  | disk {w : World Cid} (files : BlobFiles Cid) : Step did none w
      { w with actor := { w.actor with files } }

/-- The database of an account from the founding of its repository on. -/
inductive Reachable (did : Did) : World Cid → Prop where
  | founded {actor : ActorState Cid} : Founded did actor → Reachable did ⟨actor, fun _ => none, []⟩
  | step {who : Option ℕ} {w w' : World Cid} : Reachable did w → Step did who w w' →
      Reachable did w'

end World

/-! ## What a writer has in hand -/

theorem Tables.Same.refl (tables : Tables Cid) : tables.Same tables := ⟨rfl, rfl, rfl, rfl, rfl⟩

theorem Tables.Same.trans {a b c : Tables Cid} (h : a.Same b) (h' : b.Same c) : a.Same c :=
  ⟨h'.repoRoot.trans h.repoRoot, h'.repoBlock.trans h.repoBlock, h'.record.trans h.record,
    h'.backlink.trans h.backlink, h'.recordBlob.trans h.recordBlob⟩

theorem Tables.Same.of_eq {a b : Tables Cid} (h : b = a) : a.Same b := by
  rw [h]
  exact Tables.Same.refl a

theorem Tables.Same.answers [DecidableEq Cid] {tables tables' : Tables Cid} (h : tables.Same tables') :
    tables'.Answers = tables.Answers := by
  have hstored : tables'.stored = tables.stored := by
    funext cid
    unfold Tables.stored
    rw [h.repoBlock]
  have hpointing : tables'.pointingAt = tables.pointingAt := by
    funext collection link
    unfold Tables.pointingAt
    rw [h.record, h.backlink]
  funext q x
  cases q with
  | block q => simp only [Tables.Answers, hstored]
  | pointingAt collection link => simp only [Tables.Answers, hpointing]
  | clock => rfl

section

variable [Codec Cid]

/-- A commit this revision follows or is. -/
def Repo.Follows (repo : Repo Cid) (cid : Cid) : Prop :=
  ∃ commit : Commit Cid, commit.IsAt cid ∧ ¬repo.rev < commit.rev

theorem Repo.At.follows {st : Cid → Option Bytes} {ℓ : ℕ} {xs : List (Leaf Cid)} {repo : Repo Cid}
    (h : repo.At st ℓ xs) : repo.Follows repo.cid :=
  ⟨repo.commit, h.commit, lt_irrefl repo.rev.str⟩

/-- A commit left behind is left behind for good, and is not the one at hand. -/
theorem Repo.Follows.later [LawfulCodec Cid] {st : Cid → Option Bytes} {ℓ : ℕ} {xs : List (Leaf Cid)}
    {repo next : Repo Cid} {cid : Cid} (h : repo.Follows cid) (hn : next.At st ℓ xs)
    (hr : repo.rev < next.rev) : next.Follows cid ∧ cid ≠ next.cid := by
  obtain ⟨commit, hat, hlt⟩ := h
  have hafter : ¬next.rev < commit.rev := fun hh => hlt (lt_trans hr hh : repo.rev.str < commit.rev.str)
  refine ⟨⟨commit, hat, hafter⟩, ?_⟩
  rintro rfl
  have heq : commit = next.commit := hat.inj hn.commit
  exact hlt (heq ▸ hr)

variable [DecidableEq Cid] [CidText Cid]

namespace Job

variable {again : Writes Cid (Outcome Cid)} {rest : Program (ReadQuery Cid) ReadQuery.Answer
  (Except (AccountError Cid) (Option (Worked Cid)) × Unit)}

omit [Codec Cid] [DecidableEq Cid] [CidText Cid] in
/-- An attempt has the root it started from and asks for none. -/
theorem underway_ne_root {next : Option (Root Cid) → Writes Cid (Outcome Cid)} :
    .ask .root next ≠ Job.underway again rest := by
  intro h
  cases rest with
  | done r =>
    rcases r with ⟨e | worked, u⟩
    · cases h
    · cases worked <;> cases h
  | ask q next' => cases h

omit [Codec Cid] [DecidableEq Cid] [CidText Cid] in
/-- An attempt that reads has not come to its end. -/
theorem underway_eq_read {q : ReadQuery Cid} {next : q.Answer → Writes Cid (Outcome Cid)}
    (h : .ask (.read q) next = Job.underway again rest) :
    ∃ next', rest = .ask q next' ∧ ∀ x, next x = Job.underway again (next' x) := by
  cases rest with
  | done r =>
    rcases r with ⟨e | worked, u⟩
    · cases h
    · cases worked <;> cases h
  | ask q' next' =>
    cases h
    exact ⟨next', rfl, fun _ => rfl⟩

omit [Codec Cid] [DecidableEq Cid] [CidText Cid] in
/-- What is landed is what an attempt has come to. -/
theorem underway_eq_commit {revision : Revision Cid}
    {next : Except (StoreError Cid) (Option (Committed Cid)) → Writes Cid (Outcome Cid)}
    (h : .ask (.commit revision) next = Job.underway again rest) :
    ∃ worked : Worked Cid, rest = .done (.ok (some worked), ()) ∧ revision = worked.revision ∧
      (∀ e, next (.error e) = .done (.error (.store e))) ∧ next (.ok none) = again ∧
      ∀ committed, next (.ok (some committed)) = .done (.ok (some (worked.landed committed))) := by
  cases rest with
  | done r =>
    rcases r with ⟨e | worked, u⟩
    · cases h
    · cases worked with
      | none => cases h
      | some worked =>
        cases h
        exact ⟨worked, rfl, rfl, fun _ => rfl, rfl, fun _ => rfl⟩
  | ask q next' => cases h

end Job

/-- A writer between two steps: about to start over, part of the way through an attempt, or done.
Whatever an attempt can still come to, it can come to alone on the revision it started from, while
that is the one in the tables. -/
inductive InFlight (tables : Tables Cid) (repo : Repo Cid) (job : Job Cid) :
    Writes Cid (Outcome Cid) → Prop where
  | fresh (n : ℕ) : InFlight tables repo job (job.attempts n)
  | reading (n : ℕ) {start : Root Cid} {rest : Program (ReadQuery Cid) ReadQuery.Answer
      (Except (AccountError Cid) (Option (Worked Cid)) × Unit)} : repo.Follows start.cid →
      (∀ r, rest.Yields (fun _ _ => True) r → (job.attempt start ()).Yields (fun _ _ => True) r) →
      (start.cid = repo.cid →
        ∀ r, rest.Yields tables.Answers r → (job.attempt start ()).Yields tables.Answers r) →
      InFlight tables repo job (Job.underway (job.attempts n) rest)
  | finished (r : Outcome Cid) : InFlight tables repo job (.done r)

namespace InFlight

variable {tables tables' : Tables Cid} {repo repo' : Repo Cid} {job : Job Cid}
  {p : Writes Cid (Outcome Cid)}

theorem same (h : InFlight tables repo job p) (hs : tables.Same tables') :
    InFlight tables' repo job p := by
  cases h with
  | fresh n => exact .fresh n
  | reading n hf hany hnow =>
    apply InFlight.reading n hf hany
    rwa [hs.answers]
  | finished r => exact .finished r

/-- Once another revision has landed, what a writer has read is of a root that does not come back. -/
theorem later [LawfulCodec Cid] {st : Cid → Option Bytes} {ℓ : ℕ} {xs : List (Leaf Cid)}
    (h : InFlight tables repo job p) (hn : repo'.At st ℓ xs) (hr : repo.rev < repo'.rev) :
    InFlight tables' repo' job p := by
  cases h with
  | fresh n => exact .fresh n
  | reading n hf hany hnow =>
    obtain ⟨hf', hne⟩ := hf.later hn hr
    exact .reading n hf' hany fun he => absurd he hne
  | finished r => exact .finished r

/-- A writer that asks for the root starts an attempt on it. -/
theorem root {next : Option (Root Cid) → Writes Cid (Outcome Cid)}
    (h : InFlight tables repo job (.ask .root next)) (hf : ∀ start ∈ tables.repoRoot, repo.Follows start.cid) :
    InFlight tables repo job (next tables.repoRoot) := by
  generalize hp : (Program.ask WriteQuery.root next : Writes Cid (Outcome Cid)) = p at h
  cases h with
  | fresh n =>
    cases n with
    | zero => cases hp
    | succ n =>
      cases hp
      cases hroot : tables.repoRoot with
      | none => exact .finished _
      | some start => exact .reading n (hf start hroot) (fun _ hr => hr) fun _ _ hr => hr
  | reading n hf hany hnow => exact absurd hp Job.underway_ne_root
  | finished r => cases hp

/-- A writer that reads goes on with its attempt. -/
theorem read {q : ReadQuery Cid} {next : q.Answer → Writes Cid (Outcome Cid)} {x : q.Answer}
    (h : InFlight tables repo job (.ask (.read q) next)) (hx : tables.Answers q x) :
    InFlight tables repo job (next x) := by
  generalize hp : (Program.ask (WriteQuery.read q) next : Writes Cid (Outcome Cid)) = p at h
  cases h with
  | fresh n => cases n <;> cases hp
  | reading n hf hany hnow =>
    obtain ⟨next', rfl, hnext⟩ := Job.underway_eq_read hp
    rw [hnext]
    apply InFlight.reading n hf
    · exact fun r hr => hany r ⟨x, trivial, hr⟩
    · exact fun hs r hr => hnow hs r ⟨x, hx, hr⟩
  | finished r => cases hp

/-- A writer that lands something has worked it out in the attempt it has come to the end of. -/
theorem commit {revision : Revision Cid}
    {next : Except (StoreError Cid) (Option (Committed Cid)) → Writes Cid (Outcome Cid)}
    (h : InFlight tables repo job (.ask (.commit revision) next)) :
    ∃ worked : Worked Cid, revision = worked.revision ∧ (∃ start, repo.Follows start.cid ∧
      worked.revision.start = some start ∧ (start.cid = repo.cid →
        (job.attempt start ()).Yields tables.Answers (.ok (some worked), ()))) ∧
      (∀ committed, next (.ok (some committed)) = .done (.ok (some (worked.landed committed)))) ∧
      ∀ answer, (∀ committed, answer ≠ .ok (some committed)) →
        InFlight tables repo job (next answer) := by
  generalize hp : (Program.ask (WriteQuery.commit revision) next : Writes Cid (Outcome Cid)) = p at h
  cases h with
  | fresh n => cases n <;> cases hp
  | @reading n start rest hf hany hnow =>
    obtain ⟨worked, rfl, hrevision, herror, hmoved, hlanded⟩ := Job.underway_eq_commit hp
    refine ⟨worked, hrevision, ⟨start, hf, start_of_attempt (hany _ rfl), fun hs => hnow hs _ rfl⟩,
      hlanded, ?_⟩
    intro answer hn
    rcases answer with e | landed
    · rw [herror]
      exact .finished _
    · cases landed with
      | none =>
        rw [hmoved]
        exact .fresh n
      | some committed => exact absurd rfl (hn committed)
  | finished r => cases hp

end InFlight

/-! ## What holds between two steps -/

/-- A revision that landed was worked out alone on the one before it: its attempt, told nothing but
what the tables before it hold, comes to it. It left what that comes to, the index rows of its plan
and the leaves its writes leave. -/
structure Moved.Lands (did : Did) (m : Moved Cid) (repo : Repo Cid) (ℓ : ℕ) (xs : List (Leaf Cid))
    (worked : Worked Cid) (next : Repo Cid) (ℓ' : ℕ) (xs' : List (Leaf Cid)) : Prop where
  before : m.before.Carries did repo ℓ xs
  alone : ∃ start, start.cid = repo.cid ∧
    (m.job.attempt start ()).Yields m.before.Answers (.ok (some worked), ()) ∧
    m.job.Works m.before ℓ xs repo start (.ok (some worked))
  revision : m.revision = worked.revision
  outcome : ∃ committed, m.outcome = .done (.ok (some (worked.landed committed)))
  root : worked.revision.root = ⟨next.cid, next.rev⟩
  rev : repo.rev < next.rev
  leaves : leavesAfter worked.plan.writes xs = some xs'
  after : m.after.Carries did next ℓ' xs'
  record : m.after.record =
    worked.plan.index.foldl (Indexed.indexRow did next.rev) m.before.record
  backlink : m.after.backlink =
    worked.plan.index.foldl (fun rows record => relinked (record.uri did) record.links rows)
      m.before.backlink
  recordBlob : m.after.recordBlob =
    worked.plan.index.foldl
      (fun rows record => retied (record.uri did) (record.blobs.map Blob.cid) rows)
      m.before.recordBlob

/-- What holds of a world between two steps. -/
structure World.Sound (did : Did) (w : World Cid) : Prop where
  carries : ∃ repo ℓ xs, w.actor.tables.Carries did repo ℓ xs ∧
    ∀ i writer, w.writers i = some writer → InFlight w.actor.tables repo writer.job writer.rest
  lands : ∀ m ∈ w.moved, ∃ repo ℓ xs worked next ℓ' xs',
    m.Lands did repo ℓ xs worked next ℓ' xs'
  chain : w.moved.IsChain fun later earlier => earlier.after.Same later.before
  current : ∀ m ∈ w.moved.head?, m.after.Same w.actor.tables
  founded : ∃ first, Founded did first ∧ first.tables.Same w.opened

namespace World.Sound

variable {did : Did} {w w' : World Cid} {i : ℕ} {job : Job Cid}

/-- Nothing lands, and every writer is somewhere it can be on the same revision. -/
theorem keep (h : w.Sound did) (hm : w'.moved = w.moved) (hs : w.actor.tables.Same w'.actor.tables)
    (ht : w'.actor.tables.Tied [])
    (hw : ∀ repo ℓ xs, w.actor.tables.Carries did repo ℓ xs →
      (∀ i writer, w.writers i = some writer →
        InFlight w.actor.tables repo writer.job writer.rest) →
      ∀ i writer, w'.writers i = some writer →
        InFlight w.actor.tables repo writer.job writer.rest) : w'.Sound did := by
  obtain ⟨⟨repo, ℓ, xs, hc, hwriters⟩, hl, hch, hcur, first, hf, hopened⟩ := h
  refine ⟨⟨repo, ℓ, xs, hc.frame hs.repoRoot hs.repoBlock hs.record hs.backlink hs.recordBlob ht,
    fun i writer hi => ?_⟩, hm ▸ hl, hm ▸ hch, fun m hmem => ?_, first, hf, ?_⟩
  · exact (hw repo ℓ xs hc hwriters i writer hi).same hs
  · rw [hm] at hmem
    exact (hcur m hmem).trans hs
  · unfold World.opened at hopened ⊢
    rw [hm]
    cases hlast : w.moved.getLast? with
    | none =>
      rw [hlast] at hopened
      exact hopened.trans hs
    | some m =>
      rw [hlast] at hopened
      exact hopened

/-- One writer goes on, and the tables stay the same but for the blobs. -/
theorem resume (h : w.Sound did) {rest : Writes Cid (Outcome Cid)} {actor : ActorState Cid}
    (hs : w.actor.tables.Same actor.tables) (ht : actor.tables.Tied [])
    (hr : ∀ repo ℓ xs, w.actor.tables.Carries did repo ℓ xs →
      (∀ writer, w.writers i = some writer →
        InFlight w.actor.tables repo writer.job writer.rest) →
      InFlight w.actor.tables repo job rest) :
    World.Sound did { w.resume i job rest with actor } := by
  refine h.keep ?_ hs ht ?_
  · rfl
  intro repo ℓ xs hc hwriters j writer hj
  by_cases hji : j = i
  · subst hji
    have hw : some (⟨job, rest⟩ : Writer Cid) = some writer := by
      simpa [World.resume] using hj
    cases hw
    exact hr repo ℓ xs hc (hwriters j)
  · apply hwriters j
    simpa [World.resume, hji] using hj

theorem tied (h : w.Sound did) : w.actor.tables.Tied [] := by
  obtain ⟨⟨repo, ℓ, xs, hc, -⟩, -, -, -, -⟩ := h
  exact hc.tied

variable [LawfulCodec Cid]

/-- The database as it is founded. -/
theorem of_founded {actor : ActorState Cid} (h : Founded did actor) :
    World.Sound did ⟨actor, fun _ => none, []⟩ := by
  obtain ⟨hc, hl⟩ := id h
  refine ⟨⟨_, 0, [], Tables.Carries.genesis hc hl, (fun _ _ hw => nomatch hw)⟩,
    (fun _ hm => nomatch hm), List.IsChain.nil, (fun _ hm => nomatch hm), _, h, ?_⟩
  exact Tables.Same.refl _

/-- A revision lands on the one it was worked out on. -/
theorem landed (h : w.Sound did) {revision : Revision Cid}
    {next : Except (StoreError Cid) (Option (Committed Cid)) → Writes Cid (Outcome Cid)}
    {committed : Committed Cid} {actor : ActorState Cid}
    (hi : w.writers i = some ⟨job, .ask (.commit revision) next⟩)
    (hc : w.actor.commit did revision = (.ok (some committed), actor)) :
    World.Sound did ⟨actor, Function.update w.writers i (some ⟨job, next (.ok (some committed))⟩),
      ⟨job, revision, next (.ok (some committed)), w.actor.tables, actor.tables⟩ :: w.moved⟩ := by
  obtain ⟨⟨repo, ℓ, xs, hcar, hwriters⟩, hlands, hchain, hcurrent, first, hfirst, hopened⟩ := h
  obtain ⟨worked, rfl, ⟨start, -, hstart, hnow⟩, houtcome, -⟩ := (hwriters i _ hi).commit
  obtain ⟨s, hs, -, htab, hroot, -⟩ := ActorState.commit_landed hc
  obtain ⟨hrecord, hlink, hrb, -, hkept⟩ := Landing.store_ok hs
  have hcid : start.cid = repo.cid := by
    have hheld : s.tables.repoRoot = some ⟨repo.cid, repo.rev⟩ := hkept.trans hcar.root
    rw [hheld, hstart] at hroot
    exact (Option.some.inj hroot).symm
  have hworks := works_attempt hcar.stands hcar.exact hcid (hnow hcid)
  obtain ⟨read, next', clock, clock', now, blocks, dropped, hplan, -, -, hagain, happ, hrevision,
    -, -⟩ := hworks.exists_apply
  rw [hrevision] at hc hrecord hlink hrb
  obtain ⟨ℓ', xs', hleaves, hrev, hafter⟩ :=
    hcar.landed (Tables.planOn_indexes hplan) hagain happ hc
  have hm : Moved.Lands did ⟨job, worked.revision, next (.ok (some committed)), w.actor.tables,
      actor.tables⟩ repo ℓ xs worked next' ℓ' xs' := by
    refine ⟨hcar, ⟨start, hcid, hnow hcid, hworks⟩, rfl, ⟨committed, houtcome committed⟩, ?_, hrev, hleaves,
      hafter, ?_, ?_, ?_⟩
    · rw [hrevision]
    · dsimp only
      rw [htab]
      exact hrecord
    · dsimp only
      rw [htab]
      exact hlink
    · dsimp only
      rw [htab]
      exact hrb
  refine ⟨⟨next', ℓ', xs', hafter, fun j writer hj => ?_⟩, ?_, ?_, ?_, first, hfirst, ?_⟩
  · by_cases hji : j = i
    · subst hji
      have hw : some (⟨job, next (.ok (some committed))⟩ : Writer Cid) = some writer := by
        simpa using hj
      cases hw
      dsimp only
      rw [houtcome committed]
      exact .finished _
    · have hw : w.writers j = some writer := by simpa [hji] using hj
      exact (hwriters j writer hw).later hafter.stands hrev
  · intro m hmem
    rcases List.mem_cons.mp hmem with rfl | hmem
    · exact ⟨repo, ℓ, xs, worked, next', ℓ', xs', hm⟩
    · exact hlands m hmem
  · rw [List.isChain_cons]
    exact ⟨hcurrent, hchain⟩
  · rintro _ ⟨⟩
    exact Tables.Same.refl _
  · unfold World.opened at hopened ⊢
    rw [List.getLast?_cons]
    cases hlast : w.moved.getLast? with
    | none =>
      rw [hlast] at hopened
      exact hopened
    | some m =>
      rw [hlast] at hopened
      exact hopened

theorem step {who : Option ℕ} (h : w.Sound did) (hstep : World.Step did who w w') :
    w'.Sound did := by
  cases hstep with
  | @start _ i job hi hd =>
    apply h.resume (Tables.Same.refl _) h.tied
    exact fun _ _ _ _ _ => .fresh maxAttempts
  | @root _ i job next hi =>
    apply h.resume (Tables.Same.refl _) h.tied
    intro repo ℓ xs hcar hw
    apply (hw _ hi).root
    rintro start hs
    rw [hcar.root] at hs
    cases hs
    exact hcar.stands.follows
  | read x hi hx =>
    apply h.resume (Tables.Same.refl _) h.tied
    exact fun repo ℓ xs _ hw => (hw _ hi).read hx
  | landed hi hc => exact h.landed hi hc
  | lost hi hc hn =>
    obtain ⟨htab, -⟩ := ActorState.commit_lost_unchanged hc hn
    apply h.resume (Tables.Same.of_eq htab)
    · rw [htab]
      exact h.tied
    · intro repo ℓ xs _ hw
      obtain ⟨worked, -, -, -, hagain⟩ := (hw _ hi).commit
      exact hagain _ hn
  | fault e hi =>
    apply h.resume (Tables.Same.refl _) h.tied
    intro repo ℓ xs _ hw
    obtain ⟨worked, -, -, -, hagain⟩ := (hw _ hi).commit
    exact hagain _ (by simp)
  | @leave _ i =>
    refine h.keep ?_ (Tables.Same.refl _) h.tied ?_
    · rfl
    intro repo ℓ xs _ hw j writer hj
    by_cases hji : j = i
    · subst hji
      simp at hj
    · apply hw j
      simpa [hji] using hj
  | addBlob blob key now =>
    refine h.keep ?_ ⟨rfl, rfl, rfl, rfl, rfl⟩ (h.tied.addBlob blob key now) ?_
    · rfl
    exact fun _ _ _ _ hw => hw
  | takeStale found =>
    refine h.keep ?_ ⟨rfl, rfl, rfl, rfl, rfl⟩ (h.tied.takeStale found) ?_
    · rfl
    exact fun _ _ _ _ hw => hw
  | disk files =>
    refine h.keep ?_ (Tables.Same.refl _) h.tied ?_
    · rfl
    exact fun _ _ _ _ hw => hw

end World.Sound

section

variable [LawfulCodec Cid] {did : Did} {w : World Cid}

theorem World.Reachable.sound (h : World.Reachable did w) : w.Sound did := by
  induction h with
  | founded hf => exact .of_founded hf
  | step _ hs ih => exact ih.step hs

end

end

end Manapds
