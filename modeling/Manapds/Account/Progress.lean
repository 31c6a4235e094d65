import Manapds.Account.World
import Manapds.Repo.Going
import Manapds.Syntax.Clock

/-!
# A writer left alone

A writer that is let go on while nobody else moves the root gets to the end of its attempt, and what
it has worked out lands. `exists_landed` says so of any batch whose plan finds its keys as it wants
them, so there are databases with as many revisions as there is room for.
-/

namespace Manapds

open KeyedList Shape QueryProgram Routine

variable {Cid : Type} [Codec Cid] [DecidableEq Cid] [CidText Cid]

namespace World

/-- What a writer does between two moments at which it has landed nothing and is still there. -/
inductive Goes (did : Did) (i : ℕ) (w : World Cid) : World Cid → Prop where
  | refl : Goes did i w w
  | step {w' w'' : World Cid} : Goes did i w w' → Step did (some i) w' w'' → w''.moved = w'.moved →
      w'.writers i ≠ none → w''.writers i ≠ none → Goes did i w w''

variable {did : Did} {w w' w'' : World Cid} {i : ℕ} {job : Job Cid}

theorem Goes.trans (h : Goes did i w w') (h' : Goes did i w' w'') : Goes did i w w'' := by
  induction h' with
  | refl => exact h
  | step _ hs hm hw hw' ih => exact ih.step hs hm hw hw'

/-- The other writers are where they were. -/
theorem Goes.other (h : Goes did i w w') {j : ℕ} (hj : j ≠ i) : w'.writers j = w.writers j := by
  induction h with
  | refl => rfl
  | step _ hs _ _ _ ih =>
    rw [← ih]
    cases hs <;> exact Function.update_of_ne hj _ _

theorem Reachable.goes (h : Reachable did w) (hg : Goes did i w w') : Reachable did w' := by
  induction hg with
  | refl => exact h
  | step _ hs _ _ _ ih => exact ih.step hs

/-- A writer starts on the root that is there. -/
theorem exists_started (did : Did) (hw : w.writers i = some ⟨job, commitWrites job⟩) {start : Root Cid}
    (hr : w.actor.tables.repoRoot = some start) : ∃ w', Goes did i w w' ∧ w'.actor = w.actor ∧
      w'.moved = w.moved ∧
      w'.writers i = some ⟨job, Job.underway (job.attempts 7) (job.attempt start ())⟩ := by
  obtain ⟨next, hnext⟩ : ∃ next, commitWrites job = .ask .root next := ⟨_, rfl⟩
  have hfirst : next (some start) = Job.underway (job.attempts 7) (job.attempt start ()) := by
    cases hnext
    rfl
  rw [hnext] at hw
  have hrooted : (w.resume i job (next w.actor.tables.repoRoot)).writers i =
      some ⟨job, Job.underway (job.attempts 7) (job.attempt start ())⟩ := by
    simp only [resume, hr, hfirst, Function.update_self]
  refine ⟨_, Goes.refl.step (.root hw) ?_ ?_ ?_, rfl, rfl, hrooted⟩
  · rfl
  · simp [hw]
  · simp [hrooted]

/-- A writer reads on to the end of its attempt, and nothing else changes. -/
theorem exists_read (did : Did) {again : Writes Cid (Outcome Cid)}
    {rest : Program (ReadQuery Cid) ReadQuery.Answer
      (Except (AccountError Cid) (Option (Worked Cid)) × Unit)}
    {r : Except (AccountError Cid) (Option (Worked Cid)) × Unit}
    (hw : w.writers i = some ⟨job, Job.underway again rest⟩)
    (hr : rest.Yields w.actor.tables.Answers r) :
    ∃ w', Goes did i w w' ∧ w'.actor = w.actor ∧ w'.moved = w.moved ∧
      w'.writers i = some ⟨job, Job.land again r⟩ := by
  induction rest generalizing w with
  | done a =>
    obtain rfl : r = a := hr
    exact ⟨w, .refl, rfl, rfl, hw⟩
  | ask q next ih =>
    obtain ⟨x, hx, hr⟩ := hr
    have hstep : Step did (some i) w (w.resume i job (Job.underway again (next x))) :=
      Step.read x hw hx
    have hresumed : (w.resume i job (Job.underway again (next x))).writers i =
        some ⟨job, Job.underway again (next x)⟩ := Function.update_self ..
    have hgoes : Goes did i w (w.resume i job (Job.underway again (next x))) := by
      apply Goes.refl.step hstep rfl
      · simp [hw]
      · simp [hresumed]
    obtain ⟨w', hw', ha, hm, hi⟩ := ih x hresumed hr
    exact ⟨w', hgoes.trans hw', ha, hm, hi⟩

end World

variable [LawfulCodec Cid] {tables : Tables Cid} {ℓ : ℕ} {xs xs' : List (Leaf Cid)} {repo : Repo Cid}
  {job : Job Cid} {start : Root Cid} {plan : Plan Cid}

/-- An attempt that plans something and is not behind the commit it was to follow signs what the
batch comes to. -/
theorem exists_signed (start : Root Cid) (hr : repo.At tables.stored ℓ xs)
    (hx : Exact tables.stored repo.cid ℓ xs) (hs : start.cid = repo.cid)
    (hplan : tables.planOn job.did xs job.requested = .ok plan)
    (hne : plan.writes ≠ []) (hswap : job.swap.all (· = start.cid) = true) :
    ∃ read, repo.Again tables ℓ xs read ∧ ∀ (clock clock' : TidClock) (now : ℕ)
      (blocks : BlockMap Cid) (dropped : List Cid) (next : Repo Cid),
      exec (Store.answer tables.stored) (read.apply job.rounds plan.writes job.keypair now) clock =
        (.ok (blocks, dropped, next), clock') →
      (job.attempt start ()).Yields tables.Answers (.ok (some ⟨⟨some start, ⟨next.cid, next.rev⟩,
        blocks, dropped, plan.index⟩, plan, read.rev, read.commit.data⟩), ()) := by
  have hstand := hx.standing hr
  have hload : repo.Again tables ℓ xs ⟨repo.cid, repo.commit, Mst.load repo.commit.data⟩ :=
    ⟨⟨hstand.holds, hr.root, hr.commit, hr.records⟩, rfl, rfl⟩
  obtain ⟨read, hagain, hcomes⟩ := comes_plan job.did hload.stands job.requested
  have hfirst := comes_reading tables (Repo.load start.cid) ()
  rw [hs, hstand.exec_load ()] at hfirst
  rw [hplan] at hcomes
  refine ⟨read, hload.trans hagain, ?_⟩
  intro clock clock' now blocks dropped next happ
  have hasked : ((Routine.ask ReadQuery.clock : Working Cid (TidClock × ℕ)) ()).Yields
      tables.Answers (.ok (clock, now), ()) := ⟨(clock, now), trivial, rfl⟩
  have happlied := comes_reading tables
    (read.apply job.rounds plan.writes job.keypair now) clock
  rw [happ] at happlied
  have hsigned : (job.sign start read plan ()).Yields tables.Answers (.ok ⟨⟨some start,
      ⟨next.cid, next.rev⟩, blocks, dropped, plan.index⟩, plan, read.rev, read.commit.data⟩, ()) := by
    unfold Job.sign
    apply Yields.bind_ok hasked
    apply Yields.bind_ok ((happlied _).mpr rfl)
    rfl
  unfold Job.attempt
  rw [hs]
  apply Yields.bind_ok ((hfirst _).mpr rfl)
  apply Yields.bind_ok ((hcomes _).mpr rfl)
  dsimp only
  rw [if_neg hne, ← hs, if_pos hswap]
  exact Yields.bind_ok hsigned rfl

/-! ## Revisions to come -/

theorem exists_later {previous : Tid} (h : previous.toParts.1 < Tid.ceiling) :
    ∃ rev, ((⟨0, 0⟩ : TidClock).mintAfter 0 previous).1 = some rev ∧
      rev.toParts.1 = previous.toParts.1 + 1 := by
  have hfloor : ¬(TidClock.Call.mintAfter 0 previous).AtCeiling := by
    rintro ⟨p, hp, hle⟩
    cases hp
    omega
  have hzero : 0 < Tid.ceiling := by
    rw [Tid.ceiling_eq]
    omega
  have hlast : (⟨0, 0⟩ : TidClock).last < Tid.ceiling := hzero
  have hcall := TidClock.call_of_room hfloor hlast hzero
  have hnext : max 0 (max 0 (TidClock.Call.mintAfter 0 previous).floor + 1) =
      previous.toParts.1 + 1 := by
    have hf : (TidClock.Call.mintAfter 0 previous).floor = previous.toParts.1 := rfl
    omega
  refine ⟨Tid.fromParts (previous.toParts.1 + 1) 0, ?_, TidClock.toParts_fromParts 0 h⟩
  rw [← hnext]
  exact congrArg Prod.fst hcall

namespace World

variable {did : Did} {w : World Cid}

omit [CidText Cid] in
/-- There is a database to begin with. -/
theorem exists_founded (did : Did) (keypair : Keypair) (files : BlobFiles Cid) :
    ∃ (actor : ActorState Cid) (repo : Repo Cid), Founded did actor ∧
      actor.tables.Carries did repo 0 [] ∧ repo.rev.toParts.1 = 1 := by
  obtain ⟨repo, blocks, hc, hrev⟩ := exists_create Cid did keypair 1 ⟨0, 0⟩
  obtain ⟨committed, actor, hl⟩ := ActorState.commit_goes did ⟨Tables.empty, files⟩
    ⟨none, ⟨repo.cid, repo.rev⟩, blocks, [], []⟩ (fun _ hm => nomatch hm) rfl
  refine ⟨actor, repo, .mk hc hl, .genesis hc hl, ?_⟩
  have hone : 1 < Tid.ceiling := by
    rw [Tid.ceiling_eq]
    omega
  have hzero : 0 < Tid.ceiling := by omega
  have hlast : (⟨0, 0⟩ : TidClock).last < Tid.ceiling := hzero
  have hmint := TidClock.mint_of_room hlast hone
  rw [hrev, hmint]
  exact TidClock.toParts_fromParts 0 hone.le

/-- A batch whose plan finds its keys as it wants them is worked out to where it can land. -/
theorem exists_ready (hc : w.actor.tables.Carries did repo ℓ xs)
    (hroom : repo.rev.toParts.1 < Tid.ceiling) {keypair : Keypair}
    {requested : List (Requested Cid)} {i : ℕ} {job : Job Cid}
    (hjob : job = ⟨did, keypair, requested, none, roundsFor ℓ xs xs'⟩)
    (hw : w.writers i = some ⟨job, commitWrites job⟩)
    (hplan : w.actor.tables.planOn did xs requested = .ok plan) (hne : plan.writes ≠ [])
    (hn : ∀ write ∈ plan.writes, write.named = true) (hl : leavesAfter plan.writes xs = some xs')
    (hb : w.actor.begun.Ready plan.index) :
    ∃ (w' : World Cid) (worked : Worked Cid)
      (answered : Except (StoreError Cid) (Option (Committed Cid)) → Writes Cid (Outcome Cid))
      (committed : Committed Cid) (actor : ActorState Cid) (next : Repo Cid) (ℓ' : ℕ),
      Goes did i w w' ∧ w'.actor = w.actor ∧ w'.moved = w.moved ∧
      w'.writers i = some ⟨job, .ask (.commit worked.revision) answered⟩ ∧
      answered (.ok (some committed)) = .done (.ok (some (worked.landed committed))) ∧
      worked.plan = plan ∧ worked.revision.start = some ⟨repo.cid, repo.rev⟩ ∧
      worked.revision.records = plan.index ∧
      w.actor.commit did worked.revision = (.ok (some committed), actor) ∧
      actor.tables.Carries did next ℓ' xs' ∧ next.rev.toParts.1 = repo.rev.toParts.1 + 1 := by
  have hasked : w.actor.tables.planOn job.did xs job.requested = .ok plan := by
    rw [hjob]
    exact hplan
  have hswap : job.swap.all (· = repo.cid) = true := by
    rw [hjob]
    rfl
  obtain ⟨read, hagain, hsigned⟩ :=
    exists_signed ⟨repo.cid, repo.rev⟩ hc.stands hc.exact rfl hasked hne hswap
  have hrev : read.rev = repo.rev := congrArg Commit.rev hagain.commit
  have hexact : Exact w.actor.tables.stored read.cid ℓ xs := by
    rw [hagain.cid]
    exact hc.exact
  obtain ⟨rev, hmint, hparts⟩ := exists_later hroom
  obtain ⟨blocks, dropped, next, clock', hnext, happ⟩ := exec_apply_ok hagain.stands
    (hexact.closed hagain.stands) hn hl keypair (hrev ▸ hmint)
  have hrounds : job.rounds = roundsFor ℓ xs xs' := by rw [hjob]
  have hkey : job.keypair = keypair := by rw [hjob]
  have hyields := hsigned ⟨0, 0⟩ clock' 0 blocks dropped next (by rw [hrounds, hkey]; exact happ)
  obtain ⟨worked, hworked⟩ : ∃ worked : Worked Cid, worked = ⟨⟨some ⟨repo.cid, repo.rev⟩,
    ⟨next.cid, next.rev⟩, blocks, dropped, plan.index⟩, plan, read.rev, read.commit.data⟩ := ⟨_, rfl⟩
  have hrevision : worked.revision = ⟨some ⟨repo.cid, repo.rev⟩, ⟨next.cid, next.rev⟩, blocks, dropped,
    plan.index⟩ := by rw [hworked]
  rw [← hworked] at hyields
  obtain ⟨w1, h1, hactor1, hmoved1, hw1⟩ := exists_started did hw hc.root
  rw [← hactor1] at hyields
  obtain ⟨w2, h2, hactor2, hmoved2, hw2⟩ := exists_read did hw1 hyields
  have hready : w.actor.begun.Ready worked.revision.records := by
    rw [hrevision]
    exact hb
  have hroot : w.actor.tables.repoRoot = worked.revision.start := by
    rw [hrevision]
    exact hc.root
  obtain ⟨committed, actor, hcommit⟩ := ActorState.commit_goes did w.actor worked.revision hready hroot
  have hland := hcommit
  rw [hrevision] at hland
  obtain ⟨ℓ', ys, hleaves, -, hafter⟩ :=
    hc.landed (Tables.planOn_indexes hplan) hagain happ hland
  obtain rfl := Option.some.inj (hleaves.symm.trans hl)
  refine ⟨w2, worked, _, committed, actor, next, ℓ', h1.trans h2, hactor2.trans hactor1,
    hmoved2.trans hmoved1, hw2, rfl, ?_, ?_, ?_, hcommit, hafter, ?_⟩
  · rw [hworked]
  · rw [hrevision]
  · rw [hrevision]
  · rw [hnext, hparts]

/-- A batch whose plan finds its keys as it wants them lands, by a writer of its own. -/
theorem Reachable.exists_landed (h : Reachable did w) (hc : w.actor.tables.Carries did repo ℓ xs)
    (hroom : repo.rev.toParts.1 < Tid.ceiling) (keypair : Keypair)
    {requested : List (Requested Cid)}
    (hplan : w.actor.tables.planOn did xs requested = .ok plan) (hne : plan.writes ≠ [])
    (hn : ∀ write ∈ plan.writes, write.named = true) (hl : leavesAfter plan.writes xs = some xs')
    (hb : w.actor.begun.Ready plan.index) :
    ∃ (w' : World Cid) (m : Moved Cid) (worked : Worked Cid) (committed : Committed Cid)
      (next : Repo Cid) (ℓ' : ℕ), Reachable did w' ∧ w'.moved = m :: w.moved ∧
      m.before = w.actor.tables ∧ m.after = w'.actor.tables ∧
      m.job = ⟨did, keypair, requested, none, roundsFor ℓ xs xs'⟩ ∧ m.revision = worked.revision ∧
      worked.plan = plan ∧ m.outcome = .done (.ok (some (worked.landed committed))) ∧
      w'.actor.tables.Carries did next ℓ' xs' ∧ next.rev.toParts.1 = repo.rev.toParts.1 + 1 := by
  obtain ⟨job, hjob⟩ : ∃ job : Job Cid, job = ⟨did, keypair, requested, none, roundsFor ℓ xs xs'⟩ :=
    ⟨_, rfl⟩
  have hdid : job.did = did := by rw [hjob]
  have hleft : Reachable did { w with writers := Function.update w.writers 0 none } := h.step .leave
  obtain ⟨w0, hstarted, hactor0, hmoved0, hw0⟩ : ∃ w0, Reachable did w0 ∧ w0.actor = w.actor ∧
      w0.moved = w.moved ∧ w0.writers 0 = some ⟨job, commitWrites job⟩ :=
    ⟨_, hleft.step (.start (i := 0) (by simp) hdid), rfl, rfl, by simp [resume]⟩
  rw [← hactor0] at hc hplan hb
  obtain ⟨w', worked, answered, committed, actor, next, ℓ', hgoes, hactor, hmoved, hw, houtcome,
    hplanned, -, -, hcommit, hafter, hrev⟩ := exists_ready hc hroom hjob hw0 hplan hne hn hl hb
  rw [← hactor] at hcommit
  have hstep := (hstarted.goes hgoes).step (.landed hw hcommit)
  refine ⟨_, ⟨job, worked.revision, answered (.ok (some committed)), w'.actor.tables, actor.tables⟩,
    worked, committed, next, ℓ', hstep, ?_, ?_, rfl, hjob, rfl, hplanned, houtcome, hafter, hrev⟩
  · rw [hmoved, hmoved0]
  · exact congrArg ActorState.tables (hactor.trans hactor0)

end World

end Manapds
