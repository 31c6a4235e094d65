import Manapds.Account.Index
import Manapds.Repo.Reach

/-!
# A write worked out alone

While an account's tables stay what they are, everything a write reads of them is read of one
revision. `planOn` is what `plan` comes to there, as a function of the leaves of that revision and
of what the index points at; `workedOn` says what a revision that is ready to land was worked out
from. The clock is the one thing that may answer in more than one way.
-/

namespace Manapds

open KeyedList Shape QueryProgram Routine

variable {Cid : Type} {ℓ : ℕ} {xs : List (Leaf Cid)} {tables : Tables Cid}

/-- What is at a key of some leaves. -/
def heldAt (xs : List (Leaf Cid)) (collection : Nsid) (rkey : RecordKey) : Option Cid :=
  (find Leaf.key (recordPath collection rkey) xs).map Leaf.value

theorem Write.planned_ok [Codec Cid] {did : Did} {write : Write Cid} {prev : Option Cid}
    {planned : Planned Cid} {result : Applied Cid} (h : write.planned did prev = .ok (planned, result)) :
    ∃ blobs cid, write.blobs = .ok blobs ∧ write.encoded = .ok cid ∧
      planned = ⟨write, write.indexed cid blobs, ⟨write.action prev, write.key, cid, prev⟩⟩ ∧
      result = ⟨text "at://" ++ did.str ++ ascii '/' :: write.key, cid⟩ := by
  unfold Write.planned at h
  cases hb : write.blobs with
  | error e =>
    rw [hb] at h
    cases h
  | ok blobs =>
    cases hc : write.encoded with
    | error e =>
      rw [hb, hc] at h
      cases h
    | ok cid =>
      rw [hb, hc] at h
      cases h
      exact ⟨blobs, cid, rfl, rfl, rfl, rfl⟩

namespace Tables

/-- The records a write takes the place of, where the index points at them. -/
def supersededOn (tables : Tables Cid) (xs : List (Leaf Cid)) (asked : Requested Cid) :
    List (Planned Cid) :=
  if asked.conflicts = .supersede ∧ Backlink.heldToOne asked.write.collection = true then
    asked.write.links.flatMap fun link =>
      (tables.pointingAt asked.write.collection link).map fun held =>
        .taking asked.write.collection held (heldAt xs asked.write.collection held)
  else []

/-- A plan on one revision. -/
def planOn [Codec Cid] [DecidableEq Cid] [CidText Cid] (did : Did) (tables : Tables Cid)
    (xs : List (Leaf Cid)) : List (Requested Cid) → Except (AccountError Cid) (Plan Cid)
  | [] => .ok ⟨[], []⟩
  | asked :: rest =>
    let prev := heldAt xs asked.write.collection asked.write.rkey
    if prev.isNone ∧ asked.missing = .skip then planOn did tables xs rest
    else do
      asked.check prev
      let (planned, result) ← (asked.write.planned did prev).mapError .repo
      let others ← planOn did tables xs rest
      return ⟨tables.supersededOn xs asked ++ planned :: others.planned, result :: others.results⟩

theorem mem_supersededOn {asked : Requested Cid} {p : Planned Cid}
    (h : p ∈ tables.supersededOn xs asked) :
    asked.conflicts = .supersede ∧ Backlink.heldToOne asked.write.collection = true ∧
      ∃ link ∈ asked.write.links, ∃ held ∈ tables.pointingAt asked.write.collection link,
        p = .taking asked.write.collection held (heldAt xs asked.write.collection held) := by
  unfold supersededOn at h
  split_ifs at h with hs
  · obtain ⟨link, hlink, hp⟩ := List.mem_flatMap.mp h
    obtain ⟨held, hheld, rfl⟩ := List.mem_map.mp hp
    exact ⟨hs.1, hs.2, link, hlink, held, hheld, rfl⟩
  · cases h

section

variable [Codec Cid] {did : Did} {asked : Requested Cid} {rest : List (Requested Cid)} {plan : Plan Cid}

variable [DecidableEq Cid] [CidText Cid]

/-- A plan skips its first request, or begins with what that takes the place of and its write. -/
theorem planOn_cons (h : tables.planOn did xs (asked :: rest) = .ok plan) :
    (heldAt xs asked.write.collection asked.write.rkey = none ∧ asked.missing = .skip ∧
      tables.planOn did xs rest = .ok plan) ∨
    ∃ blobs cid others, asked.check (heldAt xs asked.write.collection asked.write.rkey) = .ok () ∧
      asked.write.blobs = .ok blobs ∧ asked.write.encoded = .ok cid ∧
      tables.planOn did xs rest = .ok others ∧
      plan = ⟨tables.supersededOn xs asked ++ ⟨asked.write, asked.write.indexed cid blobs,
          ⟨asked.write.action (heldAt xs asked.write.collection asked.write.rkey), asked.write.key,
            cid, heldAt xs asked.write.collection asked.write.rkey⟩⟩ :: others.planned,
        ⟨text "at://" ++ did.str ++ ascii '/' :: asked.write.key, cid⟩ :: others.results⟩ := by
  unfold planOn at h
  dsimp only at h
  split_ifs at h with hskip
  · exact Or.inl ⟨Option.isNone_iff_eq_none.mp hskip.1, hskip.2, h⟩
  · right
    cases hcheck : asked.check (heldAt xs asked.write.collection asked.write.rkey) with
    | error e =>
      rw [hcheck] at h
      cases h
    | ok u =>
      rw [hcheck] at h
      cases hplanned : asked.write.planned did
          (heldAt xs asked.write.collection asked.write.rkey) with
      | error e =>
        rw [hplanned] at h
        cases h
      | ok r =>
        rw [hplanned] at h
        cases hothers : tables.planOn did xs rest with
        | error e =>
          rw [hothers] at h
          cases h
        | ok others =>
          rw [hothers] at h
          cases h
          obtain ⟨planned, result⟩ := r
          obtain ⟨blobs, cid, hb, hc, rfl, rfl⟩ := Write.planned_ok hplanned
          exact ⟨blobs, cid, others, rfl, hb, hc, rfl, rfl⟩

/-- What a plan leaves in the index is what its writes come to. -/
theorem planOn_indexes {requested : List (Requested Cid)}
    (h : tables.planOn did xs requested = .ok plan) :
    ∀ p ∈ plan.planned, p.write.Indexes p.index := by
  induction requested generalizing plan with
  | nil =>
    cases h
    simp
  | cons asked rest ih =>
    rcases planOn_cons h with ⟨-, -, hrest⟩ | ⟨blobs, cid, others, -, hb, hc, hrest, rfl⟩
    · exact ih hrest
    · intro p hp
      rcases List.mem_append.mp hp with hp | hp
      · obtain ⟨-, -, link, -, held, -, rfl⟩ := mem_supersededOn hp
        exact ⟨[], none, rfl, rfl, rfl⟩
      · rcases List.mem_cons.mp hp with rfl | hp
        · exact ⟨blobs, cid, hb, hc, rfl⟩
        · exact ih hrest p hp

/-- A plan writes records that it was asked to write, and no others. -/
theorem planOn_asked {requested : List (Requested Cid)}
    (h : tables.planOn did xs requested = .ok plan) :
    ∀ p ∈ plan.planned, p.write.record = none ∨ ∃ asked ∈ requested, p.write = asked.write := by
  induction requested generalizing plan with
  | nil =>
    cases h
    simp
  | cons asked rest ih =>
    have hlater : ∀ p : Planned Cid,
        (p.write.record = none ∨ ∃ other ∈ rest, p.write = other.write) →
          p.write.record = none ∨ ∃ other ∈ asked :: rest, p.write = other.write := by
      rintro p (hnone | ⟨other, hother, hp⟩)
      · exact Or.inl hnone
      · exact Or.inr ⟨other, List.mem_cons_of_mem asked hother, hp⟩
    rcases planOn_cons h with ⟨-, -, hrest⟩ | ⟨blobs, cid, others, -, -, -, hrest, rfl⟩
    · exact fun p hp => hlater p (ih hrest p hp)
    · intro p hp
      rcases List.mem_append.mp hp with hp | hp
      · obtain ⟨-, -, link, -, held, -, rfl⟩ := mem_supersededOn hp
        exact Or.inl rfl
      · rcases List.mem_cons.mp hp with rfl | hp
        · exact Or.inr ⟨asked, List.mem_cons_self, rfl⟩
        · exact hlater p (ih hrest p hp)

end

variable [DecidableEq Cid]

/-- The answers a write is given while the tables are these. -/
def Answers (tables : Tables Cid) : ∀ q : ReadQuery Cid, q.Answer → Prop
  | .block q, x => x = Store.answer tables.stored q
  | .pointingAt collection link, x => x = tables.pointingAt collection link
  | .clock, _ => True

end Tables

variable [DecidableEq Cid]

theorem comes_reading (tables : Tables Cid) {σ α : Type} (t : Reads Cid σ α) (s : σ) :
    (reading t s ()).Comes tables.Answers
      ((exec (Store.answer tables.stored) t s).1.mapError .repo, ()) := by
  have hp : ((t s).via ReadQuery.block fun _ answer => answer).Comes tables.Answers
      (exec (Store.answer tables.stored) t s) := by
    intro r
    rw [Program.yields_via]
    have hallowed : (fun (q : StoreQuery Cid) (x : q.Answer) =>
        ∃ y, tables.Answers (.block q) y ∧ x = y) = fun q x => x = Store.answer tables.stored q := by
      funext q x
      simp [Tables.Answers]
    rw [hallowed]
    exact Program.yields_env
  exact hp.bind (Program.comes_done _ _)

section

variable [Codec Cid]

/-- The same revision, with more of its tree read. -/
structure Repo.Again (tables : Tables Cid) (ℓ : ℕ) (xs : List (Leaf Cid)) (repo repo' : Repo Cid) :
    Prop where
  stands : repo'.At tables.stored ℓ xs
  cid : repo'.cid = repo.cid
  commit : repo'.commit = repo.commit

variable {repo repo' repo'' : Repo Cid}

theorem Repo.At.again (h : repo.At tables.stored ℓ xs) : repo.Again tables ℓ xs repo := ⟨h, rfl, rfl⟩

theorem Repo.Again.trans (h : repo.Again tables ℓ xs repo') (h' : repo'.Again tables ℓ xs repo'') :
    repo.Again tables ℓ xs repo'' := ⟨h'.stands, h'.cid.trans h.cid, h'.commit.trans h.commit⟩

variable [LawfulCodec Cid]

/-- A read of one key. -/
theorem comes_get (hr : repo.At tables.stored ℓ xs) (collection : Nsid) (rkey : RecordKey) :
    ∃ repo', repo.Again tables ℓ xs repo' ∧ (reading (repo.get collection rkey) () ()).Comes
      tables.Answers (.ok (heldAt xs collection rkey, repo'), ()) := by
  obtain ⟨t, hget, ht⟩ := exec_get () hr.data (recordPath collection rkey)
  refine ⟨{ repo with data := t }, ⟨⟨ht, hr.root, hr.commit, hr.records⟩, rfl, rfl⟩, ?_⟩
  have hc := comes_reading tables (repo.get collection rkey) ()
  simp only [Repo.get, exec_bind, hget, exec_pure] at hc
  exact hc

theorem comes_supersededAt (hr : repo.At tables.stored ℓ xs) (collection : Nsid)
    (rkeys : List RecordKey) : ∃ repo', repo.Again tables ℓ xs repo' ∧
      (supersededAt collection rkeys repo ()).Comes tables.Answers
        (.ok (rkeys.map fun held => .taking collection held (heldAt xs collection held), repo'), ()) := by
  induction rkeys generalizing repo with
  | nil => exact ⟨repo, hr.again, Program.comes_done _ _⟩
  | cons held rest ih =>
    obtain ⟨repo1, hagain, hget⟩ := comes_get hr collection held
    obtain ⟨repo2, hagain', hrest⟩ := ih hagain.stands
    refine ⟨repo2, hagain.trans hagain', ?_⟩
    apply comes_bind hget
    apply comes_bind hrest
    exact Program.comes_done _ _

theorem comes_supersededBy (hr : repo.At tables.stored ℓ xs) (collection : Nsid)
    (links : List Backlink) : ∃ repo', repo.Again tables ℓ xs repo' ∧
      (supersededBy collection links repo ()).Comes tables.Answers
        (.ok (links.flatMap fun link => (tables.pointingAt collection link).map fun held =>
          .taking collection held (heldAt xs collection held), repo'), ()) := by
  induction links generalizing repo with
  | nil => exact ⟨repo, hr.again, Program.comes_done _ _⟩
  | cons link rest ih =>
    obtain ⟨repo1, hagain, htaken⟩ :=
      comes_supersededAt hr collection (tables.pointingAt collection link)
    obtain ⟨repo2, hagain', hrest⟩ := ih hagain.stands
    refine ⟨repo2, hagain.trans hagain', ?_⟩
    have hask : ((Routine.ask (ReadQuery.pointingAt collection link) :
        Working Cid (List RecordKey)) ()).Comes tables.Answers
        (.ok (tables.pointingAt collection link), ()) :=
      Program.Comes.ask (fun _ => Iff.rfl) (Program.comes_done _ _)
    apply comes_bind hask
    apply comes_bind htaken
    apply comes_bind hrest
    exact Program.comes_done _ _

theorem comes_superseded (hr : repo.At tables.stored ℓ xs) (asked : Requested Cid) :
    ∃ repo', repo.Again tables ℓ xs repo' ∧ (superseded repo asked ()).Comes tables.Answers
      (.ok (tables.supersededOn xs asked, repo'), ()) := by
  unfold superseded Tables.supersededOn
  split_ifs
  · exact comes_supersededBy hr asked.write.collection asked.write.links
  · exact ⟨repo, hr.again, Program.comes_done _ _⟩

variable [CidText Cid]

/-- On one revision `plan` is the function `planOn` of it. -/
theorem comes_plan (did : Did) (hr : repo.At tables.stored ℓ xs)
    (requested : List (Requested Cid)) : ∃ repo', repo.Again tables ℓ xs repo' ∧
    (plan did requested repo ()).Comes tables.Answers
      ((tables.planOn did xs requested).map fun plan => (plan, repo'), ()) := by
  induction requested generalizing repo with
  | nil => exact ⟨repo, hr.again, Program.comes_done _ _⟩
  | cons asked rest ih =>
    obtain ⟨repo1, hagain, hget⟩ := comes_get hr asked.write.collection asked.write.rkey
    unfold Manapds.plan Tables.planOn
    dsimp only
    by_cases hskip : (heldAt xs asked.write.collection asked.write.rkey).isNone = true ∧
        asked.missing = .skip
    · obtain ⟨repo2, hagain', hrest⟩ := ih hagain.stands
      refine ⟨repo2, hagain.trans hagain', ?_⟩
      apply comes_bind hget
      dsimp only
      rw [if_pos hskip, if_pos hskip]
      exact hrest
    rw [if_neg hskip]
    cases hcheck : asked.check (heldAt xs asked.write.collection asked.write.rkey) with
    | error e =>
      refine ⟨repo1, hagain, ?_⟩
      apply comes_bind hget
      dsimp only
      rw [if_neg hskip, hcheck]
      exact comes_bind_error (comes_ofExcept _)
    | ok u =>
      obtain ⟨repo2, hagain2, htaken⟩ := comes_superseded hagain.stands asked
      cases hplanned : (asked.write.planned did
          (heldAt xs asked.write.collection asked.write.rkey)).mapError AccountError.repo with
      | error e =>
        refine ⟨repo2, hagain.trans hagain2, ?_⟩
        apply comes_bind hget
        dsimp only
        rw [if_neg hskip, hcheck, hplanned]
        apply comes_bind (comes_ofExcept _)
        apply comes_bind htaken
        exact comes_bind_error (comes_ofExcept _)
      | ok r =>
        obtain ⟨repo3, hagain3, hrest⟩ := ih hagain2.stands
        refine ⟨repo3, (hagain.trans hagain2).trans hagain3, ?_⟩
        apply comes_bind hget
        dsimp only
        rw [if_neg hskip, hcheck, hplanned]
        apply comes_bind (comes_ofExcept _)
        apply comes_bind htaken
        apply comes_bind (comes_ofExcept _)
        cases hothers : tables.planOn did xs rest with
        | error e =>
          rw [hothers] at hrest
          exact comes_bind_error hrest
        | ok others =>
          rw [hothers] at hrest
          apply comes_bind hrest
          exact Program.comes_done _ _

/-- What an attempt comes to on the revision `repo` over `xs`: the plan is the one made there, the
swap names that revision, and the batch is applied to it. -/
inductive Job.Works (job : Job Cid) (tables : Tables Cid) (ℓ : ℕ) (xs : List (Leaf Cid))
    (repo : Repo Cid) (start : Root Cid) : Except (AccountError Cid) (Option (Worked Cid)) → Prop where
  | unplanned {e : AccountError Cid} : tables.planOn job.did xs job.requested = .error e →
      job.Works tables ℓ xs repo start (.error e)
  | nothing {plan : Plan Cid} : tables.planOn job.did xs job.requested = .ok plan →
      plan.writes = [] → job.Works tables ℓ xs repo start (.ok none)
  | swapped {plan : Plan Cid} : tables.planOn job.did xs job.requested = .ok plan →
      plan.writes ≠ [] → job.swap.all (· = start.cid) = false →
      job.Works tables ℓ xs repo start (.error (.swap start.cid))
  | refused {plan : Plan Cid} {read : Repo Cid} {clock clock' : TidClock} {now : ℕ}
      {e : RepoError Cid} : tables.planOn job.did xs job.requested = .ok plan →
      repo.Again tables ℓ xs read → exec (Store.answer tables.stored)
        (read.apply job.rounds plan.writes job.keypair now) clock = (.error e, clock') →
      job.Works tables ℓ xs repo start (.error (.repo e))
  | worked {plan : Plan Cid} {read next : Repo Cid} {clock clock' : TidClock} {now : ℕ}
      {blocks : BlockMap Cid} {dropped : List Cid} :
      tables.planOn job.did xs job.requested = .ok plan → plan.writes ≠ [] →
      job.swap.all (· = start.cid) = true → repo.Again tables ℓ xs read →
      exec (Store.answer tables.stored) (read.apply job.rounds plan.writes job.keypair now) clock =
        (.ok (blocks, dropped, next), clock') →
      job.Works tables ℓ xs repo start (.ok (some
        ⟨⟨some start, ⟨next.cid, next.rev⟩, blocks, dropped, plan.index⟩, plan, repo.rev,
          repo.commit.data⟩))

variable {job : Job Cid} {start : Root Cid}

omit [LawfulCodec Cid] in
/-- What a revision that is ready to land was worked out from. -/
theorem Job.Works.exists_apply {worked : Worked Cid}
    (h : job.Works tables ℓ xs repo start (.ok (some worked))) :
    ∃ read next clock clock' now blocks dropped,
      tables.planOn job.did xs job.requested = .ok worked.plan ∧ worked.plan.writes ≠ [] ∧
      job.swap.all (· = start.cid) = true ∧ repo.Again tables ℓ xs read ∧
      exec (Store.answer tables.stored)
        (read.apply job.rounds worked.plan.writes job.keypair now) clock =
        (.ok (blocks, dropped, next), clock') ∧
      worked.revision =
        ⟨some start, ⟨next.cid, next.rev⟩, blocks, dropped, worked.plan.index⟩ ∧
      worked.since = repo.rev ∧ worked.prevData = repo.commit.data := by
  cases h with
  | worked hplan hne hswap hagain happ =>
    exact ⟨_, _, _, _, _, _, _, hplan, hne, hswap, hagain, happ, rfl, rfl, rfl⟩

omit [LawfulCodec Cid] in
/-- A revision moves the root it was worked out from, whatever was read on the way. -/
theorem start_of_attempt {allowed : ∀ q : ReadQuery Cid, q.Answer → Prop} {worked : Worked Cid}
    {u : Unit} (h : (job.attempt start ()).Yields allowed (.ok (some worked), u)) :
    worked.revision.start = some start := by
  unfold Job.attempt at h
  obtain ⟨repo, u1, -, h⟩ := yields_bind_ok h
  obtain ⟨⟨plan, read⟩, u2, -, h⟩ := yields_bind_ok h
  dsimp only at h
  split_ifs at h
  · cases h
  · obtain ⟨worked', u3, hsign, h⟩ := yields_bind_ok h
    cases h
    unfold Job.sign at hsign
    obtain ⟨⟨clock, now⟩, u4, -, hsign⟩ := yields_bind_ok hsign
    obtain ⟨⟨blocks, dropped, next⟩, u5, -, hsign⟩ := yields_bind_ok hsign
    cases hsign
    rfl
  · cases h

omit [LawfulCodec Cid] in
theorem works_sign {plan : Plan Cid} {read : Repo Cid}
    {r : Except (AccountError Cid) (Option (Worked Cid))}
    (hplan : tables.planOn job.did xs job.requested = .ok plan) (hne : plan.writes ≠ [])
    (hswap : job.swap.all (· = start.cid) = true) (hagain : repo.Again tables ℓ xs read)
    (h : ((do
      let worked ← job.sign start read plan
      return some worked : Working Cid (Option (Worked Cid))) ()).Yields tables.Answers (r, ())) :
    job.Works tables ℓ xs repo start r := by
  obtain ⟨⟨r1, u1⟩, h1, h⟩ := Program.yields_bind.mp h
  unfold Job.sign at h1
  obtain ⟨⟨r2, u2⟩, h2, h1⟩ := Program.yields_bind.mp h1
  obtain ⟨⟨clock, now⟩, -, h2⟩ := h2
  cases h2
  obtain ⟨⟨r3, u3⟩, h3, h1⟩ := Program.yields_bind.mp h1
  have h3 := (comes_reading tables _ clock _).mp h3
  cases happ : exec (Store.answer tables.stored)
      (read.apply job.rounds plan.writes job.keypair now) clock with
  | mk applied clock' =>
    rw [happ] at h3
    cases applied with
    | error e =>
      cases h3
      cases h1
      cases h
      exact .refused hplan hagain happ
    | ok made =>
      obtain ⟨blocks, dropped, next⟩ := made
      cases h3
      cases h1
      cases h
      have hrev : read.rev = repo.rev := congrArg Commit.rev hagain.commit
      rw [hrev, hagain.commit]
      exact .worked hplan hne hswap hagain happ

/-- Whatever an attempt is told by the clock, it is an attempt on the revision in the tables. -/
theorem works_attempt (hr : repo.At tables.stored ℓ xs) (hx : Exact tables.stored repo.cid ℓ xs)
    (hs : start.cid = repo.cid) {r : Except (AccountError Cid) (Option (Worked Cid))}
    (h : (job.attempt start ()).Yields tables.Answers (r, ())) :
    job.Works tables ℓ xs repo start r := by
  have hstand := hx.standing hr
  unfold Job.attempt at h
  obtain ⟨⟨r1, u1⟩, h1, h⟩ := Program.yields_bind.mp h
  have h1 := (comes_reading tables _ () _).mp h1
  rw [hs, hstand.exec_load ()] at h1
  cases h1
  have hload : repo.Again tables ℓ xs ⟨repo.cid, repo.commit, Mst.load repo.commit.data⟩ :=
    ⟨⟨hstand.holds, hr.root, hr.commit, hr.records⟩, rfl, rfl⟩
  obtain ⟨⟨r2, u2⟩, h2, h⟩ := Program.yields_bind.mp h
  obtain ⟨read, hagain, hcomes⟩ := comes_plan job.did hload.stands job.requested
  have h2 := (hcomes _).mp h2
  cases hplan : tables.planOn job.did xs job.requested with
  | error e =>
    rw [hplan] at h2
    cases h2
    cases h
    exact .unplanned hplan
  | ok plan =>
    rw [hplan] at h2
    cases h2
    dsimp only [Except.map] at h
    split_ifs at h with hnil hswap
    · cases h
      exact .nothing hplan hnil
    · exact works_sign hplan hnil hswap (hload.trans hagain) h
    · cases h
      exact .swapped hplan hnil (by simpa using hswap)

end

end Manapds
