import Manapds.Account.Linear

/-!
# The log behind the writes

A call of `write` waits for its account's turn, has `commit_writes` carried out on a blocking thread,
clears the disk behind the commit and has its entry appended to the log, on a blocking thread again.
It may be dropped at any of these awaits. What it has on a blocking thread runs on: `commit_writes`
with the turn, which is let go of at its end where nobody waits for it any longer, and an append
without, as the turn is then with the call.

A body is kept as it is before it is encoded.
-/

namespace Manapds

open QueryProgram

variable {Cid : Type}

/-- A commit was written. -/
structure Append (Cid : Type) where
  repo : Did
  commit : Cid
  rev : Tid
  since : Option Tid
  /-- The blocks of the file it carries, whose root is the commit. -/
  blocks : BlockMap Cid
  ops : List (Op Cid)
  prevData : Option Cid
  rebase : Bool
  tooBig : Bool
  blobs : List Cid

/-- The entry one commit puts in the log. -/
def recordsWritten (did : Did) (landed : Landed Cid) : Append Cid where
  repo := did
  commit := landed.root.cid
  rev := landed.root.rev
  since := some landed.since
  blocks := landed.blocks
  ops := landed.ops
  prevData := some landed.prevData
  rebase := false
  tooBig := false
  blobs := []

/-- How far a call with the turn has come. -/
inductive Stage (Cid : Type) where
  /-- `commit_writes` is at it, and the call waits for it or has been dropped. -/
  | committing (waits : Bool)
  | clearing (landed : Landed Cid)
  | appending
  | movingRoot

/-- An account's database, the calls that wait for its turn and the one that has it, the appends that
are on a blocking thread and the account's entries in the log. -/
structure Logging (Cid : Type) where
  world : World Cid
  waiting : ℕ → Option (Job Cid)
  turn : Option (ℕ × Stage Cid)
  appends : List (ℕ × Append Cid)
  log : List (Append Cid)

/-- What a write has landed, once it has. -/
def landedOf : Writes Cid (Outcome Cid) → Option (Landed Cid)
  | .done (.ok landed) => landed
  | _ => none

namespace Logging

/-- The commit that the call with the turn has landed and has not given to the log. -/
def unsent (s : Logging Cid) : Option (Landed Cid) :=
  match s.turn with
  | some (i, .committing _) => (s.world.writers i).bind fun writer => landedOf writer.rest
  | some (_, .clearing landed) => some landed
  | _ => none

/-- The writer is gone from the database. -/
def left (s : Logging Cid) (i : ℕ) : World Cid :=
  { s.world with writers := Function.update s.world.writers i none }

/-- The call that waits for an append goes on when it is done. -/
def appended (s : Logging Cid) (i : ℕ) : Option (ℕ × Stage Cid) :=
  match s.turn with
  | some (j, .appending) => some (j, if j = i then .movingRoot else .appending)
  | turn => turn

/-- What a step is, as far as it matters when it comes. -/
inductive Event where
  | land
  | drop
  | other

section

variable [Codec Cid] [DecidableEq Cid] [CidText Cid]

inductive Step (did : Did) (s : Logging Cid) : Event → Logging Cid → Prop where
  | call {i : ℕ} {job : Job Cid} (of : job.did = did) (fresh : s.waiting i = none)
      (idle : ∀ stage, s.turn ≠ some (i, stage)) (done : ∀ entry, (i, entry) ∉ s.appends) :
      Step did s .other { s with waiting := Function.update s.waiting i (some job) }
  | hangUp {i : ℕ} : Step did s .other { s with waiting := Function.update s.waiting i none }
  | take {i : ℕ} {job : Job Cid} (waits : s.waiting i = some job) (of : job.did = did)
      (free : s.turn = none) : Step did s .other { s with
        waiting := Function.update s.waiting i none, turn := some (i, .committing true),
        world := s.world.resume i job (commitWrites job) }
  | work {i : ℕ} {waits : Bool} {w : World Cid} (at_ : s.turn = some (i, .committing waits))
      (hs : World.Step did (some i) s.world w) (before : s.world.writers i ≠ none)
      (after : w.writers i ≠ none) (still : w.moved = s.world.moved) :
      Step did s .other { s with world := w }
  | land {i : ℕ} {waits : Bool} {w : World Cid} (at_ : s.turn = some (i, .committing waits))
      (hs : World.Step did (some i) s.world w) (lands : w.moved ≠ s.world.moved) :
      Step did s .land { s with world := w }
  /-- The key or the database will not be read. -/
  | refuse {i : ℕ} {waits : Bool} {job : Job Cid} {q : WriteQuery Cid}
      {next : q.Answer → Writes Cid (Outcome Cid)} (at_ : s.turn = some (i, .committing waits))
      (asks : s.world.writers i = some ⟨job, .ask q next⟩) :
      Step did s .other { s with world := s.left i, turn := none }
  | unheard {i : ℕ} {writer : Writer Cid} {outcome : Outcome Cid}
      (at_ : s.turn = some (i, .committing false)) (has : s.world.writers i = some writer)
      (ends : writer.rest = .done outcome) :
      Step did s .other { s with world := s.left i, turn := none }
  | nothing {i : ℕ} {writer : Writer Cid} {outcome : Outcome Cid}
      (at_ : s.turn = some (i, .committing true)) (has : s.world.writers i = some writer)
      (ends : writer.rest = .done outcome) (empty : landedOf writer.rest = none) :
      Step did s .other { s with world := s.left i, turn := none }
  | clear {i : ℕ} {writer : Writer Cid} {landed : Landed Cid}
      (at_ : s.turn = some (i, .committing true)) (has : s.world.writers i = some writer)
      (ends : landedOf writer.rest = some landed) :
      Step did s .other { s with world := s.left i, turn := some (i, .clearing landed) }
  | hand {i : ℕ} {landed : Landed Cid} (at_ : s.turn = some (i, .clearing landed)) :
      Step did s .other { s with
        turn := some (i, .appending), appends := s.appends ++ [(i, recordsWritten did landed)] }
  | append {i : ℕ} {entry : Append Cid} {pre post : List (ℕ × Append Cid)}
      (has : s.appends = pre ++ (i, entry) :: post) : Step did s .other { s with
        turn := s.appended i, appends := pre ++ post, log := s.log ++ [entry] }
  | answer {i : ℕ} (at_ : s.turn = some (i, .movingRoot)) : Step did s .other { s with turn := none }
  /-- A call is dropped and `commit_writes` runs on. -/
  | abandon {i : ℕ} (at_ : s.turn = some (i, .committing true)) :
      Step did s .drop { s with turn := some (i, .committing false) }
  | drop {i : ℕ} {stage : Stage Cid} (at_ : s.turn = some (i, stage))
      (has : ∀ waits, stage ≠ .committing waits) : Step did s .drop { s with turn := none }
  /-- Uploads and sweeps. -/
  | rest {w : World Cid} (hs : World.Step did none s.world w) : Step did s .other { s with world := w }

/-- A commit lands while its call waits for it, and the call stays until the log has it. -/
def Kept (s : Logging Cid) : Event → Prop
  | .land => ∃ i, s.turn = some (i, .committing true)
  | .drop => s.unsent = none ∧ ∀ i, s.turn ≠ some (i, .appending)
  | .other => True

/-- Any order of steps, or with `kept` any whose steps are all `Kept`. -/
inductive Reachable (did : Did) (kept : Bool) : Logging Cid → Prop where
  | founded {actor : ActorState Cid} : Founded did actor →
      Reachable did kept ⟨⟨actor, fun _ => none, []⟩, fun _ => none, none, [], []⟩
  | step {s s' : Logging Cid} {e : Event} : Reachable did kept s → Step did s e s' →
      (kept = true → s.Kept e) → Reachable did kept s'

end

/-- All work has finished. -/
def Idle (s : Logging Cid) : Prop := (∀ i, s.waiting i = none) ∧ s.turn = none ∧ s.appends = []

end Logging

/-! ## What a write has landed -/

section

variable [Codec Cid] [DecidableEq Cid] [CidText Cid] {did : Did} {w w' : World Cid} {i : ℕ}

/-- A write that has landed nothing. -/
inductive Job.Going (job : Job Cid) : Writes Cid (Outcome Cid) → Prop where
  | fresh (n : ℕ) : Going job (job.attempts n)
  | reading (n : ℕ) (rest : Program (ReadQuery Cid) ReadQuery.Answer
      (Except (AccountError Cid) (Option (Worked Cid)) × Unit)) :
      Going job (Job.underway (job.attempts n) rest)
  | refused (e : AccountError Cid) : Going job (.done (.error e))
  | nothing : Going job (.done (.ok none))

namespace Job.Going

variable {job : Job Cid} {p : Writes Cid (Outcome Cid)}

theorem landedOf_eq (h : job.Going p) : landedOf p = none := by
  cases h with
  | fresh n => cases n <;> rfl
  | reading n rest =>
    cases rest with
    | done r =>
      rcases r with ⟨e | worked, u⟩
      · rfl
      · cases worked <;> rfl
    | ask q next => rfl
  | refused e => rfl
  | nothing => rfl

theorem root {next : Option (Root Cid) → Writes Cid (Outcome Cid)}
    (h : job.Going (.ask .root next)) (x : Option (Root Cid)) : job.Going (next x) := by
  generalize hp : (Program.ask WriteQuery.root next : Writes Cid (Outcome Cid)) = p at h
  cases h with
  | fresh n =>
    cases n with
    | zero => cases hp
    | succ n =>
      cases hp
      cases x with
      | none => exact .refused _
      | some start => exact .reading n _
  | reading n rest => exact absurd hp Job.underway_ne_root
  | refused e => cases hp
  | nothing => cases hp

theorem read {q : ReadQuery Cid} {next : q.Answer → Writes Cid (Outcome Cid)}
    (h : job.Going (.ask (.read q) next)) (x : q.Answer) : job.Going (next x) := by
  generalize hp : (Program.ask (WriteQuery.read q) next : Writes Cid (Outcome Cid)) = p at h
  cases h with
  | fresh n => cases n <;> cases hp
  | reading n rest =>
    obtain ⟨next', rfl, hnext⟩ := Job.underway_eq_read hp
    rw [hnext]
    exact .reading n _
  | refused e => cases hp
  | nothing => cases hp

theorem commit {revision : Revision Cid}
    {next : Except (StoreError Cid) (Option (Committed Cid)) → Writes Cid (Outcome Cid)}
    (h : job.Going (.ask (.commit revision) next)) :
    (∀ committed, (landedOf (next (.ok (some committed)))).isSome) ∧
    ∀ answer, (∀ committed, answer ≠ .ok (some committed)) → job.Going (next answer) := by
  generalize hp : (Program.ask (WriteQuery.commit revision) next : Writes Cid (Outcome Cid)) = p at h
  cases h with
  | fresh n => cases n <;> cases hp
  | reading n rest =>
    obtain ⟨worked, rfl, hrevision, herror, hmoved, hlanded⟩ := Job.underway_eq_commit hp
    refine ⟨fun committed => ?_, ?_⟩
    · rw [hlanded]
      rfl
    intro answer hn
    rcases answer with e | landed
    · rw [herror]
      exact .refused _
    · cases landed with
      | none =>
        rw [hmoved]
        exact .fresh n
      | some committed => exact absurd rfl (hn committed)
  | refused e => cases hp
  | nothing => cases hp

end Job.Going

namespace World.Step

theorem of_none (hs : World.Step did none w w') : w'.writers = w.writers ∧ w'.moved = w.moved := by
  cases hs <;> exact ⟨rfl, rfl⟩

/-- A writer that lands nothing goes on. -/
theorem going (hs : World.Step did (some i) w w') {writer : Writer Cid}
    (hw : w.writers i = some writer) (hm : w'.moved = w.moved) (hw' : w'.writers i ≠ none) :
    ∃ rest, w'.writers = Function.update w.writers i (some ⟨writer.job, rest⟩) ∧
      landedOf writer.rest = none ∧ (writer.job.Going writer.rest → writer.job.Going rest) := by
  cases hs with
  | start hi => simp [hi] at hw
  | root hi =>
    obtain rfl := Option.some.inj (hi.symm.trans hw)
    exact ⟨_, rfl, rfl, fun h => h.root _⟩
  | read x hi =>
    obtain rfl := Option.some.inj (hi.symm.trans hw)
    exact ⟨_, rfl, rfl, fun h => h.read x⟩
  | landed => exact absurd hm (List.cons_ne_self _ _)
  | lost hi _ hn =>
    obtain rfl := Option.some.inj (hi.symm.trans hw)
    exact ⟨_, rfl, rfl, fun h => h.commit.2 _ hn⟩
  | fault e hi =>
    obtain rfl := Option.some.inj (hi.symm.trans hw)
    exact ⟨_, rfl, rfl, fun h => h.commit.2 _ (by simp)⟩
  | leave => simp at hw'

/-- A writer that lands something has landed nothing before, and is at its end. -/
theorem lands (hs : World.Step did (some i) w w') (hm : w'.moved ≠ w.moved) :
    ∃ (writer : Writer Cid) (rest : Writes Cid (Outcome Cid)) (m : Moved Cid),
      w.writers i = some writer ∧
      w'.writers = Function.update w.writers i (some ⟨writer.job, rest⟩) ∧
      w'.moved = m :: w.moved ∧ m.outcome = rest ∧ landedOf writer.rest = none ∧
      (writer.job.Going writer.rest → (landedOf rest).isSome) := by
  cases hs with
  | landed hi => exact ⟨_, _, _, hi, rfl, rfl, rfl, rfl, fun h => h.commit.1 _⟩
  | start | root | read | lost | fault | leave => exact absurd rfl hm

end World.Step

/-! ## What is on its way to the log -/

/-- What has landed, the first one first. -/
def World.landings (w : World Cid) : List (Landed Cid) :=
  w.moved.reverse.filterMap fun m => landedOf m.outcome

namespace Logging

/-- What is in the log, what is handed over for it and what is still to be sent. -/
def entries (did : Did) (s : Logging Cid) : List (Append Cid) :=
  s.log ++ s.appends.map Prod.snd ++ (s.unsent.map (recordsWritten did)).toList

/-- An append is that of the call with the turn, which waits for it. -/
def Pending (s : Logging Cid) : Prop :=
  s.appends = [] ∨ ∃ i entry, s.turn = some (i, .appending) ∧ s.appends = [(i, entry)]

structure Sound (did : Did) (s : Logging Cid) : Prop where
  world : World.Reachable did s.world
  working : ∀ i writer, s.world.writers i = some writer → ∃ waits,
    s.turn = some (i, .committing waits) ∧
    (writer.job.Going writer.rest ∨ waits = true ∧ (landedOf writer.rest).isSome)
  entries : s.entries did = s.world.landings.map (recordsWritten did)
  pending : s.Pending

variable {s s' : Logging Cid} {e : Event}

omit [Codec Cid] [DecidableEq Cid] [CidText Cid] in
theorem unsent_committing {waits : Bool} (h : s.turn = some (i, .committing waits)) :
    s.unsent = (s.world.writers i).bind fun writer => landedOf writer.rest := by
  simp only [unsent, h]

omit [Codec Cid] [DecidableEq Cid] [CidText Cid] in
/-- An append lets the call that waits for it go on, and nobody else. -/
theorem appended_eq (s : Logging Cid) (i : ℕ) {appends : List (ℕ × Append Cid)}
    {log : List (Append Cid)} :
    (∀ j waits, s.turn = some (j, .committing waits) → s.appended i = some (j, .committing waits)) ∧
    ({ s with turn := s.appended i, appends, log } : Logging Cid).unsent = s.unsent := by
  unfold unsent appended
  cases s.turn with
  | none => exact ⟨by simp, rfl⟩
  | some held =>
    rcases held with ⟨j, waits | landed | _ | _⟩
    · exact ⟨fun _ _ h => h, rfl⟩
    · exact ⟨by simp, rfl⟩
    · refine ⟨by simp, ?_⟩
      dsimp only
      split_ifs <;> rfl
    · exact ⟨by simp, rfl⟩

namespace Sound

/-- Where no call waits for one there is no append. -/
theorem appends_eq_nil (h : s.Sound did) (hn : ∀ i, s.turn ≠ some (i, .appending)) :
    s.appends = [] := by
  rcases h.pending with hp | ⟨i, entry, hturn, -⟩
  · exact hp
  · exact absurd hturn (hn i)

/-- Nothing lands, and nothing is sent or handed over. -/
theorem keep (h : s.Sound did) {w : World Cid} {waiting : ℕ → Option (Job Cid)}
    {turn : Option (ℕ × Stage Cid)} (hw : World.Reachable did w) (hm : w.moved = s.world.moved)
    (hworking : ∀ i writer, w.writers i = some writer → ∃ waits,
      turn = some (i, .committing waits) ∧
      (writer.job.Going writer.rest ∨ waits = true ∧ (landedOf writer.rest).isSome))
    (hu : (⟨w, waiting, turn, s.appends, s.log⟩ : Logging Cid).unsent = s.unsent)
    (hp : (⟨w, waiting, turn, s.appends, s.log⟩ : Logging Cid).Pending) :
    Sound did ⟨w, waiting, turn, s.appends, s.log⟩ := by
  refine ⟨hw, hworking, ?_, hp⟩
  rw [World.landings, hm, ← World.landings, ← h.entries, Logging.entries, Logging.entries, hu]

/-- Nobody but the call with the turn has a writer on the database. -/
theorem writers_eq_none (h : s.Sound did) (hi : ∀ waits, s.turn ≠ some (i, .committing waits)) :
    s.world.writers i = none := by
  cases hw : s.world.writers i with
  | none => rfl
  | some writer =>
    obtain ⟨waits, hturn, -⟩ := h.working i writer hw
    exact absurd hturn (hi waits)

theorem left_writers (h : s.Sound did) {stage : Stage Cid} (hi : s.turn = some (i, stage)) (j : ℕ) :
    (s.left i).writers j = none := by
  by_cases hj : j = i
  · rw [hj]
    exact Function.update_self ..
  · apply (Function.update_of_ne hj _ _).trans
    apply h.writers_eq_none
    intro waits hturn
    rw [hi] at hturn
    exact hj (congrArg Prod.fst (Option.some.inj hturn)).symm

/-- The call with the turn is done with the database. -/
theorem leave (h : s.Sound did) {waits : Bool} (hi : s.turn = some (i, .committing waits))
    {turn : Option (ℕ × Stage Cid)}
    (hu : ({ s with world := s.left i, turn := turn } : Logging Cid).unsent = s.unsent) :
    Sound did { s with world := s.left i, turn := turn } := by
  have hnil : s.appends = [] := h.appends_eq_nil (by simp [hi])
  apply h.keep (h.world.step .leave) rfl _ hu (Or.inl hnil)
  intro j writer hj
  have hnone := h.left_writers hi j
  exact absurd (hj.symm.trans hnone) (Option.some_ne_none writer)

/-- The call with the turn goes on to where it is on no database. -/
theorem turn (h : s.Sound did) (hi : ∀ j waits, s.turn ≠ some (j, .committing waits))
    {turn : Option (ℕ × Stage Cid)} {appends : List (ℕ × Append Cid)} {log : List (Append Cid)}
    (he : ({ s with turn, appends, log } : Logging Cid).entries did = s.entries did)
    (hp : ({ s with turn, appends, log } : Logging Cid).Pending) :
    Sound did { s with turn, appends, log } := by
  refine ⟨h.world, ?_, he.trans h.entries, hp⟩
  intro j writer hj
  obtain ⟨waits, hturn, -⟩ := h.working j writer hj
  exact absurd hturn (hi j waits)

theorem land (h : s.Sound did) {w : World Cid} (hi : s.turn = some (i, .committing true))
    (hs : World.Step did (some i) s.world w) (hm : w.moved ≠ s.world.moved) :
    Sound did { s with world := w } := by
  obtain ⟨writer, rest, m, hw, hwriters, hmoved, houtcome, hnone, hlands⟩ := hs.lands hm
  obtain ⟨waits, hturn, hgoing⟩ := h.working i writer hw
  have hsome : (landedOf rest).isSome := by
    rcases hgoing with hgoing | ⟨-, hlanded⟩
    · exact hlands hgoing
    · rw [hnone] at hlanded
      cases hlanded
  obtain ⟨landed, hlanded⟩ := Option.isSome_iff_exists.mp hsome
  refine ⟨h.world.step hs, ?_, ?_, h.pending⟩
  · intro j writer' hj
    replace hj : w.writers j = some writer' := hj
    rw [hwriters] at hj
    by_cases hji : j = i
    · subst hji
      rw [Function.update_self] at hj
      cases hj
      exact ⟨true, hi, Or.inr ⟨rfl, hsome⟩⟩
    · rw [Function.update_of_ne hji] at hj
      exact h.working j writer' hj
  · have hbefore : s.unsent = none := by rw [unsent_committing hi, hw, Option.bind_some, hnone]
    have hafter : ({ s with world := w } : Logging Cid).unsent = some landed := by
      rw [unsent_committing (s := { s with world := w }) hi, hwriters, Function.update_self,
        Option.bind_some, hlanded]
    have hentries := h.entries
    rw [Logging.entries, hbefore] at hentries
    rw [Logging.entries, hafter, World.landings, hmoved, List.reverse_cons, List.filterMap_append,
      List.map_append, ← World.landings, ← hentries]
    simp [houtcome, hlanded]

theorem work (h : s.Sound did) {waits : Bool} {w : World Cid}
    (hi : s.turn = some (i, .committing waits)) (hs : World.Step did (some i) s.world w)
    (hb : s.world.writers i ≠ none) (ha : w.writers i ≠ none) (hm : w.moved = s.world.moved) :
    Sound did { s with world := w } := by
  obtain ⟨writer, hw⟩ := Option.ne_none_iff_exists'.mp hb
  obtain ⟨rest, hwriters, hnone, hgoing⟩ := hs.going hw hm ha
  obtain ⟨waits, hturn, hstill⟩ := h.working i writer hw
  have hgoes : writer.job.Going rest := by
    rcases hstill with hstill | ⟨-, hlanded⟩
    · exact hgoing hstill
    · rw [hnone] at hlanded
      cases hlanded
  apply h.keep (h.world.step hs) hm _ _ h.pending
  · intro j writer' hj
    rw [hwriters] at hj
    by_cases hji : j = i
    · subst hji
      rw [Function.update_self] at hj
      cases hj
      exact ⟨waits, hturn, Or.inl hgoes⟩
    · rw [Function.update_of_ne hji] at hj
      exact h.working j writer' hj
  · rw [unsent_committing (s := { s with world := w }) hi, unsent_committing hi, hw, hwriters,
      Function.update_self, Option.bind_some, Option.bind_some, hnone, hgoes.landedOf_eq]

theorem step (h : s.Sound did) (hs : Step did s e s') (hk : s.Kept e) : s'.Sound did := by
  cases hs with
  | call | hangUp => exact ⟨h.world, h.working, h.entries, h.pending⟩
  | @take i job waits of free =>
    have hnone : ∀ j, s.world.writers j = none := by
      intro j
      apply h.writers_eq_none
      simp [free]
    have hnil : s.appends = [] := h.appends_eq_nil (by simp [free])
    apply h.keep (h.world.step (.start (hnone i) of)) rfl _ _ (Or.inl hnil)
    · intro j writer hj
      by_cases hji : j = i
      · subst hji
        obtain rfl : (⟨job, commitWrites job⟩ : Writer Cid) = writer := by
          simpa [World.resume] using hj
        exact ⟨true, rfl, Or.inl (.fresh maxAttempts)⟩
      · simp [World.resume, hji, hnone] at hj
    · have hunsent : s.unsent = none := by simp [unsent, free]
      rw [hunsent, unsent_committing rfl]
      simp only [World.resume, Function.update_self, Option.bind_some]
      exact (Job.Going.fresh maxAttempts).landedOf_eq
  | work at_ hs before after still => exact h.work at_ hs before after still
  | land at_ hs lands =>
    obtain ⟨i, hi⟩ := hk
    obtain ⟨rfl, -⟩ := Prod.mk.inj (Option.some.inj (hi.symm.trans at_))
    exact h.land hi hs lands
  | refuse at_ asks =>
    apply h.leave at_
    rw [unsent_committing at_, asks]
    rfl
  | unheard at_ has ends =>
    apply h.leave at_
    obtain ⟨waits, hturn, hgoing⟩ := h.working _ _ has
    obtain rfl : false = waits := by simpa using at_.symm.trans hturn
    have hnone := hgoing.resolve_right (by simp)
    rw [unsent_committing at_, has, Option.bind_some, hnone.landedOf_eq]
    rfl
  | nothing at_ has ends empty =>
    apply h.leave at_
    rw [unsent_committing at_, has, Option.bind_some, empty]
    rfl
  | clear at_ has ends =>
    apply h.leave at_
    rw [unsent_committing at_, has, Option.bind_some, ends]
    rfl
  | hand at_ =>
    have hnil : s.appends = [] := h.appends_eq_nil (by simp [at_])
    apply h.turn
    · simp [at_]
    · simp [Logging.entries, unsent, at_]
    · exact Or.inr ⟨_, _, rfl, by rw [hnil, List.nil_append]⟩
  | @append i entry pre post has =>
    -- What is appended is all there is to append, as no other call has had the turn since.
    obtain ⟨rfl, rfl⟩ : pre = [] ∧ post = [] := by
      rcases h.pending with hp | ⟨j, held, -, hp⟩
      · exact absurd (has.symm.trans hp) (by simp)
      · have hlen := congrArg List.length (has.symm.trans hp)
        rw [List.length_append, List.length_cons, List.length_singleton] at hlen
        exact ⟨List.eq_nil_of_length_eq_zero (by omega), List.eq_nil_of_length_eq_zero (by omega)⟩
    obtain ⟨hcommitting, hunsent⟩ := appended_eq s i
    refine ⟨h.world, ?_, ?_, Or.inl rfl⟩
    · intro j writer hj
      obtain ⟨waits, hturn, hgoing⟩ := h.working j writer hj
      exact ⟨waits, hcommitting j waits hturn, hgoing⟩
    · have hentries := h.entries
      rw [Logging.entries, has] at hentries
      rw [Logging.entries, hunsent, ← hentries]
      simp
  | answer at_ =>
    have hnil : s.appends = [] := h.appends_eq_nil (by simp [at_])
    apply h.turn
    · simp [at_]
    · simp [Logging.entries, unsent, at_]
    · exact Or.inl hnil
  | @abandon i at_ =>
    replace hk : s.unsent = none := hk.1
    have hnil : s.appends = [] := h.appends_eq_nil (by simp [at_])
    refine h.keep h.world rfl ?_ ?_ (Or.inl hnil)
    · intro j writer hj
      obtain ⟨waits, hturn, hgoing⟩ := h.working j writer hj
      obtain ⟨rfl, -⟩ := Prod.mk.inj (Option.some.inj (hturn.symm.trans at_))
      refine ⟨false, rfl, Or.inl ?_⟩
      rcases hgoing with hgoing | ⟨-, hlanded⟩
      · exact hgoing
      · rw [unsent_committing at_, hj, Option.bind_some] at hk
        rw [hk] at hlanded
        cases hlanded
    · rw [unsent_committing at_, unsent_committing rfl]
  | drop at_ has =>
    obtain ⟨hunsent, hwaits⟩ := hk
    apply h.turn
    · intro j waits hturn
      obtain ⟨-, hstage⟩ := Prod.mk.inj (Option.some.inj (hturn.symm.trans at_))
      exact has waits hstage.symm
    · rw [Logging.entries, Logging.entries, hunsent]
      rfl
    · exact Or.inl (h.appends_eq_nil hwaits)
  | rest hs =>
    obtain ⟨hwriters, hmoved⟩ := hs.of_none
    apply h.keep (h.world.step hs) hmoved _ _ h.pending
    · intro j writer hj
      rw [hwriters] at hj
      exact h.working j writer hj
    · simp only [unsent, hwriters]

end Sound

end Logging

/-! ## What the log tells -/

/-- An entry tells a commit that landed, and the commit there was before it. -/
structure Append.Tells (did : Did) (entry : Append Cid) (m : Moved Cid) : Prop where
  repo : entry.repo = did
  commit : entry.commit = m.revision.root.cid
  rev : entry.rev = m.revision.root.rev
  blocks : entry.blocks = m.revision.written
  previous : ∃ (root : Root Cid) (commit : Commit Cid), m.before.repoRoot = some root ∧
    commit.IsAt root.cid ∧ commit.rev = root.rev ∧ entry.since = some commit.rev ∧
    entry.prevData = some commit.data

/-- An entry is of the commit that landed next after the one another is of. -/
structure Append.Follows (later earlier : Append Cid) : Prop where
  rev : earlier.rev < later.rev
  previous : ∃ commit : Commit Cid, commit.IsAt earlier.commit ∧ commit.rev = earlier.rev ∧
    later.since = some commit.rev ∧ later.prevData = some commit.data

/-- The log follows the commits: its entries tell those that landed one by one, from the first one
on, and all of them once all work has finished. -/
structure Logging.Follows (did : Did) (s : Logging Cid) : Prop where
  told : ∃ rest, List.Forall₂ (Append.Tells did) (s.log ++ rest) s.world.moved.reverse ∧
    (s.Idle → rest = [])
  ordered : s.log.Pairwise fun earlier later => earlier.rev < later.rev
  linked : s.log.IsChain fun earlier later => later.Follows earlier

theorem isChain_of_forall₂ {α β : Type} {R : α → β → Prop} {S : β → β → Prop} {T : α → α → Prop}
    {as : List α} {bs : List β} (h : List.Forall₂ R as bs) (hc : bs.IsChain S)
    (ht : ∀ a a' b b', R a b → R a' b' → S b b' → T a a') : as.IsChain T := by
  induction h with
  | nil => exact List.IsChain.nil
  | @cons a b as bs hab hrest ih =>
    cases hrest with
    | nil => exact List.IsChain.singleton a
    | cons hab' hrest' =>
      rw [List.isChain_cons_cons] at hc ⊢
      exact ⟨ht _ _ _ _ hab hab' hc.1, ih hc.2⟩

namespace Moved.Lands

variable {m m' : Moved Cid} {repo repo' next next' : Repo Cid} {ℓ ℓ₁ ℓ' ℓ₁' : ℕ}
  {xs xs₁ xs' xs₁' : List (Leaf Cid)} {worked worked' : Worked Cid} {entry entry' : Append Cid}

theorem tells (h : m.Lands did repo ℓ xs worked next ℓ₁ xs₁) :
    ∃ landed, landedOf m.outcome = some landed ∧ (recordsWritten did landed).Tells did m := by
  obtain ⟨committed, houtcome⟩ := h.outcome
  obtain ⟨start, -, -, hworks⟩ := h.alone
  obtain ⟨_, _, _, _, _, _, _, -, -, -, -, -, -, hsince, hprev⟩ := hworks.exists_apply
  refine ⟨worked.landed committed, ?_, rfl, ?_, ?_, ?_, _, repo.commit, h.before.root,
    h.before.stands.commit, rfl, ?_, ?_⟩
  · rw [houtcome]
    rfl
  · rw [h.revision]
    rfl
  · rw [h.revision]
    rfl
  · rw [h.revision]
    rfl
  · exact congrArg some hsince
  · exact congrArg some hprev

theorem follows (h : m.Lands did repo ℓ xs worked next ℓ₁ xs₁)
    (h' : m'.Lands did repo' ℓ' xs' worked' next' ℓ₁' xs₁') (hs : m.after.Same m'.before)
    (ht : entry.Tells did m) (ht' : entry'.Tells did m') : entry'.Follows entry := by
  obtain ⟨root, commit, hroot, hat, hrev, hsince, hprev⟩ := ht'.previous
  have hafter : m.revision.root = root := by
    rw [h.revision, h.root]
    exact Option.some.inj (h.after.root.symm.trans (hs.repoRoot.symm.trans hroot))
  have hbefore : (⟨repo'.cid, repo'.rev⟩ : Root Cid) = root :=
    Option.some.inj (h'.before.root.symm.trans hroot)
  refine ⟨?_, commit, ?_, ?_, hsince, hprev⟩
  · rw [ht.rev, ht'.rev, hafter, ← hbefore, h'.revision, h'.root]
    exact h'.rev
  · rw [ht.commit, hafter]
    exact hat
  · rw [ht.rev, hafter]
    exact hrev

end Moved.Lands

namespace Logging

variable [LawfulCodec Cid] {s : Logging Cid}

theorem Sound.follows (h : s.Sound did) : s.Follows did := by
  have hworld := h.world.sound
  have htold : List.Forall₂ (fun entry m => Append.Tells did entry m ∧ ∃ repo ℓ xs worked next ℓ' xs',
      m.Lands did repo ℓ xs worked next ℓ' xs') (s.entries did) s.world.moved.reverse := by
    rw [h.entries, World.landings]
    have hlands : ∀ m ∈ s.world.moved.reverse, ∃ repo ℓ xs worked next ℓ' xs',
        m.Lands did repo ℓ xs worked next ℓ' xs' := by
      intro m hm
      exact hworld.lands m (List.mem_reverse.mp hm)
    generalize s.world.moved.reverse = ms at hlands
    induction ms with
    | nil => exact .nil
    | cons m ms ih =>
      have hm := hlands m List.mem_cons_self
      obtain ⟨_, _, _, _, _, _, _, hl⟩ := id hm
      obtain ⟨landed, hlanded, htells⟩ := hl.tells
      simp only [List.filterMap_cons, hlanded, List.map_cons]
      exact .cons ⟨htells, hm⟩ (ih fun m' hm' => hlands m' (List.mem_cons_of_mem _ hm'))
  have hchain : (s.entries did).IsChain fun earlier later => later.Follows earlier := by
    apply isChain_of_forall₂ htold (List.isChain_reverse.mpr hworld.chain)
    rintro entry entry' m m' ⟨ht, _, _, _, _, _, _, _, hl⟩ ⟨ht', _, _, _, _, _, _, _, hl'⟩ hsame
    exact hl.follows hl' hsame ht ht'
  rw [Logging.entries, List.append_assoc] at htold hchain
  have hlinked := hchain.left_of_append
  refine ⟨⟨_, htold.imp fun _ _ h => h.1, ?_⟩, ?_, hlinked⟩
  · rintro ⟨-, hturn, happends⟩
    have hunsent : s.unsent = none := by simp [unsent, hturn]
    rw [happends, hunsent]
    rfl
  · have hrevs : (s.log.map fun entry => entry.rev.str).IsChain (· < ·) :=
      (List.isChain_map _).mpr (hlinked.imp fun _ _ h => h.rev)
    have hpairs : s.log.Pairwise fun earlier later => earlier.rev.str < later.rev.str :=
      List.pairwise_map.mp hrevs.pairwise
    exact hpairs

omit [LawfulCodec Cid] in
theorem Reachable.sound (h : Reachable did true s) : s.Sound did := by
  induction h with
  | founded hf =>
    refine ⟨.founded hf, ?_, rfl, Or.inl rfl⟩
    intro i writer hi
    cases hi
  | step _ hs hk ih => exact ih.step hs (hk rfl)

/-- The log of an account follows its commits in every run in which no call is dropped from the
landing of its commit until the log has it. -/
theorem log_follows (h : Reachable did true s) : s.Follows did := h.sound.follows

/-! ## Runs -/

namespace Reachable

variable {kept : Bool}

omit [LawfulCodec Cid] in
theorem goes {waits : Bool} {w : World Cid} (h : Reachable did kept s)
    (hi : s.turn = some (i, .committing waits)) (hg : World.Goes did i s.world w) :
    Reachable did kept { s with world := w } := by
  induction hg with
  | refl => exact h
  | step _ hs hm hw hw' ih => exact ih.step (.work hi hs hw hw' hm) fun _ => trivial

variable {repo : Repo Cid} {ℓ : ℕ} {xs xs' : List (Leaf Cid)} {requested : List (Requested Cid)}
  {plan : Plan Cid}

/-- A call that finds the turn free lands a batch whose plan finds its keys as it wants them, and is
still there or has been dropped before. -/
theorem exists_committed (h : Reachable did kept s) (waits : Bool)
    (hwaiting : ∀ j, s.waiting j = none) (hturn : s.turn = none)
    (hdone : ∀ entry, (i, entry) ∉ s.appends) (hk : kept = true → waits = true)
    (hc : s.world.actor.tables.Carries did repo ℓ xs) (hroom : repo.rev.toParts.1 < Tid.ceiling)
    (hplan : s.world.actor.tables.planOn did xs requested = .ok plan) (hne : plan.writes ≠ [])
    (hn : ∀ write ∈ plan.writes, write.named = true) (hl : leavesAfter plan.writes xs = some xs')
    (hb : ∀ record ∈ plan.index, record.blobs = []) :
    ∃ (s' : Logging Cid) (writer : Writer Cid) (landed : Landed Cid) (next : Repo Cid) (ℓ' : ℕ),
      Reachable did kept s' ∧ s'.world.moved.length = s.world.moved.length + 1 ∧
      (∀ j, s'.waiting j = none) ∧ s'.turn = some (i, .committing waits) ∧
      s'.appends = s.appends ∧ s'.log = s.log ∧ s'.world.writers i = some writer ∧
      writer.rest = .done (.ok (some landed)) ∧ landed.root = ⟨next.cid, next.rev⟩ ∧
      s'.world.actor.tables.Carries did next ℓ' xs' ∧
      next.rev.toParts.1 = repo.rev.toParts.1 + 1 := by
  obtain ⟨job, hjob⟩ : ∃ job : Job Cid, job = ⟨did, ⟨fun _ => []⟩, requested, none,
    roundsFor ℓ xs xs'⟩ := ⟨_, rfl⟩
  have hdid : job.did = did := by rw [hjob]
  have hasked := h.step (.call (i := i) hdid (hwaiting i) (by simp [hturn]) hdone) fun _ => trivial
  have htaken := hasked.step (.take (i := i) (by simp) hdid hturn) fun _ => trivial
  have hheard : ∃ s₁ : Logging Cid, Reachable did kept s₁ ∧ s₁.world.actor = s.world.actor ∧
      s₁.world.moved = s.world.moved ∧ s₁.world.writers i = some ⟨job, commitWrites job⟩ ∧
      (∀ j, s₁.waiting j = none) ∧ s₁.turn = some (i, .committing waits) ∧
      s₁.appends = s.appends ∧ s₁.log = s.log := by
    have hidle : ∀ j, Function.update (Function.update s.waiting i (some job)) i none j = none := by
      intro j
      rw [Function.update_idem]
      by_cases hj : j = i
      · rw [hj, Function.update_self]
      · rw [Function.update_of_ne hj, hwaiting]
    cases waits with
    | true => exact ⟨_, htaken, rfl, rfl, by simp [World.resume], hidle, rfl, rfl, rfl⟩
    | false =>
      have hleft := htaken.step (.abandon rfl) fun h => absurd (hk h) (by simp)
      exact ⟨_, hleft, rfl, rfl, by simp [World.resume], hidle, rfl, rfl, rfl⟩
  obtain ⟨s₁, hs, hactor, hmoved, hwriter, hidle, hturn', happends, hlog⟩ := hheard
  rw [← hactor] at hc hplan
  obtain ⟨w, worked, answered, committed, actor, next, ℓ', hgoes, hactor', hmoved', hw, houtcome,
    -, -, -, hcommit, hcarries, hrev⟩ := World.exists_ready hc hroom hjob hwriter hplan hne hn hl
      (ActorState.ready_of_blobless hb)
  rw [← hactor'] at hcommit
  obtain ⟨_, -, -, htables, -, -⟩ := ActorState.commit_landed hcommit
  have hroot : worked.revision.root = ⟨next.cid, next.rev⟩ := by
    have hheld := hcarries.root
    rw [htables] at hheld
    exact Option.some.inj hheld
  have hlanded := (hs.goes hturn' hgoes).step
    (.land hturn' (.landed hw hcommit) (List.cons_ne_self _ _)) ?_
  · refine ⟨_, ⟨job, answered (.ok (some committed))⟩, worked.landed committed, next, ℓ', hlanded, ?_,
      hidle, hturn', happends, hlog, by simp, houtcome, hroot, hcarries, hrev⟩
    simp [hmoved', hmoved]
  · intro h
    refine ⟨i, ?_⟩
    rw [← hk h]
    exact hturn'

omit [LawfulCodec Cid] in
/-- A call that has landed its commit hands it over to be appended. -/
theorem hands (h : Reachable did kept s) (hturn : s.turn = some (i, .committing true))
    {writer : Writer Cid} {landed : Landed Cid} (hw : s.world.writers i = some writer)
    (hrest : writer.rest = .done (.ok (some landed))) : Reachable did kept { s with
      world := s.left i, turn := some (i, .appending),
      appends := s.appends ++ [(i, recordsWritten did landed)] } := by
  have hlanded : landedOf writer.rest = some landed := by
    rw [hrest]
    rfl
  have hcleared := h.step (.clear hturn hw hlanded) fun _ => trivial
  exact hcleared.step (.hand rfl) fun _ => trivial

/-- A call that is left alone has its commit in the log when it answers. -/
theorem exists_logged (h : Reachable did kept s) (hidle : s.Idle)
    (hc : s.world.actor.tables.Carries did repo ℓ xs) (hroom : repo.rev.toParts.1 < Tid.ceiling)
    (hplan : s.world.actor.tables.planOn did xs requested = .ok plan) (hne : plan.writes ≠ [])
    (hn : ∀ write ∈ plan.writes, write.named = true) (hl : leavesAfter plan.writes xs = some xs')
    (hb : ∀ record ∈ plan.index, record.blobs = []) :
    ∃ (s' : Logging Cid) (next : Repo Cid) (ℓ' : ℕ), Reachable did kept s' ∧ s'.Idle ∧
      s'.world.moved.length = s.world.moved.length + 1 ∧ s'.log.length = s.log.length + 1 ∧
      s'.world.actor.tables.Carries did next ℓ' xs' ∧
      next.rev.toParts.1 = repo.rev.toParts.1 + 1 := by
  obtain ⟨hwaiting, hturn, happends⟩ := hidle
  obtain ⟨s', writer, landed, next, ℓ', hs, hmoved, hwaiting', hturn', happends', hlog, hw, hrest,
    -, hcarries, hrev⟩ := h.exists_committed (i := 0) true hwaiting hturn (by simp [happends])
      (fun _ => rfl) hc hroom hplan hne hn hl hb
  have hhanded := hs.hands hturn' hw hrest
  have hpending : s'.appends ++ [(0, recordsWritten did landed)] =
      [] ++ (0, recordsWritten did landed) :: [] := by simp [happends', happends]
  have happended := hhanded.step (.append hpending) fun _ => trivial
  have hanswered := happended.step (.answer (i := 0) rfl) fun _ => trivial
  refine ⟨_, next, ℓ', hanswered, ⟨hwaiting', rfl, rfl⟩, hmoved, ?_, hcarries, hrev⟩
  rw [List.length_append, hlog, List.length_singleton]

end Reachable

end Logging

end

section

open DagCbor

namespace Logging

/-- A call dropped while its write is on the blocking thread: the commit lands, and no entry of the
log is of it. -/
theorem not_log_follows : ∃ s : Logging RawCid, Reachable recordDid false s ∧ s.Idle ∧
    s.world.moved.length = 1 ∧ s.log = [] ∧ ¬s.Follows recordDid := by
  obtain ⟨actor, repo, hf, hc, hroom⟩ := exists_first_founded
  obtain ⟨plan, hplan, hne, hnamed, hleaves, hblobs⟩ := exists_first_plan actor.tables
  have hfounded : Reachable recordDid false
      ⟨⟨actor, fun _ => none, []⟩, fun _ => none, none, [], []⟩ := .founded hf
  obtain ⟨s, writer, landed, next, ℓ', hs, hmoved, hwaiting, hturn, happends, hlog, hw, hrest, -⟩ :=
    hfounded.exists_committed (i := 0) false (fun _ => rfl) rfl (by simp) (by simp) hc
      (Nat.lt_of_succ_lt hroom) hplan hne hnamed hleaves hblobs
  have hended := hs.step (.unheard hturn hw hrest) (by simp)
  refine ⟨_, hended, ⟨hwaiting, rfl, happends⟩, hmoved, hlog, ?_⟩
  rintro ⟨⟨rest, htold, hall⟩, -, -⟩
  have hlen := htold.length_eq
  rw [hall ⟨hwaiting, rfl, happends⟩, hlog, List.length_reverse] at hlen
  have hone : (s.left 0).moved.length = 1 := hmoved
  rw [hone] at hlen
  cases hlen

/-- A call dropped while its append is on the blocking thread: the commit that lands next can have
its entry in the log ahead of it. -/
theorem not_log_ordered : ∃ s : Logging RawCid, Reachable recordDid false s ∧ s.Idle ∧
    ∃ earlier later, s.log = [later, earlier] ∧ earlier.rev < later.rev := by
  obtain ⟨actor, repo, hf, hc, hroom⟩ := exists_first_founded
  obtain ⟨plan, hplan, hne, hnamed, hleaves, hblobs⟩ := exists_first_plan actor.tables
  have hfounded : Reachable recordDid false
      ⟨⟨actor, fun _ => none, []⟩, fun _ => none, none, [], []⟩ := .founded hf
  obtain ⟨s, writer, landed, next, ℓ, hs, -, hwaiting, hturn, happends, hlog, hw, hrest, hroot, hc',
    hrev⟩ := hfounded.exists_committed (i := 0) true (fun _ => rfl) rfl (by simp) (by simp) hc
      (Nat.lt_of_succ_lt hroom) hplan hne hnamed hleaves hblobs
  have hdropped := (hs.hands hturn hw hrest).step (.drop rfl (by simp)) (by simp)
  obtain ⟨plan', hplan', hne', hnamed', hleaves', hblobs'⟩ :=
    exists_second_plan s.world.actor.tables
  obtain ⟨s', writer', landed', next', _, hs', -, hwaiting', hturn', happends', hlog', hw', hrest',
    hroot', -, hrev'⟩ := hdropped.exists_committed (i := 1) true hwaiting rfl
      (by simp [happends]) (by simp) hc' (hrev.trans_lt hroom) hplan' hne' hnamed' hleaves' hblobs'
  have hhanded := hs'.hands hturn' hw' hrest'
  -- The second one's entry is appended, and the first one's after it.
  have hboth : s'.appends ++ [(1, recordsWritten recordDid landed')] =
      [(0, recordsWritten recordDid landed)] ++ (1, recordsWritten recordDid landed') :: [] := by
    simp [happends', happends]
  have hlater := hhanded.step (.append hboth) (by simp)
  have hanswered := hlater.step (.answer (i := 1) rfl) (by simp)
  have hleft : [(0, recordsWritten recordDid landed)] ++ [] =
      [] ++ (0, recordsWritten recordDid landed) :: [] := rfl
  have hearlier := hanswered.step (.append hleft) (by simp)
  refine ⟨_, hearlier, ⟨hwaiting', rfl, rfl⟩, recordsWritten recordDid landed,
    recordsWritten recordDid landed', ?_, ?_⟩
  · simp [hlog', hlog]
  · change landed.root.rev < landed'.root.rev
    rw [hroot, hroot']
    have hparts : next.rev.toParts.1 < next'.rev.toParts.1 := by omega
    exact (Tid.lt_iff_toParts_lt _ _).mpr (Prod.Lex.toLex_lt_toLex.mpr (Or.inl hparts))

/-- A database two writes have landed in, with the entries of both in the log. -/
theorem exists_second_logged : ∃ s : Logging RawCid, Reachable recordDid true s ∧ s.Idle ∧
    s.world.moved.length = 2 ∧ s.log.length = 2 := by
  obtain ⟨actor, repo, hf, hc, hroom⟩ := exists_first_founded
  obtain ⟨plan, hplan, hne, hnamed, hleaves, hblobs⟩ := exists_first_plan actor.tables
  have hfounded : Reachable recordDid true
      ⟨⟨actor, fun _ => none, []⟩, fun _ => none, none, [], []⟩ := .founded hf
  obtain ⟨s, next, ℓ, hs, hidle, hmoved, hlog, hc', hrev⟩ := hfounded.exists_logged
    ⟨fun _ => rfl, rfl, rfl⟩ hc (Nat.lt_of_succ_lt hroom) hplan hne hnamed hleaves hblobs
  obtain ⟨plan', hplan', hne', hnamed', hleaves', hblobs'⟩ :=
    exists_second_plan s.world.actor.tables
  obtain ⟨s', _, _, hs', hidle', hmoved', hlog', -, -⟩ := hs.exists_logged hidle hc'
    (hrev.trans_lt hroom) hplan' hne' hnamed' hleaves' hblobs'
  exact ⟨s', hs', hidle', hmoved'.trans (congrArg Nat.succ hmoved),
    hlog'.trans (congrArg Nat.succ hlog)⟩

/-- Two writes whose calls stay have their entries in the log, the second one after the first. -/
theorem log_follows_first : ∃ s : Logging RawCid, s.Idle ∧ s.world.moved.length = 2 ∧
    s.log.length = 2 ∧ s.Follows recordDid := by
  obtain ⟨s, hs, hidle, hmoved, hlog⟩ := exists_second_logged
  exact ⟨s, hidle, hmoved, hlog, log_follows hs⟩

end Logging

end

end Manapds
