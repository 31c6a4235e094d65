import Manapds.Store.Accounts

/-!
# Refresh tokens

A refresh token is exchanged for its successor, whose ID the first exchange draws and writes down
beside the shortened life of the token. A run is any sequence of the calls that open, exchange,
revoke and expire sessions, each whole under the lock on the accounts.

Exchanging a token again writes its successor again where it is not there, so a successor revoked
within the grace of the token before it can come back. Where no call does that, a revocation is
final and every exchange of a token arrives at one successor.
-/

namespace Manapds

open Table

/-- How long a refresh token that has been exchanged stays usable. -/
def grace : ℕ := 2 * 3600 * 1000000000

def refreshLifetime : ℕ := 90 * 24 * 3600 * 1000000000

namespace Accounts

variable (db : Accounts)

inductive Pass where
  | refused
  | exchanged (next : TokenSession)
  | again

/-- One pass of the loop that exchanges a token, with the time it reads and the ID it would draw. -/
def rotatePass (id : Str) (now : Timestamp) (draw : Str) : Pass × Accounts :=
  match db.session id with
  | none => (.refused, db)
  | some session =>
    let db := db.expireSessions session.did now
    let expiresAt := min session.expiresAt (now + grace)
    if expiresAt ≤ now then (.refused, db)
    else
      let next : TokenSession := ⟨session.nextId.getD draw, session.did, now + refreshLifetime, none,
        session.appPassword⟩
      match db.rotate id expiresAt next with
      | (true, db) => (.exchanged next, db)
      | (false, db) => (.again, db)

/-- The passes of the loop, as many as there are readings for; nothing where they run out. -/
def rotatePasses (id : Str) : Accounts → List (Timestamp × Str) →
    Option (Option TokenSession × Accounts)
  | _, [] => none
  | db, (now, draw) :: more =>
    match db.rotatePass id now draw with
    | (.refused, db) => some (none, db)
    | (.exchanged next, db) => some (some next, db)
    | (.again, db) => rotatePasses id db more

/-- Where one pass of an exchange ends, on a table with a row for each ID. -/
inductive Rotated (db : Accounts) (id : Str) (now : Timestamp) (draw : Str) :
    Pass → Accounts → Prop where
  | unknown (hrow : db.row id = none) : Rotated db id now draw .refused db
  | lapsed {row : TokenRow} (hrow : db.row id = some row) (hexp : row.expiresAt ≤ stamp now) :
      Rotated db id now draw .refused (db.expireSessions row.did now)
  | exchanged {row : TokenRow} (hrow : db.row id = some row) (hexp : stamp now < row.expiresAt)
      {next : TokenSession} (hid : next.id = row.nextId.getD draw) (hdid : next.did = row.did)
      (hlife : next.expiresAt = now + refreshLifetime) (hpassword : next.appPassword = db.joined row)
      {until' : Timestamp} (huntil : until' = min (Timestamp.parse row.expiresAt) (now + grace)) :
      Rotated db id now draw (.exchanged next)
        (((db.expireSessions row.did now).exchanged id until' next.id).storeSession next)

variable {db}

/-- The first pass settles an exchange: under the lock no other comes between. -/
theorem rotated (hk : Keyed TokenRow.id db.refreshToken) (id : Str) (now : Timestamp) (draw : Str) :
    Rotated db id now draw (db.rotatePass id now draw).1 (db.rotatePass id now draw).2 := by
  unfold rotatePass
  cases hrow : db.row id with
  | none =>
    have hs : db.session id = none := by rw [session, ← row, hrow, Option.map_none]
    rw [hs]
    exact .unknown hrow
  | some row =>
    have hs : db.session id = some ⟨id, row.did, Timestamp.parse row.expiresAt, row.nextId,
        db.joined row⟩ := by rw [session, ← Accounts.row, hrow, Option.map_some]
    simp only [hs]
    by_cases hexp : row.expiresAt ≤ stamp now
    · have hmin : min (Timestamp.parse row.expiresAt) (now + grace) ≤ now :=
        (Nat.min_le_left _ _).trans (le_stamp_iff.mp hexp)
      simp only [if_pos hmin]
      exact .lapsed hrow hexp
    · have hmin : ¬min (Timestamp.parse row.expiresAt) (now + grace) ≤ now := by
        have hlt : now < Timestamp.parse row.expiresAt := by
          rwa [le_stamp_iff, not_le] at hexp
        have hgrace : now < now + grace := Nat.lt_add_of_pos_right (by decide)
        exact not_le.mpr (lt_min hlt hgrace)
      simp only [if_neg hmin]
      have hheld : (db.expireSessions row.did now).refreshToken.any
          (heldBy id (row.nextId.getD draw)) = true := by
        refine (any_heldBy (hk.filter _ _)).mpr ⟨row, ?_, ?_⟩
        · rw [row_expireSessions hk, hrow]
          simp [Accounts.lapsed, not_le.mp hexp]
        · cases row.nextId <;> simp
      simp only [rotate, hheld, if_true]
      exact .exchanged hrow (not_le.mp hexp) rfl rfl rfl rfl rfl

end Accounts

/-! ## Runs -/

inductive TokenCall where
  /-- `open_session`, with the ID it draws. -/
  | opening (did : Did) (appPassword : Option AppPassword) (draw : Str)
  /-- `refresh_session`, with the ID it would draw. -/
  | refresh (id draw : Str)
  /-- `revoke_session`. -/
  | revoke (id : Str)
  /-- `expire_sessions`. -/
  | expire (did : Did)

/-- A call, at the time its clock shows. -/
structure TokenStep where
  now : Timestamp
  call : TokenCall

inductive TokenAnswer where
  | opened (id : Str)
  | refreshed (next : Option TokenSession)
  | revoked (held : Bool)
  | expired

/-- The token an answer hands out. -/
def TokenAnswer.hands : TokenAnswer → Option Str
  | .opened id => some id
  | .refreshed next => next.map TokenSession.id
  | _ => none

/-- The ID a call draws. -/
def TokenCall.draw : TokenCall → Option Str
  | .opening _ _ draw => some draw
  | .refresh _ draw => some draw
  | _ => none

/-- The ID a call is made with. -/
def TokenCall.target : TokenCall → Option Str
  | .refresh id _ => some id
  | .revoke id => some id
  | _ => none

/-- The ID a call revokes. -/
def TokenCall.revokes : TokenCall → List Str
  | .revoke id => [id]
  | _ => []

theorem TokenCall.eq_of_mem_revokes {call : TokenCall} {id : Str} (h : id ∈ call.revokes) :
    call = .revoke id := by
  cases call with
  | revoke id' => rw [List.mem_singleton.mp h]
  | _ => cases h

def Accounts.openSession (db : Accounts) (did : Did) (appPassword : Option AppPassword)
    (now : Timestamp) (draw : Str) : Accounts :=
  db.storeSession ⟨draw, did, now + refreshLifetime, none, appPassword⟩

def Accounts.call (db : Accounts) (step : TokenStep) : TokenAnswer × Accounts :=
  match step.call with
  | .opening did appPassword draw =>
    (.opened draw, db.openSession did appPassword step.now draw)
  | .refresh id draw =>
    match db.rotatePasses id [(step.now, draw)] with
    | some (next, db) => (.refreshed next, db)
    | none => (.refreshed none, db)
  | .revoke id => (.revoked (db.revokeSession id).1, (db.revokeSession id).2)
  | .expire did => (.expired, db.expireSessions did step.now)

/-- A call with the tables before and after it. -/
structure TokenTurn where
  before : Accounts
  step : TokenStep
  answer : TokenAnswer
  after : Accounts

def Accounts.turns : Accounts → List TokenStep → List TokenTurn
  | _, [] => []
  | db, step :: steps =>
    ⟨db, step, (db.call step).1, (db.call step).2⟩ :: (db.call step).2.turns steps

/-- The IDs a run has come across. -/
def TokenCall.ids (call : TokenCall) : List Str := call.draw.toList ++ call.target.toList

/-- Every draw is an ID that never came up before. -/
def FreshFrom : List Str → List TokenStep → Prop
  | _, [] => True
  | seen, step :: steps =>
    (∀ draw ∈ step.call.draw, draw ∉ seen ∧ step.call.target ≠ some draw) ∧
      FreshFrom (step.call.ids ++ seen) steps

/-- A run from a database that holds no session yet. -/
structure TokenRun (db : Accounts) (steps : List TokenStep) : Prop where
  start : db.refreshToken = []
  clock : (steps.map TokenStep.now).Pairwise (· ≤ ·)
  fresh : FreshFrom [] steps

namespace TokenTurn

variable (t : TokenTurn)

/-- The call exchanged a token for this one. -/
def Exchanges (id : Str) (next : TokenSession) : Prop :=
  t.step.call.target = some id ∧ t.answer = .refreshed (some next)

/-- The call exchanges a token that is within its life and names a successor that is gone. -/
def Revives (gone : Str) : Prop :=
  ∃ id draw row, t.step.call = .refresh id draw ∧ t.before.row id = some row ∧
    t.step.now < Timestamp.parse row.expiresAt ∧ row.nextId = some gone ∧
    t.before.row gone = none

end TokenTurn

/-- What is promised of the tokens of a run. -/
structure TokensFinal (turns : List TokenTurn) : Prop where
  one_successor : ∀ t ∈ turns, ∀ t' ∈ turns, ∀ id next next', t.Exchanges id next →
    t'.Exchanges id next' → next.id = next'.id
  never_longer : ∀ t ∈ turns, ∀ id draw row row', t.step.call = .refresh id draw →
    t.before.row id = some row → t.after.row id = some row' → row'.expiresAt ≤ row.expiresAt
  revoked : turns.Pairwise fun t t' => ∀ id, t.step.call = .revoke id →
    t'.answer.hands ≠ some id ∧ ∀ next, ¬t'.Exchanges id next

/-! ## One call -/

namespace Accounts

variable {db : Accounts} {seen revoked : List Str} {id : Str} {now now' : Timestamp}
  {step : TokenStep}

theorem nextId_cases {named : Option Str} {next draw : Str} (hid : next = named.getD draw) :
    named = none ∨ named = some next := by
  rw [hid]
  cases named <;> simp

/-- The row of every ID after an exchange. -/
theorem row_of_exchange (hk : Keyed TokenRow.id db.refreshToken) {row : TokenRow}
    (hrow : db.row id = some row) (hexp : stamp now < row.expiresAt) {next : TokenSession}
    (hid : row.nextId = none ∨ row.nextId = some next.id) (until' : Timestamp) (k : Str) :
    (((db.expireSessions row.did now).exchanged id until' next.id).storeSession next).row k =
      if k = id then some { row with expiresAt := stamp until', nextId := some next.id }
      else ((db.row k).filter fun r => !lapsed row.did now r).or
        (if next.id = k then some next.row else none) := by
  rw [row_storeSession, row_exchanged, row_expireSessions hk]
  by_cases hkid : k = id
  · subst hkid
    have hheld : heldBy k next.id row = true := by
      simpa [heldBy, key_of_find hrow] using hid
    rw [hrow, if_pos rfl]
    simp [lapsed, hexp, hheld]
  · rw [if_neg hkid]
    apply congrArg (fun r => Option.or r _)
    cases hr : db.row k with
    | none => rfl
    | some r =>
      have hheld : heldBy id next.id r = false := by
        simp [heldBy, key_of_find hr, hkid]
      by_cases hl : lapsed row.did now r = true
      · simp [Option.filter, hl]
      · simp [Option.filter, hl, hheld]

/-- A row after an exchange is the one exchanged, one that was there, or the successor's. -/
theorem of_row_of_exchange (hk : Keyed TokenRow.id db.refreshToken) {row : TokenRow}
    (hrow : db.row id = some row) (hexp : stamp now < row.expiresAt) {next : TokenSession}
    (hid : row.nextId = none ∨ row.nextId = some next.id) (until' : Timestamp) (k : Str)
    (r : TokenRow)
    (hr : (((db.expireSessions row.did now).exchanged id until' next.id).storeSession next).row k =
      some r) :
    (k = id ∧ r = { row with expiresAt := stamp until', nextId := some next.id }) ∨
      (k ≠ id ∧ db.row k = some r) ∨
      (k = next.id ∧ k ≠ id ∧ r = next.row ∧ ∀ q, db.row k = some q → q.expiresAt ≤ stamp now) := by
  rw [row_of_exchange hk hrow hexp hid] at hr
  by_cases hkid : k = id
  · rw [if_pos hkid] at hr
    exact Or.inl ⟨hkid, (Option.some.inj hr).symm⟩
  · rw [if_neg hkid, Option.or_eq_some_iff] at hr
    rcases hr with hr | ⟨hnone, hr⟩
    · exact Or.inr (Or.inl ⟨hkid, (Option.filter_eq_some_iff.mp hr).1⟩)
    · rw [Option.ite_none_right_eq_some] at hr
      refine Or.inr (Or.inr ⟨hr.1.symm, hkid, (Option.some.inj hr.2).symm, fun q hq => ?_⟩)
      rw [hq, Option.filter_eq_none_iff] at hnone
      have hlapsed := hnone q rfl
      simp only [lapsed, Bool.not_eq_true, Bool.not_eq_false', Bool.and_eq_true,
        decide_eq_true_eq] at hlapsed
      exact hlapsed.2

theorem stamp_until {text : ℕ} {until' : Timestamp}
    (huntil : until' = min (Timestamp.parse text) (now + grace)) :
    stamp until' = min text (stamp (now + grace)) := by
  have hmono : Monotone stamp := fun _ _ hab => stamp_mono hab
  rw [huntil, hmono.map_min, stamp_parse]

/-- What holds between the calls of a run that has come across `seen` and revoked `revoked`. A token
that names a successor keeps at most its grace, so its successor outlives it, and where that
successor is gone before it was revoked. -/
structure SoundTokens (seen revoked : List Str) (now : Timestamp) (db : Accounts) : Prop where
  keyed : Keyed TokenRow.id db.refreshToken
  mem_seen : ∀ k r, db.row k = some r → k ∈ seen
  next_seen : ∀ k r n, db.row k = some r → r.nextId = some n → n ∈ seen
  graced : ∀ k r n, db.row k = some r → r.nextId = some n → r.expiresAt ≤ stamp (now + grace)
  outlived : ∀ k r n q, db.row k = some r → r.nextId = some n → db.row n = some q →
    r.expiresAt ≤ q.expiresAt
  missing : ∀ k r n, db.row k = some r → r.nextId = some n → db.row n = none →
    n ∈ revoked ∨ r.expiresAt ≤ stamp now

namespace SoundTokens

theorem start (h : db.refreshToken = []) : SoundTokens [] [] now db := by
  have hrow : ∀ k, db.row k = none := by
    intro k
    rw [row, h, find_nil]
  refine ⟨?_, ?_, ?_, ?_, ?_, ?_⟩
  · rw [h]
    exact keyed_nil _
  all_goals simp [hrow]

variable (h : SoundTokens seen revoked now db)

include h

theorem later (hle : now ≤ now') : SoundTokens seen revoked now' db := by
  refine ⟨h.keyed, h.mem_seen, h.next_seen, fun k r n hr hn => ?_, h.outlived,
    fun k r n hr hn hq => ?_⟩
  · exact (h.graced k r n hr hn).trans (stamp_mono (Nat.add_le_add_right hle grace))
  · exact (h.missing k r n hr hn hq).imp_right fun hl => hl.trans (stamp_mono hle)

theorem seeing {seen' : List Str} (hs : seen ⊆ seen') : SoundTokens seen' revoked now db :=
  ⟨h.keyed, fun k r hr => hs (h.mem_seen k r hr), fun k r n hr hn => hs (h.next_seen k r n hr hn),
    h.graced, h.outlived, h.missing⟩

theorem opening {session : TokenSession} (hm : session.id ∈ seen)
    (hlife : session.expiresAt = now + refreshLifetime) :
    SoundTokens seen revoked now (db.storeSession session) := by
  have hnew : ∀ k r, (db.storeSession session).row k = some r → db.row k = some r ∨
      (k = session.id ∧ r = session.row) := by
    intro k r hr
    rw [row_storeSession, Option.or_eq_some_iff] at hr
    rcases hr with hr | ⟨-, hr⟩
    · exact Or.inl hr
    · rw [Option.ite_none_right_eq_some] at hr
      exact Or.inr ⟨hr.1.symm, (Option.some.inj hr.2).symm⟩
  have hold : ∀ k r n, (db.storeSession session).row k = some r → r.nextId = some n →
      db.row k = some r := by
    intro k r n hr hn
    rcases hnew k r hr with hr | ⟨-, rfl⟩
    · exact hr
    · cases hn
  refine ⟨keyed_storeSession h.keyed session, fun k r hr => ?_, fun k r n hr hn => ?_,
    fun k r n hr hn => ?_, fun k r n q hr hn hq => ?_, fun k r n hr hn hq => ?_⟩
  · rcases hnew k r hr with hr | ⟨rfl, -⟩
    · exact h.mem_seen k r hr
    · exact hm
  · exact h.next_seen k r n (hold k r n hr hn) hn
  · exact h.graced k r n (hold k r n hr hn) hn
  · rcases hnew n q hq with hq | ⟨-, rfl⟩
    · exact h.outlived k r n q (hold k r n hr hn) hn hq
    · rw [TokenSession.row, hlife]
      apply (h.graced k r n (hold k r n hr hn) hn).trans
      exact stamp_mono (Nat.add_le_add_left (by decide) now)
  · rw [row_storeSession, Option.or_eq_none_iff] at hq
    exact h.missing k r n (hold k r n hr hn) hn hq.1

theorem revoking (id : Str) : SoundTokens seen (id :: revoked) now (db.revokeSession id).2 := by
  have hold : ∀ k r, (db.revokeSession id).2.row k = some r → db.row k = some r := by
    intro k r hr
    rw [row_revokeSession] at hr
    split_ifs at hr
    exact hr
  refine ⟨h.keyed.delete id, fun k r hr => h.mem_seen k r (hold k r hr),
    fun k r n hr hn => h.next_seen k r n (hold k r hr) hn,
    fun k r n hr hn => h.graced k r n (hold k r hr) hn,
    fun k r n q hr hn hq => h.outlived k r n q (hold k r hr) hn (hold n q hq),
    fun k r n hr hn hq => ?_⟩
  by_cases hni : n = id
  · exact Or.inl (hni ▸ List.mem_cons_self)
  · rw [row_revokeSession, if_neg hni] at hq
    exact (h.missing k r n (hold k r hr) hn hq).imp_left (List.mem_cons_of_mem id)

theorem expiring (did : Did) : SoundTokens seen revoked now (db.expireSessions did now) := by
  have hold : ∀ k r, (db.expireSessions did now).row k = some r → db.row k = some r := by
    intro k r hr
    rw [row_expireSessions h.keyed, Option.filter_eq_some_iff] at hr
    exact hr.1
  refine ⟨h.keyed.filter _ _, fun k r hr => h.mem_seen k r (hold k r hr),
    fun k r n hr hn => h.next_seen k r n (hold k r hr) hn,
    fun k r n hr hn => h.graced k r n (hold k r hr) hn,
    fun k r n q hr hn hq => h.outlived k r n q (hold k r hr) hn (hold n q hq),
    fun k r n hr hn hq => ?_⟩
  rw [row_expireSessions h.keyed, Option.filter_eq_none_iff] at hq
  cases hn' : db.row n with
  | none => exact h.missing k r n (hold k r hr) hn hn'
  | some q =>
    have hlapsed := hq q hn'
    simp only [lapsed, Bool.not_eq_true, Bool.not_eq_false', Bool.and_eq_true,
      decide_eq_true_eq] at hlapsed
    exact Or.inr ((h.outlived k r n q (hold k r hr) hn hn').trans hlapsed.2)

theorem exchanging {row : TokenRow} (hrow : db.row id = some row) (hexp : stamp now < row.expiresAt)
    {draw : Str} (hdraw : db.row draw = none) {next : TokenSession}
    (hid : next.id = row.nextId.getD draw) (hlife : next.expiresAt = now + refreshLifetime)
    {until' : Timestamp} (huntil : until' = min (Timestamp.parse row.expiresAt) (now + grace))
    (hm : next.id ∈ seen) : SoundTokens seen revoked now
      (((db.expireSessions row.did now).exchanged id until' next.id).storeSession next) := by
  have hnext := nextId_cases hid
  have hcases := of_row_of_exchange h.keyed hrow hexp hnext until'
  have hstamp := stamp_until huntil
  have hlong : stamp (now + grace) ≤ next.row.expiresAt := by
    rw [TokenSession.row, hlife]
    exact stamp_mono (Nat.add_le_add_left (by decide) now)
  have hgraced : ∀ k r n, (((db.expireSessions row.did now).exchanged id until'
      next.id).storeSession next).row k = some r → r.nextId = some n →
      r.expiresAt ≤ stamp (now + grace) := by
    intro k r n hr hn
    rcases hcases k r hr with ⟨-, rfl⟩ | ⟨-, hr⟩ | ⟨-, -, rfl, -⟩
    · exact hstamp.le.trans (Nat.min_le_right _ _)
    · exact h.graced k r n hr hn
    · cases hn
  refine ⟨keyed_storeSession (keyed_exchanged (h.keyed.filter _ _) until' next.id) next,
    fun k r hr => ?_, fun k r n hr hn => ?_, hgraced, fun k r n q hr hn hq => ?_,
    fun k r n hr hn hq => ?_⟩
  · rcases hcases k r hr with ⟨rfl, -⟩ | ⟨-, hr⟩ | ⟨rfl, -⟩
    · exact h.mem_seen k row hrow
    · exact h.mem_seen k r hr
    · exact hm
  · rcases hcases k r hr with ⟨-, rfl⟩ | ⟨-, hr⟩ | ⟨-, -, rfl, -⟩
    · rwa [← Option.some.inj hn]
    · exact h.next_seen k r n hr hn
    · cases hn
  · have hg := hgraced k r n hr hn
    rcases hcases n q hq with ⟨rfl, rfl⟩ | ⟨hni, hq⟩ | ⟨-, -, rfl, -⟩
    · -- The successor is itself exchanged here, and keeps its grace at least.
      rcases hcases k r hr with ⟨-, rfl⟩ | ⟨-, hr⟩ | ⟨-, -, rfl, -⟩
      · exact le_rfl
      · change r.expiresAt ≤ stamp until'
        rw [hstamp]
        exact le_min (h.outlived k r n row hr hn hrow) hg
      · cases hn
    · rcases hcases k r hr with ⟨-, rfl⟩ | ⟨-, hr⟩ | ⟨-, -, rfl, -⟩
      · obtain rfl : next.id = n := Option.some.inj hn
        rcases hnext with hnone | hsome
        · rw [hid, hnone, Option.getD_none, hdraw] at hq
          cases hq
        · apply (hstamp.le.trans (Nat.min_le_left _ _)).trans
          exact h.outlived id row next.id q hrow hsome hq
      · exact h.outlived k r n q hr hn hq
      · cases hn
    · exact hg.trans hlong
  · have hnot := row_of_exchange h.keyed hrow hexp hnext until' n
    rw [hq] at hnot
    by_cases hni : n = id
    · rw [if_pos hni] at hnot
      cases hnot
    · rw [if_neg hni, eq_comm, Option.or_eq_none_iff, Option.filter_eq_none_iff] at hnot
      rcases hcases k r hr with ⟨-, rfl⟩ | ⟨-, hr⟩ | ⟨-, -, rfl, -⟩
      · rw [if_pos (Option.some.inj hn)] at hnot
        cases hnot.2
      · cases hn' : db.row n with
        | none => exact h.missing k r n hr hn hn'
        | some q =>
          have hlapsed := hnot.1 q hn'
          simp only [lapsed, Bool.not_eq_true, Bool.not_eq_false', Bool.and_eq_true,
            decide_eq_true_eq] at hlapsed
          exact Or.inr ((h.outlived k r n q hr hn hn').trans hlapsed.2)
      · cases hn

end SoundTokens

/-- What each call does and answers. -/
inductive Called (db : Accounts) (now : Timestamp) : TokenCall → TokenAnswer → Accounts → Prop where
  | opening (did : Did) (appPassword : Option AppPassword) (draw : Str) :
      Called db now (.opening did appPassword draw) (.opened draw)
        (db.openSession did appPassword now draw)
  | unknown {id draw : Str} (hrow : db.row id = none) :
      Called db now (.refresh id draw) (.refreshed none) db
  | lapsed {id draw : Str} {row : TokenRow} (hrow : db.row id = some row)
      (hexp : row.expiresAt ≤ stamp now) :
      Called db now (.refresh id draw) (.refreshed none) (db.expireSessions row.did now)
  | exchanged {id draw : Str} {row : TokenRow} {next : TokenSession} {until' : Timestamp}
      (hrow : db.row id = some row) (hexp : stamp now < row.expiresAt)
      (hid : next.id = row.nextId.getD draw) (hlife : next.expiresAt = now + refreshLifetime)
      (huntil : until' = min (Timestamp.parse row.expiresAt) (now + grace)) :
      Called db now (.refresh id draw) (.refreshed (some next))
        (((db.expireSessions row.did now).exchanged id until' next.id).storeSession next)
  | revoke (id : Str) :
      Called db now (.revoke id) (.revoked (db.revokeSession id).1) (db.revokeSession id).2
  | expire (did : Did) : Called db now (.expire did) .expired (db.expireSessions did now)

theorem called (hk : Keyed TokenRow.id db.refreshToken) (step : TokenStep) :
    Called db step.now step.call (db.call step).1 (db.call step).2 := by
  obtain ⟨now, call⟩ := step
  cases call with
  | opening did appPassword draw => exact .opening did appPassword draw
  | refresh id draw =>
    have hr := rotated hk id now draw
    simp only [Accounts.call, rotatePasses]
    generalize db.rotatePass id now draw = p at hr
    obtain ⟨pass, after⟩ := p
    cases hr with
    | unknown hrow => exact .unknown hrow
    | lapsed hrow hexp => exact .lapsed hrow hexp
    | exchanged hrow hexp hid hdid hlife hpassword huntil =>
      exact .exchanged hrow hexp hid hlife huntil
  | revoke id => exact .revoke id
  | expire did => exact .expire did

theorem SoundTokens.call (h : SoundTokens seen revoked now db) (hle : now ≤ step.now)
    (hfresh : ∀ draw ∈ step.call.draw, draw ∉ seen ∧ step.call.target ≠ some draw) :
    SoundTokens (step.call.ids ++ seen) (step.call.revokes ++ revoked) step.now
      (db.call step).2 := by
  have hcalled := called h.keyed step
  obtain ⟨time, call⟩ := step
  have hnow := (h.later hle).seeing (List.subset_append_right call.ids seen)
  generalize (db.call ⟨time, call⟩).1 = answer at hcalled
  generalize (db.call ⟨time, call⟩).2 = after at hcalled
  cases hcalled with
  | opening did appPassword draw => exact hnow.opening (by simp [TokenCall.ids, TokenCall.draw]) rfl
  | unknown hrow => exact hnow
  | lapsed hrow hexp => exact hnow.expiring _
  | @exchanged id draw row next until' hrow hexp hid hlife huntil =>
    have hdraw : db.row draw = none := by
      cases hr : db.row draw with
      | none => rfl
      | some r => exact absurd (h.mem_seen draw r hr) (hfresh draw rfl).1
    refine hnow.exchanging hrow hexp hdraw hid hlife huntil ?_
    rw [hid]
    cases hn : row.nextId with
    | none => simp [TokenCall.ids, TokenCall.draw]
    | some n => exact List.mem_append_right _ (h.next_seen id row n hrow hn)
  | revoke id => exact hnow.revoking id
  | expire did => exact hnow.expiring did

variable {call : TokenCall} {answer : TokenAnswer} {after : Accounts}

/-- A token is handed out by the call that draws its ID, or by an exchange of one that names it. -/
theorem Called.hands (h : Called db now call answer after) {k : Str}
    (hk : answer.hands = some k) : call.draw = some k ∨ ∃ id draw row, call = .refresh id draw ∧
      db.row id = some row ∧ stamp now < row.expiresAt ∧ row.nextId = some k := by
  cases h with
  | opening did appPassword draw => exact Or.inl hk
  | @exchanged id draw row next until' hrow hexp hid hlife huntil =>
    have hnext : next.id = k := Option.some.inj hk
    rw [hid] at hnext
    cases hn : row.nextId with
    | none =>
      rw [hn, Option.getD_none] at hnext
      exact Or.inl (congrArg some hnext)
    | some n =>
      rw [hn, Option.getD_some] at hnext
      exact Or.inr ⟨id, draw, row, rfl, hrow, hexp, hn.trans (congrArg some hnext)⟩
  | unknown hrow => cases hk
  | lapsed hrow hexp => cases hk
  | revoke id => cases hk
  | expire did => cases hk

theorem Called.hands_of_live {id draw n : Str} {row : TokenRow}
    (h : Called db now (.refresh id draw) answer after) (hrow : db.row id = some row)
    (hexp : stamp now < row.expiresAt) (hn : row.nextId = some n) : answer.hands = some n := by
  cases h with
  | unknown hr =>
    rw [hrow] at hr
    cases hr
  | lapsed hr hl =>
    obtain rfl := Option.some.inj (hr.symm.trans hrow)
    exact absurd hl (not_le.mpr hexp)
  | exchanged hr _ hid =>
    obtain rfl := Option.some.inj (hr.symm.trans hrow)
    rw [hn, Option.getD_some] at hid
    exact congrArg some hid

/-- Where no successor comes back, no ID the run has come across does, and a token that names its
successor goes on naming it. -/
theorem Called.follows (h : Called db now call answer after) (hs : SoundTokens seen revoked now db)
    (hfresh : ∀ draw ∈ call.draw, draw ∉ seen)
    (hno : ∀ id draw row n, call = .refresh id draw → db.row id = some row →
      stamp now < row.expiresAt → row.nextId = some n → db.row n ≠ none)
    {k : Str} (hm : k ∈ seen) {r' : TokenRow} (hr' : after.row k = some r') :
    ∃ r, db.row k = some r ∧ ∀ n, r.nextId = some n → r'.nextId = some n := by
  cases h with
  | opening did appPassword draw =>
    have hne : draw ≠ k := fun he => hfresh draw rfl (he ▸ hm)
    rw [openSession, row_storeSession, if_neg hne, Option.or_none] at hr'
    exact ⟨r', hr', fun _ hn => hn⟩
  | unknown hrow => exact ⟨r', hr', fun _ hn => hn⟩
  | lapsed hrow hexp =>
    rw [row_expireSessions hs.keyed, Option.filter_eq_some_iff] at hr'
    exact ⟨r', hr'.1, fun _ hn => hn⟩
  | @exchanged id draw row next until' hrow hexp hid hlife huntil =>
    have hnext := nextId_cases hid
    rcases of_row_of_exchange hs.keyed hrow hexp hnext until' k r' hr' with
      ⟨rfl, rfl⟩ | ⟨-, hr⟩ | ⟨rfl, -, -, hlapsed⟩
    · refine ⟨row, hrow, fun n hn => ?_⟩
      rcases hnext with hnone | hsome
      · rw [hnone] at hn
        cases hn
      · exact hsome.symm.trans hn
    · exact ⟨r', hr, fun _ hn => hn⟩
    · exfalso
      rcases hnext with hnone | hsome
      · rw [hid, hnone, Option.getD_none] at hm
        exact hfresh draw rfl hm
      · obtain ⟨q, hq⟩ := Option.ne_none_iff_exists'.mp (hno id draw row next.id rfl hrow hexp hsome)
        have hle := hs.outlived id row next.id q hrow hsome hq
        have hpast := hlapsed q hq
        omega
  | revoke id =>
    rw [row_revokeSession] at hr'
    split_ifs at hr'
    exact ⟨r', hr', fun _ hn => hn⟩
  | expire did =>
    rw [row_expireSessions hs.keyed, Option.filter_eq_some_iff] at hr'
    exact ⟨r', hr'.1, fun _ hn => hn⟩

theorem Called.shorter {id draw : Str} {row row' : TokenRow} (hk : Keyed TokenRow.id db.refreshToken)
    (h : Called db now (.refresh id draw) answer after) (hrow : db.row id = some row)
    (hrow' : after.row id = some row') : row'.expiresAt ≤ row.expiresAt := by
  cases h with
  | unknown _ =>
    rw [hrow] at hrow'
    exact (Option.some.inj hrow') ▸ le_rfl
  | lapsed _ _ =>
    rw [row_expireSessions hk, Option.filter_eq_some_iff, hrow] at hrow'
    exact (Option.some.inj hrow'.1) ▸ le_rfl
  | @exchanged _ _ r next until' hr hexp hid hlife huntil =>
    obtain rfl : r = row := Option.some.inj (hr.symm.trans hrow)
    have hnext := nextId_cases hid
    rw [row_of_exchange hk hr hexp hnext, if_pos rfl] at hrow'
    rw [← Option.some.inj hrow']
    exact (stamp_until huntil).le.trans (Nat.min_le_left _ _)

/-! ## Whole runs -/

theorem Called.of_exchanges (h : Called db now call answer after)
    (hk : Keyed TokenRow.id db.refreshToken) {id : Str} {next : TokenSession}
    (ht : call.target = some id) (ha : answer = .refreshed (some next)) : ∃ row,
    db.row id = some row ∧ (∀ n, row.nextId = some n → next.id = n) ∧
      ∃ row', after.row id = some row' ∧ row'.nextId = some next.id := by
  cases h with
  | @exchanged id' draw row next' until' hrow hexp hid hlife huntil =>
    obtain rfl : id' = id := Option.some.inj ht
    obtain rfl : next' = next := by
      cases ha
      rfl
    have hnext := nextId_cases hid
    refine ⟨row, hrow, fun n hn => ?_, _, (row_of_exchange hk hrow hexp hnext until' _).trans
      (if_pos rfl), rfl⟩
    rw [hid, hn, Option.getD_some]
  | _ => cases ha

section

variable {steps : List TokenStep} (h : SoundTokens seen revoked now db)
  (hclock : (now :: steps.map TokenStep.now).Pairwise (· ≤ ·)) (hfresh : FreshFrom seen steps)

include h hclock hfresh

/-- What a run without a comeback does with an ID it has come across: gone, it stays gone; and once
it names a successor it names no other. -/
theorem settled_of_turns (hno : ∀ t ∈ db.turns steps, ∀ n, ¬t.Revives n) {k : Str}
    (hm : k ∈ seen) : ∀ t ∈ db.turns steps,
      (db.row k = none → t.answer.hands ≠ some k ∧ ∀ next, ¬t.Exchanges k next) ∧
      ∀ r n, db.row k = some r → r.nextId = some n → ∀ next, t.Exchanges k next → next.id = n := by
  induction steps generalizing db seen revoked now with
  | nil => simp [turns]
  | cons step steps ih =>
    have hle : now ≤ step.now := List.rel_of_pairwise_cons hclock (by simp)
    have hcalled := called h.keyed step
    have hrevives := hno _ List.mem_cons_self
    intro t ht
    rcases List.mem_cons.mp ht with rfl | ht
    · refine ⟨fun hnone => ⟨fun hands => ?_, fun next he => ?_⟩, fun r n hr hn next he => ?_⟩
      · rcases hcalled.hands hands with hdraw | ⟨id, draw, row, hcall, hrow, hexp, hn⟩
        · exact (hfresh.1 k hdraw).1 hm
        · refine hrevives k ⟨id, draw, row, hcall, hrow, ?_, hn, hnone⟩
          rwa [← not_le, le_stamp_iff, not_le] at hexp
      · obtain ⟨row, hrow, -⟩ := hcalled.of_exchanges h.keyed he.1 he.2
        rw [hnone] at hrow
        cases hrow
      · obtain ⟨row, hrow, hnext, -⟩ := hcalled.of_exchanges h.keyed he.1 he.2
        obtain rfl := Option.some.inj (hr.symm.trans hrow)
        exact hnext n hn
    · have hlive : ∀ id draw row n, step.call = .refresh id draw → db.row id = some row →
          stamp step.now < row.expiresAt → row.nextId = some n → db.row n ≠ none := by
        intro id draw row n hcall hrow hexp hn hgone
        refine hrevives n ⟨id, draw, row, hcall, hrow, ?_, hn, hgone⟩
        rwa [← not_le, le_stamp_iff, not_le] at hexp
      have hfollows : ∀ r', (db.call step).2.row k = some r' → ∃ r, db.row k = some r ∧
          ∀ n, r.nextId = some n → r'.nextId = some n := fun r' =>
        hcalled.follows (h.later hle) (fun d hd => (hfresh.1 d hd).1) hlive hm
      have hnext := ih (h.call hle hfresh.1) (List.Pairwise.of_cons hclock) hfresh.2
        (fun t ht => hno t (List.mem_cons_of_mem _ ht)) (List.mem_append_right step.call.ids hm) t ht
      cases hafter : (db.call step).2.row k with
      | none =>
        have hgone := hnext.1 hafter
        exact ⟨fun _ => hgone, fun _ _ _ _ next he => absurd he (hgone.2 next)⟩
      | some r' =>
        obtain ⟨r, hr, hkeep⟩ := hfollows r' hafter
        refine ⟨fun hnone => ?_, fun r₀ n hr₀ hn => ?_⟩
        · rw [hnone] at hr
          cases hr
        · obtain rfl := Option.some.inj (hr.symm.trans hr₀)
          exact hnext.2 r' n hafter (hkeep n hn)

theorem final_of_no_comeback (hno : ∀ t ∈ db.turns steps, ∀ n, ¬t.Revives n) :
    TokensFinal (db.turns steps) := by
  induction steps generalizing db seen revoked now with
  | nil => exact ⟨by simp [turns], by simp [turns], List.Pairwise.nil⟩
  | cons step steps ih =>
    have hle : now ≤ step.now := List.rel_of_pairwise_cons hclock (by simp)
    have hcalled := called h.keyed step
    have hsound := h.call hle hfresh.1
    have hno' : ∀ t ∈ (db.call step).2.turns steps, ∀ n, ¬t.Revives n :=
      fun t ht => hno t (List.mem_cons_of_mem _ ht)
    have hrest := ih hsound (List.Pairwise.of_cons hclock) hfresh.2 hno'
    have hseen := fun k (hk : k ∈ step.call.ids ++ seen) =>
      settled_of_turns hsound (List.Pairwise.of_cons hclock) hfresh.2 hno' hk
    -- The token this call exchanges goes on naming the successor it was exchanged for.
    have hhead : ∀ t ∈ (db.call step).2.turns steps, ∀ id next next', step.call.target = some id →
        (db.call step).1 = .refreshed (some next) → t.Exchanges id next' → next.id = next'.id := by
      intro t ht id next next' htarget hanswer he
      obtain ⟨-, -, -, row', hrow', hn⟩ := hcalled.of_exchanges h.keyed htarget hanswer
      have hids : id ∈ step.call.ids ++ seen :=
        List.mem_append_left _ (List.mem_append_right _ (by simp [htarget]))
      exact ((hseen id hids t ht).2 row' next.id hrow' hn next' he).symm
    refine ⟨fun t ht t' ht' id next next' he he' => ?_, fun t ht id draw row row' hc hr hr' => ?_,
      List.pairwise_cons.mpr ⟨fun t ht id hc => ?_, hrest.revoked⟩⟩
    · rcases List.mem_cons.mp ht with rfl | ht
      · rcases List.mem_cons.mp ht' with rfl | ht'
        · cases he.2.symm.trans he'.2
          rfl
        · exact hhead t' ht' id next next' he.1 he.2 he'
      · rcases List.mem_cons.mp ht' with rfl | ht'
        · exact (hhead t ht id next' next he'.1 he'.2 he).symm
        · exact hrest.one_successor t ht t' ht' id next next' he he'
    · rcases List.mem_cons.mp ht with rfl | ht
      · have hcalled' : Called db step.now (.refresh id draw) _ _ := hc ▸ hcalled
        exact hcalled'.shorter h.keyed hr hr'
      · exact hrest.never_longer t ht id draw row row' hc hr hr'
    · have hcall : step.call = .revoke id := hc
      have hids : id ∈ step.call.ids ++ seen := by
        rw [hcall]
        simp [TokenCall.ids, TokenCall.draw, TokenCall.target]
      have hgone : (db.call step).2.row id = none := by
        have hrevoke : Called db step.now (.revoke id) _ (db.call step).2 := hcall ▸ hcalled
        generalize (db.call step).1 = answer, (db.call step).2 = after at hrevoke
        cases hrevoke
        rw [row_revokeSession, if_pos rfl]
      exact (hseen id hids t ht).1 hgone

/-- A successor that comes back was revoked. -/
theorem no_comeback_of_final
    (hrevoked : ∀ t ∈ db.turns steps, ∀ id ∈ revoked, t.answer.hands ≠ some id)
    (hfinal : (db.turns steps).Pairwise fun t t' => ∀ id, t.step.call = .revoke id →
      t'.answer.hands ≠ some id) : ∀ t ∈ db.turns steps, ∀ n, ¬t.Revives n := by
  induction steps generalizing db seen revoked now with
  | nil => simp [turns]
  | cons step steps ih =>
    have hle : now ≤ step.now := List.rel_of_pairwise_cons hclock (by simp)
    have hcalled := called h.keyed step
    rw [turns, List.pairwise_cons] at hfinal
    intro t ht n hrev
    rcases List.mem_cons.mp ht with rfl | ht
    · obtain ⟨id, draw, row, hcall, hrow, hlive, hn, hgone⟩ := hrev
      have hexp : ¬row.expiresAt ≤ stamp step.now := by
        rw [le_stamp_iff, not_le]
        exact hlive
      rcases (h.later hle).missing id row n hrow hn hgone with hm | hl
      · refine hrevoked _ List.mem_cons_self n hm ?_
        have hrefresh : Called db step.now (.refresh id draw) _ _ := hcall ▸ hcalled
        exact hrefresh.hands_of_live hrow (not_le.mp hexp) hn
      · exact hexp hl
    · refine ih (h.call hle hfresh.1) (List.Pairwise.of_cons hclock) hfresh.2 ?_ hfinal.2 t ht n hrev
      intro t' ht' id hid
      rcases List.mem_append.mp hid with hid | hid
      · exact hfinal.1 t' ht' id (TokenCall.eq_of_mem_revokes hid)
      · exact hrevoked t' (List.mem_cons_of_mem _ ht') id hid

end

end Accounts

/-- A run keeps its promises exactly when no call exchanges a token within its life for a successor
that is gone. -/
theorem tokens_final_iff {db : Accounts} {steps : List TokenStep} (h : TokenRun db steps) :
    TokensFinal (db.turns steps) ↔ ∀ t ∈ db.turns steps, ∀ n, ¬t.Revives n := by
  have hsound : Accounts.SoundTokens [] [] 0 db := Accounts.SoundTokens.start h.start
  have hclock : (0 :: steps.map TokenStep.now).Pairwise (· ≤ ·) :=
    List.pairwise_cons.mpr ⟨fun _ _ => Nat.zero_le _, h.clock⟩
  constructor
  · intro hfinal
    refine Accounts.no_comeback_of_final hsound hclock h.fresh (by simp) ?_
    exact hfinal.revoked.imp fun hr id hc => (hr id hc).1
  · exact Accounts.final_of_no_comeback hsound hclock h.fresh

theorem tokenDid_valid : Did.validate (text "did:plc:4cjoyc3cgpal7gnrpzyjhnv3") = .ok () := rfl

def tokenDid : Did := ⟨text "did:plc:4cjoyc3cgpal7gnrpzyjhnv3", tokenDid_valid⟩

/-- A token is exchanged, its successor is revoked, and the token is exchanged again. -/
def comeback : List TokenStep :=
  [⟨0, .opening tokenDid none (text "a")⟩, ⟨1, .refresh (text "a") (text "b")⟩,
    ⟨2, .revoke (text "b")⟩, ⟨3, .refresh (text "a") (text "c")⟩]

theorem tokenRun_comeback : TokenRun ⟨[], []⟩ comeback := by
  refine ⟨rfl, by decide, ?_⟩
  simp only [comeback, FreshFrom, TokenCall.draw, TokenCall.target, TokenCall.ids]
  decide

theorem not_tokensFinal_comeback : TokenRun ⟨[], []⟩ comeback ∧
    ¬TokensFinal ((⟨[], []⟩ : Accounts).turns comeback) := by
  refine ⟨tokenRun_comeback, fun h => ?_⟩
  have hlater := (List.pairwise_cons.mp h.revoked.of_cons.of_cons).1 _ List.mem_cons_self
  exact (hlater (text "b") rfl).1 rfl

/-- A token is exchanged twice and then revoked with its successor. -/
def exchanges : List TokenStep :=
  [⟨0, .opening tokenDid none (text "a")⟩, ⟨1, .refresh (text "a") (text "b")⟩,
    ⟨2, .refresh (text "a") (text "c")⟩, ⟨3, .revoke (text "a")⟩, ⟨4, .revoke (text "b")⟩]

theorem tokensFinal_exchanges : TokensFinal ((⟨[], []⟩ : Accounts).turns exchanges) := by
  have hrun : TokenRun ⟨[], []⟩ exchanges := by
    refine ⟨rfl, by decide, ?_⟩
    simp only [exchanges, FreshFrom, TokenCall.draw, TokenCall.target, TokenCall.ids]
    decide
  apply (tokens_final_iff hrun).mpr
  intro t ht n hrev
  obtain ⟨id, draw, row, hcall, hrow, -, hn, hgone⟩ := hrev
  simp only [exchanges, Accounts.turns, List.mem_cons, List.not_mem_nil, or_false] at ht
  rcases ht with rfl | rfl | rfl | rfl | rfl
  · cases hcall
  · cases hcall
    cases hrow
    cases hn
  · cases hcall
    cases hrow
    cases hn
    cases hgone
  · cases hcall
  · cases hcall

end Manapds
