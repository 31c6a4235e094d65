import Manapds.Account.Tokens

/-!
# App passwords

Signing in checks a password, waits, and then opens a session, in two steps that the steps of other
requests come between. What the check found is kept by the request; the session is stored under the
name of its app password alone.

A run is any interleaving of such steps with exchanges of refresh tokens and with app passwords
being made and revoked. A request that was still waiting when its app password was revoked opens its
session all the same. Where none does, a revocation ends every session opened with the app password.
-/

namespace Manapds

open Table

inductive PasswordCall where
  /-- The check of `createSession`: of the account's own password, or of one with this hash. -/
  | login (hash : Option Str)
  /-- `open_session` for a request that passed its check. -/
  | opening (request : ℕ) (now : Timestamp) (draw : Str)
  | refresh (id : Str) (now : Timestamp) (draw : Str)
  | create (password : AppPassword) (hash : Str)
  | revoke (name : Str)

inductive PasswordAnswer where
  | credentials
  | loggedIn (request : ℕ) (appPassword : Option AppPassword)
  | opened (id : Str)
  | refreshed (next : Option TokenSession)
  | created (fresh : Bool)
  | revoked (held : Bool)

/-- The database, what each request that passed its check was told, and the request every token goes
back to, which nothing in the code keeps. -/
structure SignIns where
  accounts : Accounts
  logins : List (Option AppPassword)
  origin : Str → Option ℕ

namespace SignIns

variable (did : Did)

def call (s : SignIns) : PasswordCall → PasswordAnswer × SignIns
  | .login none => (.loggedIn s.logins.length none, { s with logins := s.logins ++ [none] })
  | .login (some hash) =>
    match s.accounts.byHash did hash with
    | none => (.credentials, s)
    | some password => (.loggedIn s.logins.length (some password),
        { s with logins := s.logins ++ [some password] })
  | .opening request now draw =>
    match s.logins[request]? with
    | none => (.credentials, s)
    | some appPassword => (.opened draw,
        ⟨s.accounts.openSession did appPassword now draw, s.logins,
          Function.update s.origin draw (some request)⟩)
  | .refresh id now draw =>
    match s.accounts.rotatePasses id [(now, draw)] with
    | some (some next, accounts) => (.refreshed (some next),
        ⟨accounts, s.logins, Function.update s.origin next.id (s.origin id)⟩)
    | some (none, accounts) => (.refreshed none, { s with accounts := accounts })
    | none => (.refreshed none, s)
  | .create password hash =>
    (.created (s.accounts.createAppPassword did password hash).1,
      { s with accounts := (s.accounts.createAppPassword did password hash).2 })
  | .revoke name =>
    (.revoked (s.accounts.revokeAppPassword did name).1,
      { s with accounts := (s.accounts.revokeAppPassword did name).2 })

end SignIns

structure PasswordTurn where
  before : SignIns
  call : PasswordCall
  answer : PasswordAnswer
  after : SignIns

def SignIns.turns (did : Did) : SignIns → List PasswordCall → List PasswordTurn
  | _, [] => []
  | s, c :: calls =>
    ⟨s, c, (s.call did c).1, (s.call did c).2⟩ :: SignIns.turns did (s.call did c).2 calls

/-- The token ID a call draws. -/
def PasswordCall.draw : PasswordCall → Option Str
  | .opening _ _ draw => some draw
  | .refresh _ _ draw => some draw
  | _ => none

namespace PasswordTurn

variable (t : PasswordTurn)

/-- The call exchanged a token that goes back to this request. -/
def Exchanges (request : ℕ) : Prop :=
  ∃ id now draw next, t.call = .refresh id now draw ∧ t.answer = .refreshed (some next) ∧
    t.before.origin id = some request

/-- The check of this request found an app password of this name. -/
def LogsIn (request : ℕ) (name : Str) : Prop :=
  ∃ p : AppPassword, t.answer = .loggedIn request (some p) ∧ p.name = name

/-- An app password of this name was made. -/
def Creates (name : Str) : Prop :=
  ∃ p hash, t.call = .create p hash ∧ t.answer = .created true ∧ p.name = name

def Opens (request : ℕ) : Prop := ∃ now draw, t.call = .opening request now draw

end PasswordTurn

/-- Revoking an app password ends what was opened with it: after that, and after another is made
under its name, no token of a request that presented it before is exchanged. -/
structure RevocationsEnd (turns : List PasswordTurn) : Prop where
  revoked : ∀ pre t post, turns = pre ++ t :: post → ∀ name, t.call = .revoke name →
    ∀ t₁ ∈ pre, ∀ request, t₁.LogsIn request name → ∀ t₂ ∈ post, ¬t₂.Exchanges request
  recreated : ∀ pre t post, turns = pre ++ t :: post → ∀ name, t.Creates name →
    ∀ t₁ ∈ pre, ∀ request, t₁.LogsIn request name → ∀ t₂ ∈ post, ¬t₂.Exchanges request

/-- No request opens its session after its app password was revoked. -/
def OpensInTime (turns : List PasswordTurn) : Prop :=
  ∀ pre t post, turns = pre ++ t :: post → ∀ name, t.call = .revoke name →
    ∀ t₁ ∈ pre, ∀ request, t₁.LogsIn request name → ∀ t₂ ∈ post, ¬t₂.Opens request

/-- A run over an account that holds no session yet, whose draws are IDs that never came up. -/
structure PasswordRun (s : SignIns) (calls : List PasswordCall) : Prop where
  tokens : s.accounts.refreshToken = []
  logins : s.logins = []
  origin : ∀ id, s.origin id = none
  fresh : (calls.filterMap PasswordCall.draw).Nodup

/-! ## One call -/

namespace SignIns

variable {did : Did} {seen : List Str} {s s' : SignIns} {c : PasswordCall} {a : PasswordAnswer}

/-- What each call does and answers. -/
inductive Called (did : Did) (s : SignIns) : PasswordCall → PasswordAnswer → SignIns → Prop where
  | loggedIn {hash : Option Str} {p : Option AppPassword}
      (hp : ∀ q, p = some q → find AppPasswordRow.key (did, q.name) s.accounts.appPassword ≠ none) :
      Called did s (.login hash) (.loggedIn s.logins.length p) { s with logins := s.logins ++ [p] }
  | wrong {hash : Option Str} : Called did s (.login hash) .credentials s
  | opened {request : ℕ} {now : Timestamp} {draw : Str} {p : Option AppPassword}
      (hp : s.logins[request]? = some p) :
      Called did s (.opening request now draw) (.opened draw)
        ⟨s.accounts.openSession did p now draw, s.logins,
          Function.update s.origin draw (some request)⟩
  | unopened {request : ℕ} {now : Timestamp} {draw : Str} :
      Called did s (.opening request now draw) .credentials s
  | unknown {id draw : Str} {now : Timestamp} :
      Called did s (.refresh id now draw) (.refreshed none) s
  | lapsed {id draw : Str} {now : Timestamp} (d : Did) :
      Called did s (.refresh id now draw) (.refreshed none)
        { s with accounts := s.accounts.expireSessions d now }
  | exchanged {id draw : Str} {now : Timestamp} {row : TokenRow} {next : TokenSession}
      {until' : Timestamp} (hrow : s.accounts.row id = some row) (hexp : stamp now < row.expiresAt)
      (hid : next.id = row.nextId.getD draw) (hdid : next.did = row.did)
      (hname : next.appPassword.map AppPassword.name = row.appPasswordName) :
      Called did s (.refresh id now draw) (.refreshed (some next))
        ⟨((s.accounts.expireSessions row.did now).exchanged id until' next.id).storeSession next,
          s.logins, Function.update s.origin next.id (s.origin id)⟩
  | create (p : AppPassword) (hash : Str) :
      Called did s (.create p hash) (.created (s.accounts.createAppPassword did p hash).1)
        { s with accounts := (s.accounts.createAppPassword did p hash).2 }
  | revoke (name : Str) :
      Called did s (.revoke name) (.revoked (s.accounts.revokeAppPassword did name).1)
        { s with accounts := (s.accounts.revokeAppPassword did name).2 }

theorem find_of_byHash {hash : Str} {p : AppPassword} (h : s.accounts.byHash did hash = some p) :
    find AppPasswordRow.key (did, p.name) s.accounts.appPassword ≠ none := by
  obtain ⟨row, hrow, rfl⟩ := Option.map_eq_some_iff.mp h
  intro hnone
  have hdid := List.find?_some hrow
  simp only [Bool.and_eq_true, decide_eq_true_eq] at hdid
  exact find_eq_none.mp hnone row (List.mem_of_find?_eq_some hrow) (Prod.ext hdid.1 rfl)

theorem called (hk : Keyed TokenRow.id s.accounts.refreshToken) (c : PasswordCall) :
    Called did s c (s.call did c).1 (s.call did c).2 := by
  cases c with
  | login hash =>
    cases hash with
    | none => exact .loggedIn (by simp)
    | some hash =>
      cases hp : s.accounts.byHash did hash with
      | none =>
        simp only [call, hp]
        exact .wrong
      | some p =>
        simp only [call, hp]
        refine .loggedIn fun q hq => ?_
        rw [← Option.some.inj hq]
        exact find_of_byHash hp
  | opening request now draw =>
    cases hp : s.logins[request]? with
    | none =>
      simp only [call, hp]
      exact .unopened
    | some p =>
      simp only [call, hp]
      exact .opened hp
  | refresh id now draw =>
    have hr := Accounts.rotated hk id now draw
    simp only [call, Accounts.rotatePasses]
    generalize s.accounts.rotatePass id now draw = p at hr
    obtain ⟨pass, after⟩ := p
    cases hr with
    | unknown hrow => exact .unknown
    | lapsed hrow hexp => exact .lapsed _
    | @exchanged row hrow hexp next hid hdid hlife hpassword until' huntil =>
      refine .exchanged hrow hexp hid hdid ?_
      rw [hpassword, Accounts.joined]
      cases row.appPasswordName <;> rfl
  | create p hash => exact .create p hash
  | revoke name => exact .revoke name

/-- Every token goes back to a request that presented the app password it is stored under, and so
does its successor. -/
structure Sound (did : Did) (seen : List Str) (s : SignIns) : Prop where
  keyed : Keyed TokenRow.id s.accounts.refreshToken
  rows : ∀ k row, s.accounts.row k = some row → row.did = did ∧ ∃ r p, s.origin k = some r ∧
    s.logins[r]? = some p ∧ row.appPasswordName = p.map AppPassword.name
  nexts : ∀ k row n, s.accounts.row k = some row → row.nextId = some n → s.origin n = s.origin k
  mem_seen : ∀ k, s.origin k ≠ none → k ∈ seen

theorem expired_row {db : Accounts} (hk : Keyed TokenRow.id db.refreshToken) {d : Did}
    {now : Timestamp} {k : Str} {row : TokenRow} (hr : (db.expireSessions d now).row k = some row) :
    db.row k = some row := by
  rw [Accounts.row_expireSessions hk, Option.filter_eq_some_iff] at hr
  exact hr.1

theorem Sound.seeing (h : Sound did seen s) {seen' : List Str} (hs : seen ⊆ seen') :
    Sound did seen' s := ⟨h.keyed, h.rows, h.nexts, fun k hk => hs (h.mem_seen k hk)⟩

/-- A call that only takes rows away. -/
theorem Sound.of_rows (h : Sound did seen s) (hk : Keyed TokenRow.id s'.accounts.refreshToken)
    (hr : ∀ k row, s'.accounts.row k = some row → s.accounts.row k = some row)
    (hl : ∀ (r : ℕ) p, s.logins[r]? = some p → s'.logins[r]? = some p) (ho : s'.origin = s.origin) :
    Sound did seen s' := by
  refine ⟨hk, fun k row hrow => ?_, fun k row n hrow hn => ?_, ?_⟩
  · obtain ⟨hd, r, p, hor, hp, hname⟩ := h.rows k row (hr k row hrow)
    exact ⟨hd, r, p, ho ▸ hor, hl r p hp, hname⟩
  · rw [ho]
    exact h.nexts k row n (hr k row hrow) hn
  · rw [ho]
    exact h.mem_seen

/-- What a token goes back to, written down before there is a row for it. -/
theorem Sound.tracing (h : Sound did seen s) {k : Str} {r : ℕ} (hm : k ∈ seen)
    (ho : s.origin k = none ∨ s.origin k = some r) :
    Sound did seen { s with origin := Function.update s.origin k (some r) } := by
  have hkept : ∀ k', s.origin k' ≠ none →
      Function.update s.origin k (some r) k' = s.origin k' := by
    intro k' hk
    by_cases hkk : k' = k
    · subst hkk
      rw [Function.update_self]
      exact (ho.resolve_left hk).symm
    · exact Function.update_of_ne hkk _ _
  refine ⟨h.keyed, fun k' row hrow => ?_, fun k' row n hrow hn => ?_, fun k' hk => ?_⟩
  · obtain ⟨hd, r', p', hor, hp', hn⟩ := h.rows k' row hrow
    exact ⟨hd, r', p', (hkept k' (by simp [hor])).trans hor, hp', hn⟩
  · obtain ⟨-, r', -, hor, -⟩ := h.rows k' row hrow
    have hne : s.origin k' ≠ none := by simp [hor]
    have hnext := h.nexts k' row n hrow hn
    exact (hkept n (hnext ▸ hne)).trans (hnext.trans (hkept k' hne).symm)
  · by_cases hkk : k' = k
    · exact hkk ▸ hm
    · apply h.mem_seen k'
      rwa [← Function.update_of_ne hkk (some r) s.origin]

/-- A new token, for a request or in exchange for one. -/
theorem Sound.storing (h : Sound did seen s) (session : TokenSession) {r : ℕ}
    {p : Option AppPassword} (ho : s.origin session.id = some r) (hp : s.logins[r]? = some p)
    (hd : session.did = did)
    (hname : session.appPassword.map AppPassword.name = p.map AppPassword.name) :
    Sound did seen { s with accounts := s.accounts.storeSession session } := by
  have hnew : ∀ k row, (s.accounts.storeSession session).row k = some row →
      s.accounts.row k = some row ∨ (k = session.id ∧ row = session.row) := by
    intro k row hr
    rw [Accounts.row_storeSession, Option.or_eq_some_iff, Option.ite_none_right_eq_some] at hr
    exact hr.imp_right fun hr => ⟨hr.2.1.symm, (Option.some.inj hr.2.2).symm⟩
  refine ⟨Accounts.keyed_storeSession h.keyed session, fun k row hrow => ?_,
    fun k row n hrow hn => ?_, h.mem_seen⟩
  · rcases hnew k row hrow with hrow | ⟨rfl, rfl⟩
    · exact h.rows k row hrow
    · exact ⟨hd, r, p, ho, hp, hname⟩
  · rcases hnew k row hrow with hrow | ⟨-, rfl⟩
    · exact h.nexts k row n hrow hn
    · cases hn

/-- A token that names its successor, and how long it has left. -/
theorem Sound.naming (h : Sound did seen s) (id next : Str) (until' : Timestamp)
    (ho : s.origin next = s.origin id) :
    Sound did seen { s with accounts := s.accounts.exchanged id until' next } := by
  have hold : ∀ k row, (s.accounts.exchanged id until' next).row k = some row → ∃ r,
      s.accounts.row k = some r ∧ row.did = r.did ∧ row.appPasswordName = r.appPasswordName ∧
        (row.nextId = r.nextId ∨ (k = id ∧ row.nextId = some next)) := by
    intro k row hr
    rw [Accounts.row_exchanged, Option.map_eq_some_iff] at hr
    obtain ⟨r, hr, rfl⟩ := hr
    refine ⟨r, hr, ?_⟩
    split_ifs with hheld
    · simp only [Accounts.heldBy, Bool.and_eq_true, decide_eq_true_eq] at hheld
      exact ⟨rfl, rfl, Or.inr ⟨(key_of_find hr).symm.trans hheld.1, rfl⟩⟩
    · exact ⟨rfl, rfl, Or.inl rfl⟩
  refine ⟨Accounts.keyed_exchanged h.keyed until' next, fun k row hrow => ?_,
    fun k row n hrow hn => ?_, h.mem_seen⟩
  · obtain ⟨r, hr, hd, hname, -⟩ := hold k row hrow
    rw [hd, hname]
    exact h.rows k r hr
  · obtain ⟨r, hr, -, -, hnext | ⟨rfl, hnext⟩⟩ := hold k row hrow
    · exact h.nexts k r n hr (hnext.symm.trans hn)
    · rw [← Option.some.inj (hnext.symm.trans hn)]
      exact ho

theorem Sound.call (h : Sound did seen s) (hc : Called did s c a s')
    (hfresh : ∀ draw ∈ c.draw, draw ∉ seen) : Sound did (c.draw.toList ++ seen) s' := by
  have hwide := h.seeing (List.subset_append_right c.draw.toList seen)
  have hnone : ∀ draw ∈ c.draw, s.origin draw = none := by
    intro draw hd
    by_contra hn
    exact hfresh draw hd (h.mem_seen draw hn)
  cases hc with
  | @loggedIn _ p hp =>
    refine hwide.of_rows h.keyed (fun _ _ hr => hr) (fun r q hq => ?_) rfl
    rw [List.getElem?_append_left (List.getElem?_eq_some_iff.mp hq).1]
    exact hq
  | wrong => exact hwide
  | unopened => exact hwide
  | unknown => exact hwide
  | @opened request now draw p hp =>
    have htraced : Sound did (draw :: seen)
        { s with origin := Function.update s.origin draw (some request) } :=
      hwide.tracing List.mem_cons_self (Or.inl (hnone draw rfl))
    exact htraced.storing _ (Function.update_self _ _ _) hp rfl rfl
  | lapsed d =>
    exact hwide.of_rows (h.keyed.filter _ _) (fun k row hr => expired_row h.keyed hr)
      (fun _ _ hp => hp) rfl
  | @exchanged id draw now row next until' hrow hexp hid hdid hname =>
    obtain ⟨hd, r, p, hor, hp, hrow'⟩ := h.rows id row hrow
    have hexpired : Sound did (draw :: seen)
        { s with accounts := s.accounts.expireSessions row.did now } :=
      hwide.of_rows (h.keyed.filter _ _) (fun k row hr => expired_row h.keyed hr)
        (fun _ _ hp => hp) rfl
    have hnext : s.origin next.id = none ∨ s.origin next.id = some r := by
      rcases Accounts.nextId_cases hid with hnull | hsome
      · rw [hid, hnull]
        exact Or.inl (hnone draw rfl)
      · exact Or.inr ((h.nexts id row next.id hrow hsome).trans hor)
    have hmem : next.id ∈ draw :: seen := by
      rcases Accounts.nextId_cases hid with hnull | hsome
      · rw [hid, hnull]
        exact List.mem_cons_self
      · refine List.mem_cons_of_mem _ (h.mem_seen _ ?_)
        rw [h.nexts id row next.id hrow hsome, hor]
        exact Option.some_ne_none r
    have htraced := hexpired.tracing hmem hnext
    have hself : Function.update s.origin next.id (some r) id = some r := by
      by_cases he : id = next.id
      · rw [he, Function.update_self]
      · rw [Function.update_of_ne he, hor]
    have hnamed := htraced.naming id next.id until'
      ((Function.update_self _ _ _).trans hself.symm)
    rw [hor]
    exact hnamed.storing next (Function.update_self _ _ _) hp (hdid.trans hd) (hname.trans hrow')
  | create p hash =>
    have hsame : (s.accounts.createAppPassword did p hash).2.refreshToken =
        s.accounts.refreshToken := by
      unfold Accounts.createAppPassword
      split_ifs <;> rfl
    refine hwide.of_rows (hsame ▸ h.keyed) (fun k row hr => ?_) (fun _ _ hp => hp) rfl
    rw [Accounts.row, hsame] at hr
    exact hr
  | revoke name =>
    refine hwide.of_rows (h.keyed.filter _ _) (fun k row hr => ?_) (fun _ _ hp => hp) rfl
    have hr' := (h.keyed.find_filter _).symm.trans hr
    exact (Option.filter_eq_some_iff.mp hr').1

theorem Called.logins (h : Called did s c a s') : s.logins <+: s'.logins := by
  cases h with
  | loggedIn hp => exact List.prefix_append _ _
  | _ => exact List.prefix_rfl

theorem Called.of_loggedIn (h : Called did s c a s') {request : ℕ} {p : AppPassword}
    (ha : a = .loggedIn request (some p)) :
    find AppPasswordRow.key (did, p.name) s'.accounts.appPassword ≠ none ∧
      s'.logins[request]? = some (some p) := by
  cases h with
  | loggedIn hp =>
    cases ha
    exact ⟨hp p rfl, List.getElem?_concat_length⟩
  | _ => cases ha

/-- A token is exchanged while there is a row for it. -/
theorem Called.of_refreshed (h : Called did s c a s') {id draw : Str} {now : Timestamp}
    {next : TokenSession} (hc : c = .refresh id now draw) (ha : a = .refreshed (some next)) :
    ∃ row, s.accounts.row id = some row := by
  cases h with
  | exchanged hrow =>
    cases hc
    exact ⟨_, hrow⟩
  | _ => cases ha

/-- No token that can be exchanged goes back to this request. -/
def Ended (s : SignIns) (request : ℕ) : Prop :=
  ∀ k row, s.accounts.row k = some row → s.origin k ≠ some request

theorem Ended.call {request : ℕ} (he : s.Ended request) (hk : Keyed TokenRow.id s.accounts.refreshToken)
    (h : Called did s c a s') (hopen : ∀ now draw, c ≠ .opening request now draw) :
    s'.Ended request := by
  intro k row hrow
  cases h with
  | @opened request' now draw p hp =>
    by_cases hkd : k = draw
    · subst hkd
      intro ho
      dsimp only at ho
      rw [Function.update_self] at ho
      exact hopen now k (by rw [Option.some.inj ho])
    · dsimp only at hrow ⊢
      rw [Function.update_of_ne hkd]
      rw [Accounts.openSession, Accounts.row_storeSession, if_neg (Ne.symm hkd), Option.or_none]
        at hrow
      exact he k row hrow
  | lapsed d => exact he k row (expired_row hk hrow)
  | @exchanged id draw now r next until' hr hexp hid hdid hname =>
    by_cases hkn : k = next.id
    · dsimp only
      rw [hkn, Function.update_self]
      exact he id r hr
    · dsimp only
      rw [Function.update_of_ne hkn]
      rcases Accounts.of_row_of_exchange hk hr hexp (Accounts.nextId_cases hid) until' k row hrow with
        ⟨rfl, -⟩ | ⟨-, hold⟩ | ⟨hkn', -⟩
      · exact he k r hr
      · exact he k row hold
      · exact absurd hkn' hkn
  | create p hash =>
    have hsame : (s.accounts.createAppPassword did p hash).2.refreshToken =
        s.accounts.refreshToken := by
      unfold Accounts.createAppPassword
      split_ifs <;> rfl
    rw [Accounts.row, hsame] at hrow
    exact he k row hrow
  | revoke name =>
    have hold := (hk.find_filter _).symm.trans hrow
    exact he k row (Option.filter_eq_some_iff.mp hold).1
  | _ => exact he k row hrow

/-- Revoking an app password ends every session that goes back to a request that presented it. -/
theorem ended_of_revoke (h : Sound did seen s) {name : Str} {request : ℕ} {p : AppPassword}
    (hp : s.logins[request]? = some (some p)) (hname : p.name = name)
    (hc : Called did s (.revoke name) a s') : s'.Ended request := by
  cases hc
  intro k row hrow ho
  have hold := (h.keyed.find_filter _).symm.trans hrow
  obtain ⟨hrow, hkept⟩ := Option.filter_eq_some_iff.mp hold
  obtain ⟨hd, r, p', hor, hp', hname'⟩ := h.rows k row hrow
  obtain rfl : r = request := Option.some.inj (hor.symm.trans ho)
  rw [hp'] at hp
  obtain rfl := Option.some.inj hp
  simp [hd, hname', hname] at hkept

theorem Called.keeps_password (h : Called did s c a s') {name : Str} (hc : c ≠ .revoke name)
    (hp : find AppPasswordRow.key (did, name) s.accounts.appPassword ≠ none) :
    find AppPasswordRow.key (did, name) s'.accounts.appPassword ≠ none := by
  cases h with
  | create p hash =>
    simp only [Accounts.createAppPassword]
    split_ifs
    · exact hp
    · rw [find_concat, Ne, Option.or_eq_none_iff]
      exact fun hn => hp hn.1
  | revoke name' =>
    have hne : (did, name) ≠ (did, name') := fun he => hc (by rw [(Prod.mk.inj he).2])
    simp only [Accounts.revokeAppPassword, find_delete, if_neg hne]
    exact hp
  | _ => exact hp

/-! ## Whole runs -/

theorem map_call_turns (s : SignIns) (calls : List PasswordCall) :
    (turns did s calls).map PasswordTurn.call = calls := by
  induction calls generalizing s with
  | nil => rfl
  | cons c calls ih => rw [turns, List.map_cons, ih]

/-- The draws to come are IDs that never came up. -/
def Fresh (seen : List Str) (calls : List PasswordCall) : Prop :=
  (calls.filterMap PasswordCall.draw).Nodup ∧ ∀ draw ∈ calls.filterMap PasswordCall.draw, draw ∉ seen

theorem Fresh.cons {calls : List PasswordCall} (h : Fresh seen (c :: calls)) :
    (∀ draw ∈ c.draw, draw ∉ seen) ∧ Fresh (c.draw.toList ++ seen) calls := by
  obtain ⟨hnodup, hnew⟩ := h
  cases hd : c.draw with
  | none =>
    rw [List.filterMap_cons_none hd] at hnodup hnew
    exact ⟨by simp, hnodup, by simpa using hnew⟩
  | some draw =>
    rw [List.filterMap_cons_some hd] at hnodup hnew
    obtain ⟨hdraw, hnodup⟩ := List.nodup_cons.mp hnodup
    refine ⟨?_, hnodup, fun d hm hs => ?_⟩
    · intro d hm
      rw [Option.mem_some_iff.mp hm] at hnew
      exact hnew d List.mem_cons_self
    · rcases List.mem_cons.mp hs with rfl | hs
      · exact hdraw hm
      · exact hnew d (List.mem_cons_of_mem _ hm) hs

section

variable {calls : List PasswordCall} (h : Sound did seen s) (hf : Fresh seen calls)

include h hf

theorem Ended.turns {request : ℕ} (he : s.Ended request)
    (hopen : ∀ t ∈ turns did s calls, ¬t.Opens request) :
    ∀ t ∈ turns did s calls, ¬t.Exchanges request := by
  induction calls generalizing s seen with
  | nil => simp [SignIns.turns]
  | cons c calls ih =>
    have hcalled : Called did s c _ _ := called h.keyed c
    obtain ⟨hfresh, hrest⟩ := hf.cons
    intro t ht
    rcases List.mem_cons.mp ht with rfl | ht
    · rintro ⟨id, now, draw, next, hc, ha, ho⟩
      obtain ⟨row, hrow⟩ := hcalled.of_refreshed hc ha
      exact he id row hrow ho
    · refine ih (h.call hcalled hfresh) hrest ?_
        (fun t ht => hopen t (List.mem_cons_of_mem _ ht)) t ht
      exact he.call h.keyed hcalled fun now draw hc => hopen _ List.mem_cons_self ⟨now, draw, hc⟩

/-- A turn in the middle of a run, and the run that goes on from it. -/
theorem Sound.split {pre post : List PasswordTurn} {t : PasswordTurn}
    (ht : turns did s calls = pre ++ t :: post) : ∃ seen₁ seen₂ rest, Sound did seen₁ t.before ∧
      Called did t.before t.call t.answer t.after ∧ Sound did seen₂ t.after ∧ Fresh seen₂ rest ∧
      post = turns did t.after rest := by
  induction pre generalizing s seen calls with
  | nil =>
    cases calls with
    | nil => cases ht
    | cons c calls =>
      obtain ⟨rfl, rfl⟩ := List.cons.inj ht
      obtain ⟨hfresh, hrest⟩ := hf.cons
      exact ⟨seen, _, calls, h, called h.keyed c, h.call (called h.keyed c) hfresh, hrest, rfl⟩
  | cons t₁ pre ih =>
    cases calls with
    | nil => cases ht
    | cons c calls =>
      obtain ⟨hfresh, hrest⟩ := hf.cons
      exact ih (h.call (called h.keyed c) hfresh) hrest (List.cons.inj ht).2

/-- What a request was told it keeps. -/
theorem Sound.told {pre post : List PasswordTurn} {t : PasswordTurn}
    (ht : turns did s calls = pre ++ t :: post) {request : ℕ} {p : Option AppPassword}
    (hp : s.logins[request]? = some p) : t.before.logins[request]? = some p := by
  induction pre generalizing s seen calls with
  | nil =>
    cases calls with
    | nil => cases ht
    | cons c calls =>
      obtain ⟨rfl, -⟩ := List.cons.inj ht
      exact hp
  | cons t₁ pre ih =>
    cases calls with
    | nil => cases ht
    | cons c calls =>
      obtain ⟨hfresh, hrest⟩ := hf.cons
      have hcalled : Called did s c _ _ := called h.keyed c
      refine ih (h.call hcalled hfresh) hrest (List.cons.inj ht).2 ?_
      obtain ⟨more, hmore⟩ := hcalled.logins
      rw [← hmore, List.getElem?_append_left (List.getElem?_eq_some_iff.mp hp).1]
      exact hp

/-- An app password that was there and is made again was revoked in between. -/
theorem Sound.revoked_between {pre post : List PasswordTurn} {t : PasswordTurn} {name : Str}
    (ht : turns did s calls = pre ++ t :: post) (hc : t.Creates name)
    (hp : find AppPasswordRow.key (did, name) s.accounts.appPassword ≠ none) :
    ∃ t₁ ∈ pre, t₁.call = .revoke name := by
  induction pre generalizing s seen calls with
  | nil =>
    cases calls with
    | nil => cases ht
    | cons c calls =>
      obtain ⟨rfl, -⟩ := List.cons.inj ht
      obtain ⟨p, hash, hcall, hanswer, rfl⟩ := hc
      obtain rfl : c = .create p hash := hcall
      have hfresh : (s.accounts.createAppPassword did p hash).1 = true :=
        PasswordAnswer.created.inj hanswer
      unfold Accounts.createAppPassword at hfresh
      split_ifs at hfresh with hsome
      exact absurd (Option.not_isSome_iff_eq_none.mp hsome) hp
  | cons t₁ pre ih =>
    cases calls with
    | nil => cases ht
    | cons c calls =>
      obtain ⟨hfresh, hrest⟩ := hf.cons
      obtain ⟨rfl, htail⟩ := List.cons.inj ht
      have hcalled : Called did s c _ _ := called h.keyed c
      by_cases hr : c = .revoke name
      · exact ⟨_, List.mem_cons_self, hr⟩
      · obtain ⟨t₂, hm, hrevoke⟩ := ih (h.call hcalled hfresh) hrest htail
          (hcalled.keeps_password hr hp)
        exact ⟨t₂, List.mem_cons_of_mem _ hm, hrevoke⟩

end

end SignIns

/-- Where no request opens its session after its app password was revoked, a revocation ends
everything opened with it. -/
theorem revocations_end (did : Did) (s : SignIns) (calls : List PasswordCall)
    (hrun : PasswordRun s calls) (hopens : OpensInTime (SignIns.turns did s calls)) :
    RevocationsEnd (SignIns.turns did s calls) := by
  have hrow : ∀ k, s.accounts.row k = none := by
    intro k
    rw [Accounts.row, hrun.tokens, find_nil]
  have hsound : SignIns.Sound did [] s := by
    refine ⟨?_, by simp [hrow], by simp [hrow], fun k hk => absurd (hrun.origin k) hk⟩
    rw [hrun.tokens]
    exact keyed_nil _
  have hfresh : SignIns.Fresh [] calls := ⟨hrun.fresh, by simp⟩
  have hrevoked : ∀ pre t post, SignIns.turns did s calls = pre ++ t :: post → ∀ name,
      t.call = .revoke name → ∀ t₁ ∈ pre, ∀ request, t₁.LogsIn request name → ∀ t₂ ∈ post,
        ¬t₂.Exchanges request := by
    intro pre t post ht name hname t₁ ht₁ request hlogs
    obtain ⟨seen₁, seen₂, rest, hbefore, hcalled, hafter, hrest, rfl⟩ := hsound.split hfresh ht
    obtain ⟨pre₁, pre₂, rfl⟩ := List.append_of_mem ht₁
    have ht' := ht
    rw [List.append_assoc, List.cons_append] at ht'
    obtain ⟨-, seen₃, rest₃, -, hcalled₁, hafter₁, hrest₃, hpost⟩ := hsound.split hfresh ht'
    obtain ⟨p, ha, hp⟩ := hlogs
    have htold := hafter₁.told hrest₃ hpost.symm (hcalled₁.of_loggedIn ha).2
    have hended : t.after.Ended request :=
      SignIns.ended_of_revoke hbefore htold hp (hname ▸ hcalled)
    exact hended.turns hafter hrest fun t₂ ht₂ => hopens _ _ _ ht name hname t₁ ht₁ request ⟨p, ha, hp⟩ t₂ ht₂
  refine ⟨hrevoked, fun pre t post ht name hcreates t₁ ht₁ request hlogs t₂ ht₂ => ?_⟩
  obtain ⟨pre₁, pre₂, rfl⟩ := List.append_of_mem ht₁
  have ht' := ht
  rw [List.append_assoc, List.cons_append] at ht'
  obtain ⟨-, seen₃, rest₃, -, hcalled₁, hafter₁, hrest₃, hpost⟩ := hsound.split hfresh ht'
  obtain ⟨p, ha, hp⟩ := hlogs
  have hheld := (hcalled₁.of_loggedIn ha).1
  rw [hp] at hheld
  obtain ⟨t₃, ht₃, hrevoke⟩ := hafter₁.revoked_between hrest₃ hpost.symm hcreates hheld
  obtain ⟨mid₁, mid₂, rfl⟩ := List.append_of_mem ht₃
  refine hrevoked (pre₁ ++ t₁ :: mid₁) t₃ (mid₂ ++ t :: post) ?_ name hrevoke t₁ (by simp) request
    ⟨p, ha, hp⟩ t₂ (by simp [ht₂])
  simpa using ht

/-- A request passes its check, its app password is revoked, and it opens its session. -/
def openedLate : List PasswordCall :=
  [.create ⟨text "phone", true⟩ (text "hash"), .login (some (text "hash")), .revoke (text "phone"),
    .opening 0 0 (text "a"), .refresh (text "a") 1 (text "b")]

def noSignIns : SignIns := ⟨⟨[], []⟩, [], fun _ => none⟩

theorem not_revocationsEnd_openedLate : PasswordRun noSignIns openedLate ∧
    ¬RevocationsEnd (SignIns.turns tokenDid noSignIns openedLate) := by
  refine ⟨⟨rfl, rfl, fun _ => rfl, by decide⟩, fun h => ?_⟩
  refine h.revoked [_, _] _ [_, _] rfl (text "phone") rfl _
    (List.mem_cons_of_mem _ List.mem_cons_self) 0 ⟨_, rfl, rfl⟩ _
    (List.mem_cons_of_mem _ List.mem_cons_self) ?_
  exact ⟨text "a", 1, text "b", _, rfl, rfl, rfl⟩

/-- The same request, opening its session before its app password is revoked. -/
def openedInTime : List PasswordCall :=
  [.create ⟨text "phone", true⟩ (text "hash"), .login (some (text "hash")),
    .opening 0 0 (text "a"), .revoke (text "phone"), .refresh (text "a") 1 (text "b")]

theorem revocationsEnd_openedInTime :
    RevocationsEnd (SignIns.turns tokenDid noSignIns openedInTime) := by
  refine revocations_end tokenDid noSignIns openedInTime
    ⟨rfl, rfl, fun _ => rfl, by decide⟩ ?_
  intro pre t post ht name hname t₁ ht₁ request hlogs t₂ ht₂ hopens
  have hcalls := congrArg (List.map PasswordTurn.call) ht
  rw [SignIns.map_call_turns, List.map_append, List.map_cons, hname] at hcalls
  obtain ⟨now, draw, hopen⟩ := hopens
  have hmem : PasswordCall.opening request now draw ∈ post.map PasswordTurn.call :=
    List.mem_map.mpr ⟨t₂, ht₂, hopen⟩
  generalize post.map PasswordTurn.call = after, pre.map PasswordTurn.call = prior at hcalls hmem
  -- The one revocation has only the exchange after it.
  rcases prior with _ | ⟨a, _ | ⟨b, _ | ⟨c, _ | ⟨d, _ | ⟨e, more⟩⟩⟩⟩⟩
  · cases hcalls
  · cases hcalls
  · cases hcalls
  · cases hcalls
    simp at hmem
  · cases hcalls
  · simp [openedInTime] at hcalls

end Manapds
