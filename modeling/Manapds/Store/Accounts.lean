import Manapds.Lib.Table
import Manapds.Store.Stamp
import Manapds.Syntax.Identifier

/-!
# The sessions of the accounts database

The tables `refresh_token` and `app_password`, and what is done to them under the lock that every
request of the server takes.
-/

namespace Manapds

open Table

structure AppPassword where
  name : Str
  privileged : Bool
deriving DecidableEq

/-- One refresh token, as whoever asks for it is told of it. -/
structure TokenSession where
  id : Str
  did : Did
  expiresAt : Timestamp
  nextId : Option Str
  appPassword : Option AppPassword

/-- A row of `refresh_token`. -/
structure TokenRow where
  id : Str
  did : Did
  expiresAt : ℕ
  nextId : Option Str
  appPasswordName : Option Str

/-- A row of `app_password`. -/
structure AppPasswordRow where
  did : Did
  name : Str
  passwordScrypt : Str
  privileged : Bool

def AppPasswordRow.key (row : AppPasswordRow) : Did × Str := (row.did, row.name)

structure Accounts where
  refreshToken : List TokenRow
  appPassword : List AppPasswordRow

/-- What is stored of a session that was never exchanged. -/
def TokenSession.row (session : TokenSession) : TokenRow :=
  ⟨session.id, session.did, stamp session.expiresAt, none, session.appPassword.map AppPassword.name⟩

namespace Accounts

variable (db : Accounts)

def storeSession (session : TokenSession) : Accounts :=
  { db with refreshToken := insertOrIgnore TokenRow.id session.row db.refreshToken }

/-- What a row of `refresh_token` says of the app password its session was opened with: the name it
holds, and what the app password of that name may do now. -/
def joined (row : TokenRow) : Option AppPassword :=
  row.appPasswordName.map fun name =>
    ⟨name, (find AppPasswordRow.key (row.did, name) db.appPassword).elim false
      AppPasswordRow.privileged⟩

/-- The session a refresh token names. -/
def session (id : Str) : Option TokenSession :=
  (find TokenRow.id id db.refreshToken).map fun row =>
    ⟨id, row.did, Timestamp.parse row.expiresAt, row.nextId, db.joined row⟩

/-- Whether an exchange may name this successor of the row under an ID. -/
def heldBy (id next : Str) (row : TokenRow) : Bool :=
  row.id = id && (row.nextId = none || row.nextId = some next)

def exchanged (id : Str) (until' : Timestamp) (next : Str) : Accounts :=
  { db with
    refreshToken := db.refreshToken.map fun row =>
      if heldBy id next row then { row with expiresAt := stamp until', nextId := some next }
      else row }

/-- Shortens a token, names its successor and writes that successor, as one write. -/
def rotate (id : Str) (until' : Timestamp) (next : TokenSession) : Bool × Accounts :=
  if db.refreshToken.any (heldBy id next.id) then
    (true, storeSession (db.exchanged id until' next.id) next)
  else (false, db)

def revokeSession (id : Str) : Bool × Accounts :=
  ((find TokenRow.id id db.refreshToken).isSome,
    ⟨delete TokenRow.id id db.refreshToken, db.appPassword⟩)

/-- What has run out of an account. -/
def lapsed (did : Did) (now : Timestamp) (row : TokenRow) : Bool :=
  row.did = did && decide (row.expiresAt ≤ stamp now)

def expireSessions (did : Did) (now : Timestamp) : Accounts :=
  { db with refreshToken := db.refreshToken.filter fun row => !lapsed did now row }

/-- Writes an app password under its hash, or nothing where the account has one of that name. -/
def createAppPassword (did : Did) (password : AppPassword) (hash : Str) : Bool × Accounts :=
  if (find AppPasswordRow.key (did, password.name) db.appPassword).isSome then (false, db)
  else (true, ⟨db.refreshToken, db.appPassword ++ [⟨did, password.name, hash, password.privileged⟩]⟩)

/-- The app password with this hash. -/
def byHash (did : Did) (hash : Str) : Option AppPassword :=
  (db.appPassword.find? fun row => row.did = did && row.passwordScrypt = hash).map fun row =>
    ⟨row.name, row.privileged⟩

/-- Takes an app password away, along with the sessions opened with it. -/
def revokeAppPassword (did : Did) (name : Str) : Bool × Accounts :=
  ((find AppPasswordRow.key (did, name) db.appPassword).isSome,
    { refreshToken := db.refreshToken.filter fun row =>
        !(row.did = did && row.appPasswordName = some name)
      appPassword := delete AppPasswordRow.key (did, name) db.appPassword })

/-! ## One row at a time -/

/-- The row of `refresh_token` under an ID. -/
def row (id : Str) : Option TokenRow := find TokenRow.id id db.refreshToken

variable {db} {id k : Str}

theorem row_storeSession {session : TokenSession} : (db.storeSession session).row k =
    (db.row k).or (if session.id = k then some session.row else none) :=
  find_insertOrIgnore

theorem row_revokeSession : (db.revokeSession id).2.row k = if k = id then none else db.row k :=
  find_delete

theorem row_expireSessions (hk : Keyed TokenRow.id db.refreshToken) {did : Did} {now : Timestamp} :
    (db.expireSessions did now).row k = (db.row k).filter fun row => !lapsed did now row :=
  hk.find_filter _

theorem row_exchanged {until' : Timestamp} {next : Str} : (db.exchanged id until' next).row k =
    (db.row k).map fun row =>
      if heldBy id next row then { row with expiresAt := stamp until', nextId := some next }
      else row := by
  have hid : ∀ row : TokenRow, (if heldBy id next row then
      { row with expiresAt := stamp until', nextId := some next } else row).id = row.id := by
    intro row
    split_ifs <;> rfl
  rw [row, find, exchanged, List.find?_map]
  simp only [Function.comp_def, hid]
  rfl

theorem any_heldBy (hk : Keyed TokenRow.id db.refreshToken) {next : Str} :
    db.refreshToken.any (heldBy id next) = true ↔
      ∃ row, db.row id = some row ∧ (row.nextId = none ∨ row.nextId = some next) := by
  rw [List.any_eq_true]
  constructor
  · rintro ⟨row, hm, hr⟩
    simp only [heldBy, Bool.and_eq_true, decide_eq_true_eq, Bool.or_eq_true] at hr
    exact ⟨row, hk.find_eq_some.mpr ⟨hm, hr.1⟩, hr.2⟩
  · rintro ⟨row, hrow, hn⟩
    obtain ⟨hm, hid⟩ := hk.find_eq_some.mp hrow
    exact ⟨row, hm, by simpa [heldBy, hid] using hn⟩

theorem keyed_storeSession (hk : Keyed TokenRow.id db.refreshToken) (session : TokenSession) :
    Keyed TokenRow.id (db.storeSession session).refreshToken := hk.insertOrIgnore

theorem keyed_exchanged (hk : Keyed TokenRow.id db.refreshToken) (until' : Timestamp) (next : Str) :
    Keyed TokenRow.id (db.exchanged id until' next).refreshToken := by
  have hid : (db.exchanged id until' next).refreshToken.map TokenRow.id =
      db.refreshToken.map TokenRow.id := by
    rw [exchanged, List.map_map]
    apply List.map_congr_left
    intro row _
    rw [Function.comp_apply]
    split_ifs <;> rfl
  rw [Keyed, hid]
  exact hk

end Accounts

end Manapds
