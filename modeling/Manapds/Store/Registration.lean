import Manapds.Store.Accounts
import Manapds.Store.Hosting

/-!
# What a signup writes to the accounts database

`create` writes the rows of a new account, or none of them: its handle and its email are unique
whatever case they are in, and an invite is spent where it can still be. `delete` takes the rows of
an account out again.
-/

namespace Manapds

open Table

/-- A row of `invite_code`. -/
structure InviteCode where
  code : Str
  availableUses : ℕ
  disabled : Bool
  forAccount : Str

/-- A row of `invite_code_use`. -/
structure InviteCodeUse where
  code : Str
  usedBy : Did
  usedAt : ℕ

def InviteCodeUse.key (row : InviteCodeUse) : Str × Did := (row.code, row.usedBy)

namespace Signup

/-- A row of `actor`. -/
structure ActorRow where
  did : Did
  handle : Option Str
  createdAt : ℕ
  takedownRef : Option Str

/-- A row of `account`. -/
structure AccountRow where
  did : Did
  email : Str
  passwordScrypt : Str
  invitesDisabled : Bool

/-- A row of `repo_root`. -/
structure RootRow (Cid : Type) where
  did : Did
  root : Root Cid
  indexedAt : ℕ

end Signup

/-- A table that has rows of accounts and that a signup writes nothing to. -/
inductive OtherTable where
  | appPassword
  | token
  | emailToken
  | authorizationRequest
  | deviceAccount
  | accountDevice
  | authorizedClient
  | accountEmailAuthFactor
deriving DecidableEq

/-- Whether rows are deleted with the account, by name or along with the row of `account` that they
refer to. -/
def OtherTable.deleted : OtherTable → Bool
  | .accountEmailAuthFactor => false
  | _ => true

/-- The accounts database. Of the other tables it is whose each row is. -/
@[ext] structure AccountTables (Cid : Type) where
  inviteCode : List InviteCode
  inviteCodeUse : List InviteCodeUse
  actor : List Signup.ActorRow
  account : List Signup.AccountRow
  repoRoot : List (Signup.RootRow Cid)
  refreshToken : List TokenRow
  other : OtherTable → List Did

/-- Everything written the moment an account exists. -/
structure Registration (Cid : Type) where
  did : Did
  handle : Option Handle
  email : Str
  passwordScrypt : Str
  root : Root Cid
  invite : Option Str
  session : Option TokenSession

inductive RegistrationError where
  | inviteUnavailable
  | handleTaken
  | emailTaken
  | sqlite
deriving DecidableEq

/-- `lower` of SQLite. -/
def sqlLower (s : Str) : Str :=
  s.map fun b => if b.isAsciiUppercase then Fin.ofNat 256 (b.val + 32) else b

namespace AccountTables

variable {Cid : Type}

def empty : AccountTables Cid := ⟨[], [], [], [], [], [], fun _ => []⟩

/-- Whether a code can still be spent. -/
def available (db : AccountTables Cid) (code : Str) : Bool :=
  (find InviteCode.code code db.inviteCode).any fun invite =>
    !invite.disabled &&
    (db.actor.find? fun row => row.did.str = invite.forAccount).all (·.takedownRef = none) &&
    decide ((db.inviteCodeUse.filter fun use => use.code = code).length < invite.availableUses)

/-- Spends the invite a registration came in on. -/
def spend (db : AccountTables Cid) (did : Did) (now : Timestamp) :
    Option Str → Except RegistrationError (AccountTables Cid)
  | none => .ok db
  | some code =>
    if db.available code = false then .error .inviteUnavailable
    else if (find InviteCodeUse.key (code, did) db.inviteCodeUse).isSome then .error .sqlite
    else .ok { db with inviteCodeUse := db.inviteCodeUse ++ [⟨code, did, stamp now⟩] }

def insertActor (db : AccountTables Cid) (row : Signup.ActorRow) :
    Except RegistrationError (AccountTables Cid) :=
  if (find Signup.ActorRow.did row.did db.actor).isSome then .error .sqlite
  else if row.handle ≠ none ∧
      db.actor.any (fun held => held.handle.map sqlLower = row.handle.map sqlLower) then
    .error .handleTaken
  else .ok { db with actor := db.actor ++ [row] }

def insertAccount (db : AccountTables Cid) (row : Signup.AccountRow) :
    Except RegistrationError (AccountTables Cid) :=
  if (find Signup.AccountRow.did row.did db.account).isSome then .error .sqlite
  else if db.account.any (fun held => sqlLower held.email = sqlLower row.email) then
    .error .emailTaken
  else .ok { db with account := db.account ++ [row] }

def moveRoot (db : AccountTables Cid) (row : Signup.RootRow Cid) : AccountTables Cid :=
  { db with
    repoRoot := upsert Signup.RootRow.did row (fun held => { held with root := row.root }) db.repoRoot }

def storeSession (db : AccountTables Cid) (session : Option TokenSession) : AccountTables Cid :=
  { db with
    refreshToken := session.elim db.refreshToken fun session =>
      insertOrIgnore TokenRow.id session.row db.refreshToken }

/-- Writes a new account and everything that comes with it, or none of it. -/
def create (db : AccountTables Cid) (registration : Registration Cid) (now : Timestamp) :
    Except RegistrationError (AccountTables Cid) := do
  let db ← db.spend registration.did now registration.invite
  let db ← db.insertActor
    ⟨registration.did, registration.handle.map Handle.str, stamp now, none⟩
  let db ← db.insertAccount
    ⟨registration.did, registration.email, registration.passwordScrypt, false⟩
  return (db.moveRoot ⟨registration.did, registration.root, stamp now⟩).storeSession
    registration.session

/-- Takes an account and everything hanging off it back out. -/
def delete (db : AccountTables Cid) (did : Did) : AccountTables Cid where
  inviteCode := db.inviteCode
  inviteCodeUse := Table.delete InviteCodeUse.usedBy did db.inviteCodeUse
  actor := Table.delete Signup.ActorRow.did did db.actor
  account := Table.delete Signup.AccountRow.did did db.account
  repoRoot := Table.delete Signup.RootRow.did did db.repoRoot
  refreshToken := Table.delete TokenRow.did did db.refreshToken
  other table := if table.deleted then (db.other table).filter (· ≠ did) else db.other table

/-- The rows of one account. -/
def of (db : AccountTables Cid) (did : Did) : AccountTables Cid where
  inviteCode := db.inviteCode.filter fun row => row.forAccount = did.str
  inviteCodeUse := db.inviteCodeUse.filter fun row => row.usedBy = did
  actor := db.actor.filter fun row => row.did = did
  account := db.account.filter fun row => row.did = did
  repoRoot := db.repoRoot.filter fun row => row.did = did
  refreshToken := db.refreshToken.filter fun row => row.did = did
  other table := (db.other table).filter (· = did)

/-- No row of an account is in a table that signups leave alone. -/
def Apart (db : AccountTables Cid) (did : Did) : Prop :=
  (db.of did).inviteCode = [] ∧ ∀ table, (db.of did).other table = []

variable {db db' : AccountTables Cid} {did : Did} {now : Timestamp}

theorem spend_eq_ok {invite : Option Str} (h : db.spend did now invite = .ok db') :
    db' = { db with inviteCodeUse := db'.inviteCodeUse } := by
  cases invite with
  | none =>
    cases h
    rfl
  | some code =>
    dsimp only [spend] at h
    split_ifs at h
    cases h
    rfl

theorem insertActor_eq_ok {row : Signup.ActorRow} (h : db.insertActor row = .ok db') :
    db' = { db with actor := db.actor ++ [row] } := by
  unfold insertActor at h
  split_ifs at h
  exact (Except.ok.inj h).symm

theorem insertAccount_eq_ok {row : Signup.AccountRow} (h : db.insertAccount row = .ok db') :
    db' = { db with account := db.account ++ [row] } := by
  unfold insertAccount at h
  split_ifs at h
  exact (Except.ok.inj h).symm

/-- A registration leaves a row of its account, and the tables it has nothing for alone. -/
theorem create_eq_ok {registration : Registration Cid} (h : db.create registration now = .ok db') :
    (∃ row ∈ db'.actor, row.did = registration.did) ∧ db'.inviteCode = db.inviteCode ∧
      db'.other = db.other := by
  unfold create at h
  cases h1 : db.spend registration.did now registration.invite with
  | error e =>
    rw [h1] at h
    cases h
  | ok db1 =>
    cases h2 : db1.insertActor
        ⟨registration.did, registration.handle.map Handle.str, stamp now, none⟩ with
    | error e =>
      simp only [h1, h2, bind, Except.bind] at h
      cases h
    | ok db2 =>
      cases h3 : db2.insertAccount
          ⟨registration.did, registration.email, registration.passwordScrypt, false⟩ with
      | error e =>
        simp only [h1, h2, h3, bind, Except.bind] at h
        cases h
      | ok db3 =>
        simp only [h1, h2, h3, bind, Except.bind, pure, Except.pure] at h
        obtain rfl := Except.ok.inj h
        rw [insertAccount_eq_ok h3, insertActor_eq_ok h2, spend_eq_ok h1]
        exact ⟨⟨_, List.mem_append_right _ (List.mem_singleton_self _), rfl⟩, rfl, rfl⟩

theorem Apart.congr (h : db.Apart did) (hi : db'.inviteCode = db.inviteCode)
    (ho : db'.other = db.other) : db'.Apart did := by
  unfold Apart of at h ⊢
  rw [hi, ho]
  exact h

theorem Apart.of_eq (h : db.Apart did) (ho : db'.of did = db.of did) : db'.Apart did := by
  unfold Apart at h ⊢
  rw [ho]
  exact h

/-- Where an account has rows in no other table, deleting it leaves none. -/
theorem of_delete (h : db.Apart did) : (db.delete did).of did = empty := by
  have hnone : ∀ {ρ : Type} (key : ρ → Did) (rows : List ρ),
      (Table.delete key did rows).filter (fun row => key row = did) = [] := by
    intro ρ key rows
    rw [Table.delete, List.filter_filter, List.filter_eq_nil_iff]
    intro row _
    simp
  have hother : ((db.delete did).of did).other = fun _ => [] := by
    funext table
    have hall := h.2 table
    simp only [of, List.filter_eq_nil_iff] at hall ⊢
    intro row hm
    apply hall row
    unfold delete at hm
    dsimp only at hm
    split_ifs at hm
    · exact List.mem_of_mem_filter hm
    · exact hm
  exact AccountTables.ext h.1 (hnone _ _) (hnone _ _) (hnone _ _) (hnone _ _) (hnone _ _) hother

theorem Apart.of_empty (h : db.of did = empty) : db.Apart did := by
  rw [Apart, h]
  exact ⟨rfl, fun _ => rfl⟩

end AccountTables

end Manapds
