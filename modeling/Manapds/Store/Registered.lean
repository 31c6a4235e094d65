import Manapds.Repo.DagCbor
import Manapds.Store.Registration
import Manapds.Syntax.AtUri

/-!
# Whose accounts these are

The accounts database over any run of signups, of signups taken back out, of invites handed out and
of whatever else is written to it. Every lookup answers by the signups that stand: an account is
found by its identifier, by its handle and by its email in whatever case they are asked for, and no
two accounts are found by the same. An invite is never spent more often than it was handed out for.
-/

namespace Manapds

open Table

variable {Cid : Type}

namespace AccountTables

/-- An account, as the two tables hold it between them. -/
structure Account where
  did : Did
  handle : Option Handle
  email : Str
  passwordScrypt : Str

/-- What a lookup selects. -/
structure Row where
  did : Str
  handle : Option Str
  email : Str
  passwordScrypt : Str

/-- `actor join account`. -/
def joined (db : AccountTables Cid) : List Row :=
  (Table.join Signup.ActorRow.did Signup.AccountRow.did db.actor db.account).map fun rows =>
    ⟨rows.1.did.str, rows.1.handle, rows.2.email, rows.2.passwordScrypt⟩

def Row.account (row : Row) : Except String Account := do
  let did ← (Did.parse row.did).mapError fun _ => "a stored DID that is not one"
  let handle ← match row.handle with
    | none => .ok none
    | some handle =>
      ((Handle.parse handle).map some).mapError fun _ => "a stored handle that is not one"
  return ⟨did, handle, row.email, row.passwordScrypt⟩

/-- Runs one of the lookups. -/
def query (db : AccountTables Cid) (sql : Row → Bool) : Except String (Option Account) :=
  match db.joined.find? sql with
  | none => .ok none
  | some row => row.account.map some

def byDid (db : AccountTables Cid) (did : Did) : Except String (Option Account) :=
  db.query fun row => row.did = did.str

def byHandle (db : AccountTables Cid) (handle : Handle) : Except String (Option Account) :=
  db.query fun row => row.handle.any fun held => sqlLower held = sqlLower handle.str

def byEmail (db : AccountTables Cid) (email : Str) : Except String (Option Account) :=
  db.query fun row => sqlLower row.email = sqlLower email

/-- The account an identifier names, whichever of the two kinds it is. -/
def lookup (db : AccountTables Cid) : AtIdentifier → Except String (Option Account)
  | .did did => db.byDid did
  | .handle handle => db.byHandle handle

def insertInvite (uses : ℕ) (forAccount : Str) (db : AccountTables Cid) (code : Str) :
    Except RegistrationError (AccountTables Cid) :=
  if (find InviteCode.code code db.inviteCode).isSome then .error .sqlite
  else .ok { db with inviteCode := db.inviteCode ++ [⟨code, uses, false, forAccount⟩] }

/-- Writes codes for one account, or none of them. -/
def createInvites (db : AccountTables Cid) (codes : List Str) (forAccount : Str) (uses : ℕ) :
    Except RegistrationError (AccountTables Cid) :=
  codes.foldlM (insertInvite uses forAccount) db

/-- Moves this server's copy of where an account's repository has got to. -/
def updateRoot (db : AccountTables Cid) (did : Did) (root : Root Cid) (now : Timestamp) :
    AccountTables Cid :=
  { db with
    repoRoot := upsert Signup.RootRow.did ⟨did, root, stamp now⟩
      (fun held => { held with root := root, indexedAt := stamp now }) db.repoRoot }

/-- A database, and the signups that stand in it: those that were written and not taken back out,
in the order they were written. -/
inductive Standing : AccountTables Cid → List (Registration Cid) → Prop where
  | empty : Standing empty []
  | create {db db' : AccountTables Cid} {standing : List (Registration Cid)}
      {registration : Registration Cid} {now : Timestamp} (before : Standing db standing)
      (written : db.create registration now = .ok db') :
      Standing db' (standing ++ [registration])
  | delete {db : AccountTables Cid} {standing : List (Registration Cid)}
      (before : Standing db standing) (did : Did) :
      Standing (db.delete did) (standing.filter fun registration => registration.did ≠ did)
  | createInvites {db db' : AccountTables Cid} {standing : List (Registration Cid)}
      {codes : List Str} {forAccount : Str} {uses : ℕ} (before : Standing db standing)
      (written : db.createInvites codes forAccount uses = .ok db') : Standing db' standing
  | updateRoot {db : AccountTables Cid} {standing : List (Registration Cid)}
      (before : Standing db standing) (did : Did) (root : Root Cid) (now : Timestamp) :
      Standing (db.updateRoot did root now) standing
  /-- Sessions, app passwords, and what else signups leave alone. -/
  | elsewhere {db : AccountTables Cid} {standing : List (Registration Cid)}
      (before : Standing db standing) (refreshToken : List TokenRow)
      (other : OtherTable → List Did) :
      Standing { db with refreshToken := refreshToken, other := other } standing

end AccountTables

namespace Registration

def account (registration : Registration Cid) : AccountTables.Account :=
  ⟨registration.did, registration.handle, registration.email, registration.passwordScrypt⟩

def accountRow (registration : Registration Cid) : Signup.AccountRow :=
  ⟨registration.did, registration.email, registration.passwordScrypt, false⟩

def row (registration : Registration Cid) : AccountTables.Row :=
  ⟨registration.did.str, registration.handle.map Handle.str, registration.email,
    registration.passwordScrypt⟩

/-- The handle it is found by. -/
def name (registration : Registration Cid) : Option Str :=
  registration.handle.map fun handle => sqlLower handle.str

/-- The email it is found by. -/
def mail (registration : Registration Cid) : Str := sqlLower registration.email

/-- The use of the code it came in on. -/
def use (registration : Registration Cid) : Option (Str × Did) :=
  registration.invite.map fun code => (code, registration.did)

/-- A handle is asked for in any case. -/
theorem any_row_handle (registration : Registration Cid) (handle : Handle) :
    (registration.row.handle.any fun held => sqlLower held = sqlLower handle.str) = true ↔
      registration.name = some (sqlLower handle.str) := by
  obtain ⟨did, handle', email, passwordScrypt, root, invite, session⟩ := registration
  cases handle' <;> simp [row, name]

theorem account_row (registration : Registration Cid) :
    registration.row.account = .ok registration.account := by
  obtain ⟨did, handle, email, passwordScrypt, root, invite, session⟩ := registration
  have hdid := Did.parse_eq_ok.mpr (rfl : did.str = did.str)
  unfold row AccountTables.Row.account
  rw [hdid]
  cases handle with
  | none => rfl
  | some handle =>
    have hhandle := Handle.parse_eq_ok.mpr (rfl : handle.str = handle.str)
    dsimp only [Option.map_some]
    rw [hhandle]
    rfl

end Registration

namespace AccountTables

/-- A row of `actor`, whenever it was written. -/
def undated (row : Signup.ActorRow) : Did × Option Str × Option Str :=
  (row.did, row.handle, row.takedownRef)

/-- How often a code is spent by the signups that stand. -/
def spent (standing : List (Registration Cid)) (code : Str) : ℕ :=
  standing.countP fun registration => registration.invite = some code

/-- The rows are those of the signups that stand, which differ in all that is looked up. -/
structure Holds (db : AccountTables Cid) (standing : List (Registration Cid)) : Prop where
  actor : db.actor.map undated =
    standing.map fun registration => (registration.did, registration.handle.map Handle.str, none)
  account : db.account = standing.map Registration.accountRow
  use : db.inviteCodeUse.map InviteCodeUse.key = standing.filterMap Registration.use
  did : Keyed Registration.did standing
  name : Unique Registration.name standing
  mail : Keyed Registration.mail standing
  code : Keyed InviteCode.code db.inviteCode
  invite : ∀ row ∈ db.inviteCode, row.disabled = false ∧ spent standing row.code ≤ row.availableUses
  handed : ∀ registration ∈ standing, ∀ code, registration.invite = some code →
    ∃ row ∈ db.inviteCode, row.code = code

namespace Holds

variable {db : AccountTables Cid} {standing : List (Registration Cid)}

theorem dids (h : db.Holds standing) :
    db.actor.map Signup.ActorRow.did = standing.map Registration.did := by
  have := congrArg (List.map Prod.fst) h.actor
  rwa [List.map_map, List.map_map] at this

theorem names (h : db.Holds standing) :
    db.actor.map Signup.ActorRow.handle =
      standing.map fun registration => registration.handle.map Handle.str := by
  have := congrArg (List.map fun row => row.2.1) h.actor
  rwa [List.map_map, List.map_map] at this

theorem takedowns (h : db.Holds standing) {row : Signup.ActorRow} (hrow : row ∈ db.actor) :
    row.takedownRef = none := by
  have hview := List.mem_map_of_mem (f := undated) hrow
  rw [h.actor] at hview
  obtain ⟨registration, -, he⟩ := List.mem_map.mp hview
  exact (congrArg (fun view => view.2.2) he).symm

theorem keyed (h : db.Holds standing) : Keyed Signup.ActorRow.did db.actor := by
  rw [Keyed, h.dids]
  exact h.did

theorem joined (h : db.Holds standing) : db.joined = standing.map Registration.row := by
  have he : db.actor.map Signup.ActorRow.did = db.account.map Signup.AccountRow.did := by
    rw [h.dids, h.account, List.map_map]
    rfl
  have hview : (fun rows : Signup.ActorRow × Signup.AccountRow =>
      (⟨rows.1.did.str, rows.1.handle, rows.2.email, rows.2.passwordScrypt⟩ : Row)) =
      (fun view => ⟨view.1.1.str, view.1.2.1, view.2.email, view.2.passwordScrypt⟩) ∘
        Prod.map undated id := rfl
  rw [AccountTables.joined, join_eq_zip he h.keyed, hview, ← List.map_map, ← List.zip_map, h.actor,
    h.account, List.map_id, List.zip_map', List.map_map]
  rfl

/-- A lookup finds the first signup that it selects, if any, and reads it back. -/
theorem query (h : db.Holds standing) (sql : Row → Bool) : db.query sql =
    .ok ((standing.find? fun registration => sql registration.row).map Registration.account) := by
  rw [AccountTables.query, h.joined, List.find?_map]
  cases hfind : standing.find? (sql ∘ Registration.row) with
  | none =>
    rw [Function.comp_def] at hfind
    rw [hfind]
    rfl
  | some registration =>
    rw [Function.comp_def] at hfind
    rw [hfind]
    exact congrArg (Except.map some) registration.account_row

theorem length_uses (h : db.Holds standing) (code : Str) :
    (db.inviteCodeUse.filter fun use => use.code = code).length = spent standing code := by
  have hkeys : (db.inviteCodeUse.filter fun use => use.code = code).length =
      (db.inviteCodeUse.map InviteCodeUse.key).countP fun key => key.1 = code := by
    rw [List.countP_map, ← List.countP_eq_length_filter]
    rfl
  rw [hkeys, h.use, List.countP_filterMap, spent]
  apply List.countP_congr
  intro registration _
  cases hinvite : registration.invite <;> simp [Registration.use, hinvite]

/-- A code can be spent where it was handed out for more signups than stand on it. -/
theorem available (h : db.Holds standing) (code : Str) : db.available code = true ↔
    ∃ invite ∈ db.inviteCode, invite.code = code ∧ spent standing code < invite.availableUses := by
  have hactor : ∀ forAccount : Str,
      ((db.actor.find? fun row => row.did.str = forAccount).all (·.takedownRef = none)) = true := by
    intro forAccount
    cases hfind : db.actor.find? fun row => row.did.str = forAccount with
    | none => rfl
    | some row => simp [h.takedowns (List.mem_of_find?_eq_some hfind)]
  rw [AccountTables.available, Option.any_eq_true]
  simp only [hactor, h.length_uses, Bool.and_true, Bool.and_eq_true, Bool.not_eq_true',
    decide_eq_true_eq]
  constructor
  · rintro ⟨invite, hfind, -, hspent⟩
    exact ⟨invite, mem_of_find hfind, key_of_find hfind, hspent⟩
  · rintro ⟨invite, hinvite, rfl, hspent⟩
    exact ⟨invite, h.code.find_eq_some.mpr ⟨hinvite, rfl⟩, (h.invite invite hinvite).1, hspent⟩

end Holds

/-- What a registration makes of the database where nothing refuses it. -/
def registered (db : AccountTables Cid) (registration : Registration Cid) (now : Timestamp) :
    AccountTables Cid where
  inviteCode := db.inviteCode
  inviteCodeUse := db.inviteCodeUse ++
    (registration.invite.map fun code => InviteCodeUse.mk code registration.did (stamp now)).toList
  actor := db.actor ++ [⟨registration.did, registration.handle.map Handle.str, stamp now, none⟩]
  account := db.account ++ [registration.accountRow]
  repoRoot := upsert Signup.RootRow.did ⟨registration.did, registration.root, stamp now⟩
    (fun held => { held with root := registration.root }) db.repoRoot
  refreshToken := registration.session.elim db.refreshToken fun session =>
    insertOrIgnore TokenRow.id session.row db.refreshToken
  other := db.other

/-- What a registration is refused for, first of all its invite. -/
def refusal (db : AccountTables Cid) (standing : List (Registration Cid))
    (registration : Registration Cid) : Option RegistrationError :=
  if registration.invite.any fun code => !db.available code then some .inviteUnavailable
  else if registration.name ≠ none ∧ ∃ held ∈ standing, held.name = registration.name then
    some .handleTaken
  else if ∃ held ∈ standing, held.mail = registration.mail then some .emailTaken
  else none

namespace Holds

variable {db db' : AccountTables Cid} {standing : List (Registration Cid)}
    {registration : Registration Cid} {now : Timestamp}

theorem spend_eq (h : db.Holds standing) (hnew : registration.did ∉ standing.map Registration.did) :
    db.spend registration.did now registration.invite =
      if registration.invite.any fun code => !db.available code then .error .inviteUnavailable
      else .ok { db with inviteCodeUse := (db.registered registration now).inviteCodeUse } := by
  cases hinvite : registration.invite with
  | none => simp [spend, registered, hinvite]
  | some code =>
    have hfree : find InviteCodeUse.key (code, registration.did) db.inviteCodeUse = none := by
      rw [find_eq_none]
      intro use huse hkey
      have hmem := List.mem_map_of_mem (f := InviteCodeUse.key) huse
      rw [h.use, hkey] at hmem
      obtain ⟨held, hheld, huses⟩ := List.mem_filterMap.mp hmem
      obtain ⟨_, -, he⟩ := Option.map_eq_some_iff.mp huses
      have hdid : held.did = registration.did := congrArg Prod.snd he
      exact hnew (List.mem_map.mpr ⟨held, hheld, hdid⟩)
    by_cases ha : db.available code = true
    · simp [spend, registered, hinvite, ha, hfree]
    · simp [spend, ha]

theorem insertActor_eq (h : db.Holds standing)
    (hnew : registration.did ∉ standing.map Registration.did) (uses : List InviteCodeUse) :
    { db with inviteCodeUse := uses }.insertActor
        ⟨registration.did, registration.handle.map Handle.str, stamp now, none⟩ =
      if registration.name ≠ none ∧ ∃ held ∈ standing, held.name = registration.name then
        .error .handleTaken
      else .ok { db with
        inviteCodeUse := uses, actor := (db.registered registration now).actor } := by
  have hfree : find Signup.ActorRow.did registration.did db.actor = none := by
    rw [find_eq_none]
    intro row hrow he
    apply hnew
    rw [← h.dids, ← he]
    exact List.mem_map_of_mem hrow
  have hname : ∀ held : Option Handle,
      (held.map Handle.str).map sqlLower = held.map fun handle => sqlLower handle.str := by
    intro held
    rw [Option.map_map]
    rfl
  have hnone : registration.handle.map Handle.str ≠ none ↔ registration.name ≠ none := by
    simp [Registration.name]
  have hany : (db.actor.any fun held => held.handle.map sqlLower =
      (registration.handle.map Handle.str).map sqlLower) = true ↔
      ∃ held ∈ standing, held.name = registration.name := by
    have hmap : (db.actor.any fun held => held.handle.map sqlLower =
        (registration.handle.map Handle.str).map sqlLower) =
        (db.actor.map Signup.ActorRow.handle).any fun held => held.map sqlLower =
          (registration.handle.map Handle.str).map sqlLower := by
      rw [List.any_map]
      rfl
    rw [hmap, h.names, List.any_map, List.any_eq_true]
    simp only [Function.comp_apply, hname, decide_eq_true_eq]
    rfl
  simp only [insertActor, hfree, hany, hnone]
  rfl

theorem insertAccount_eq (h : db.Holds standing) (now : Timestamp)
    (hnew : registration.did ∉ standing.map Registration.did) (uses : List InviteCodeUse)
    (actors : List Signup.ActorRow) :
    { db with inviteCodeUse := uses, actor := actors }.insertAccount registration.accountRow =
      if ∃ held ∈ standing, held.mail = registration.mail then .error .emailTaken
      else .ok { db with
        inviteCodeUse := uses
        actor := actors
        account := (db.registered registration now).account } := by
  have hfree : find Signup.AccountRow.did registration.accountRow.did db.account = none := by
    rw [find_eq_none, h.account]
    intro row hrow he
    obtain ⟨held, hheld, rfl⟩ := List.mem_map.mp hrow
    exact hnew (List.mem_map.mpr ⟨held, hheld, he⟩)
  have hany : (db.account.any fun held =>
      sqlLower held.email = sqlLower registration.accountRow.email) = true ↔
      ∃ held ∈ standing, held.mail = registration.mail := by
    rw [h.account, List.any_map, List.any_eq_true]
    simp only [Function.comp_apply, decide_eq_true_eq]
    rfl
  simp only [insertAccount, hfree, hany]
  rfl

/-- A registration under a new identifier is refused, or written as it is. -/
theorem create_eq (h : db.Holds standing) (now : Timestamp)
    (hnew : registration.did ∉ standing.map Registration.did) : db.create registration now =
      (db.refusal standing registration).elim (.ok (db.registered registration now)) .error := by
  unfold create refusal
  rw [h.spend_eq hnew]
  by_cases hi : (registration.invite.any fun code => !db.available code) = true
  · rw [if_pos hi, if_pos hi]
    rfl
  rw [if_neg hi, if_neg hi]
  dsimp only [bind, Except.bind]
  rw [h.insertActor_eq hnew]
  by_cases hn : registration.name ≠ none ∧ ∃ held ∈ standing, held.name = registration.name
  · rw [if_pos hn, if_pos hn]
    rfl
  rw [if_neg hn, if_neg hn]
  dsimp only
  have haccount := h.insertAccount_eq now hnew
    (db.registered registration now).inviteCodeUse (db.registered registration now).actor
  rw [Registration.accountRow] at haccount
  rw [haccount]
  by_cases hm : ∃ held ∈ standing, held.mail = registration.mail
  · rw [if_pos hm, if_pos hm]
    rfl
  · rw [if_neg hm, if_neg hm]
    rfl

/-- No identifier is registered over one that stands. -/
theorem create_new (h : db.Holds standing) (hc : db.create registration now = .ok db') :
    registration.did ∉ standing.map Registration.did := by
  intro hold
  rw [← h.dids] at hold
  obtain ⟨row, hrow, hdid⟩ := List.mem_map.mp hold
  unfold create at hc
  cases hs : db.spend registration.did now registration.invite with
  | error e =>
    rw [hs] at hc
    cases hc
  | ok spent =>
    have hactor : spent.actor = db.actor := by rw [spend_eq_ok hs]
    have hfound : (find Signup.ActorRow.did registration.did spent.actor).isSome = true := by
      rw [hactor, isSome_find]
      exact ⟨row, hrow, hdid⟩
    rw [hs] at hc
    simp only [bind, Except.bind, insertActor, hfound, if_true] at hc
    cases hc

theorem congr (h : db.Holds standing) (hactor : db'.actor = db.actor)
    (haccount : db'.account = db.account) (huse : db'.inviteCodeUse = db.inviteCodeUse)
    (hcode : db'.inviteCode = db.inviteCode) : db'.Holds standing := by
  constructor
  · rw [hactor, h.actor]
  · rw [haccount, h.account]
  · rw [huse, h.use]
  · exact h.did
  · exact h.name
  · exact h.mail
  · rw [hcode]
    exact h.code
  · rw [hcode]
    exact h.invite
  · rw [hcode]
    exact h.handed

theorem spent_concat (code : Str) : spent (standing ++ [registration]) code =
    spent standing code + if registration.invite = some code then 1 else 0 := by
  rw [spent, spent, List.countP_append, List.countP_singleton]
  simp

theorem create (h : db.Holds standing) (hc : db.create registration now = .ok db') :
    db'.Holds (standing ++ [registration]) := by
  have hnew := h.create_new hc
  rw [h.create_eq now hnew] at hc
  cases hr : db.refusal standing registration with
  | some e =>
    rw [hr] at hc
    cases hc
  | none =>
  rw [hr] at hc
  obtain rfl := Except.ok.inj hc
  unfold refusal at hr
  split_ifs at hr with hi hn hm
  constructor
  · simp only [registered, List.map_append, h.actor]
    rfl
  · simp only [registered, List.map_append, h.account]
    rfl
  · rw [List.filterMap_append, ← h.use]
    cases hinvite : registration.invite with
    | none => simp [registered, hinvite, Registration.use]
    | some code => simp [registered, hinvite, Registration.use, InviteCodeUse.key]
  · apply h.did.concat
    rw [find_eq_none]
    intro held hheld he
    exact hnew (List.mem_map.mpr ⟨held, hheld, he⟩)
  · apply h.name.concat
    intro name hname held hheld he
    rw [hname] at hn
    exact hn ⟨Option.some_ne_none name, held, hheld, he⟩
  · apply h.mail.concat
    rw [find_eq_none]
    intro held hheld he
    exact hm ⟨held, hheld, he⟩
  · exact h.code
  · intro row hrow
    refine ⟨(h.invite row hrow).1, ?_⟩
    rw [spent_concat]
    by_cases hinvite : registration.invite = some row.code
    · have ha : db.available row.code = true := by simpa [hinvite] using hi
      obtain ⟨invite, hmem, hcode, hlt⟩ := (h.available row.code).mp ha
      obtain rfl := List.inj_on_of_nodup_map h.code hmem hrow hcode
      rw [if_pos hinvite]
      exact hlt
    · rw [if_neg hinvite]
      exact (h.invite row hrow).2
  · intro held hheld code hinvite
    rcases List.mem_append.mp hheld with hheld | hlast
    · exact h.handed held hheld code hinvite
    · obtain rfl := List.mem_singleton.mp hlast
      have ha : db.available code = true := by simpa [hinvite] using hi
      obtain ⟨invite, hmem, hcode, -⟩ := (h.available code).mp ha
      exact ⟨invite, hmem, hcode⟩

theorem delete (h : db.Holds standing) (did : Did) :
    (db.delete did).Holds (standing.filter fun held => held.did ≠ did) := by
  have hsub : (standing.filter fun held => held.did ≠ did).Sublist standing :=
    List.filter_sublist
  constructor
  · have hview : (fun row : Signup.ActorRow => decide (row.did ≠ did)) =
        (fun view : Did × Option Str × Option Str => decide (view.1 ≠ did)) ∘ undated := rfl
    dsimp only [AccountTables.delete, Table.delete]
    rw [hview, ← List.filter_map, h.actor, List.filter_map]
    rfl
  · dsimp only [AccountTables.delete, Table.delete]
    rw [h.account, List.filter_map]
    rfl
  · have hview : (fun use : InviteCodeUse => decide (use.usedBy ≠ did)) =
        (fun key : Str × Did => decide (key.2 ≠ did)) ∘ InviteCodeUse.key := rfl
    dsimp only [AccountTables.delete, Table.delete]
    rw [hview, ← List.filter_map, h.use, List.filter_filterMap, List.filterMap_filter]
    apply List.filterMap_congr
    intro held _
    cases hinvite : held.invite with
    | none => simp [Registration.use, hinvite]
    | some code =>
      simp only [Registration.use, hinvite, Option.map_some]
      by_cases hd : held.did = did <;> simp [hd, Option.filter]
  · exact h.did.sublist (hsub.map _)
  · exact h.name.sublist (hsub.filterMap _)
  · exact h.mail.sublist (hsub.map _)
  · exact h.code
  · intro row hrow
    exact ⟨(h.invite row hrow).1, hsub.countP_le.trans (h.invite row hrow).2⟩
  · intro held hheld
    exact h.handed held (hsub.subset hheld)

theorem insertInvite {uses : ℕ} {forAccount code : Str} (h : db.Holds standing)
    (hc : insertInvite uses forAccount db code = .ok db') : db'.Holds standing := by
  unfold AccountTables.insertInvite at hc
  split_ifs at hc with hs
  obtain rfl := Except.ok.inj hc
  have hfree : find InviteCode.code code db.inviteCode = none := by simpa using hs
  constructor
  · exact h.actor
  · exact h.account
  · exact h.use
  · exact h.did
  · exact h.name
  · exact h.mail
  · exact h.code.concat hfree
  · intro row hrow
    rcases List.mem_append.mp hrow with hrow | hlast
    · exact h.invite row hrow
    · obtain rfl := List.mem_singleton.mp hlast
      refine ⟨rfl, ?_⟩
      -- Nobody signed up on a code before it was handed out.
      have hzero : spent standing code = 0 := by
        rw [spent, List.countP_eq_zero]
        intro held hheld hinvite
        obtain ⟨row, hrow, hcode⟩ := h.handed held hheld code (of_decide_eq_true hinvite)
        exact find_eq_none.mp hfree row hrow hcode
      simp [hzero]
  · intro held hheld code hinvite
    obtain ⟨row, hrow, hcode⟩ := h.handed held hheld code hinvite
    exact ⟨row, List.mem_append_left _ hrow, hcode⟩

theorem createInvites {codes : List Str} {forAccount : Str} {uses : ℕ} (h : db.Holds standing)
    (hc : db.createInvites codes forAccount uses = .ok db') : db'.Holds standing := by
  induction codes generalizing db with
  | nil => exact Except.ok.inj hc ▸ h
  | cons code codes ih =>
    rw [AccountTables.createInvites, List.foldlM_cons] at hc
    obtain ⟨first, hfirst, hrest⟩ := bind_ok_iff.mp hc
    exact ih (h.insertInvite hfirst) hrest

end Holds

/-- The rows are those of the signups that stand, after any run. -/
theorem Standing.holds {db : AccountTables Cid} {standing : List (Registration Cid)}
    (h : Standing db standing) : db.Holds standing := by
  induction h with
  | empty =>
    constructor
    · rfl
    · rfl
    · rfl
    · exact List.nodup_nil
    · exact List.nodup_nil
    · exact List.nodup_nil
    · exact List.nodup_nil
    · intro row hrow
      cases hrow
    · intro held hheld
      cases hheld
  | create _ hc ih => exact ih.create hc
  | delete _ did ih => exact ih.delete did
  | createInvites _ hc ih => exact ih.createInvites hc
  | updateRoot _ did root now ih => exact ih.congr rfl rfl rfl rfl
  | elsewhere _ refreshToken other ih => exact ih.congr rfl rfl rfl rfl

/-- Whether a lookup answers with the one signup that a name is of, or with none where it is of
none. -/
def Finds (found : Except String (Option Account)) (standing : List (Registration Cid))
    (named : Registration Cid → Prop) : Prop :=
  (∃ held ∈ standing, named held ∧ (∀ other ∈ standing, named other → other = held) ∧
    found = .ok (some held.account)) ∨
  (∀ held ∈ standing, ¬named held) ∧ found = .ok none

/-- An identifier names the account that goes by it. A handle does in any case. -/
def Named : AtIdentifier → Registration Cid → Prop
  | .did did, held => held.did = did
  | .handle handle, held => held.name = some (sqlLower handle.str)

/-- What the database tells of the signups that stand. -/
structure Tells (db : AccountTables Cid) (standing : List (Registration Cid)) : Prop where
  lookup : ∀ identifier, Finds (db.lookup identifier) standing (Named identifier)
  byEmail : ∀ email, Finds (db.byEmail email) standing fun held => held.mail = sqlLower email
  available : ∀ code, db.available code = true ↔
    ∃ invite ∈ db.inviteCode, invite.code = code ∧ spent standing code < invite.availableUses
  spent : ∀ invite ∈ db.inviteCode, spent standing invite.code ≤ invite.availableUses

/-- A lookup finds the one row it selects. -/
theorem Holds.finds {db : AccountTables Cid} {standing : List (Registration Cid)}
    (h : db.Holds standing) {sql : Row → Bool} {named : Registration Cid → Prop}
    (hsql : ∀ held, sql held.row = true ↔ named held)
    (hone : ∀ a ∈ standing, ∀ b ∈ standing, named a → named b → a = b) :
    Finds (db.query sql) standing named := by
  rw [h.query]
  cases hfind : standing.find? fun held => sql held.row with
  | none =>
    right
    refine ⟨?_, rfl⟩
    intro held hheld hnamed
    have hno := List.find?_eq_none.mp hfind held hheld
    exact hno ((hsql held).mpr hnamed)
  | some held =>
    left
    have hheld := List.mem_of_find?_eq_some hfind
    have hnamed := (hsql held).mp (List.find?_some (p := sql ∘ Registration.row) hfind)
    refine ⟨held, hheld, hnamed, ?_, rfl⟩
    intro other hother hothers
    exact hone other hother held hheld hothers hnamed

end AccountTables

open AccountTables DagCbor

/-- After any run of the accounts database, every lookup answers with the one signup standing that
it names, and no invite was spent more often than it was handed out for. -/
theorem signups_told {db : AccountTables Cid} {standing : List (Registration Cid)}
    (h : AccountTables.Standing db standing) : db.Tells standing := by
  have hholds := h.holds
  constructor
  · intro identifier
    cases identifier with
    | did did =>
      apply hholds.finds
      · intro held
        rw [decide_eq_true_iff]
        exact ⟨fun h => Did.ext h, fun h => congrArg Did.str h⟩
      · intro a ha b hb hna hnb
        exact List.inj_on_of_nodup_map hholds.did ha hb (Eq.trans hna hnb.symm)
    | handle handle =>
      apply hholds.finds
      · intro held
        exact held.any_row_handle handle
      · intro a ha b hb hna hnb
        exact hholds.name.eq ha hb hna hnb
  · intro email
    apply hholds.finds
    · intro held
      exact decide_eq_true_iff
    · intro a ha b hb hna hnb
      exact List.inj_on_of_nodup_map hholds.mail ha hb (Eq.trans hna hnb.symm)
  · exact hholds.available
  · intro invite hinvite
    exact (hholds.invite invite hinvite).2

theorem firstHandle_valid : Handle.validate (text "Alice.test") = .ok () := by decide

def firstHandle : Handle := ⟨text "Alice.test", firstHandle_valid⟩

theorem secondHandle_valid : Handle.validate (text "bob.test") = .ok () := by decide

def secondHandle : Handle := ⟨text "bob.test", secondHandle_valid⟩

theorem secondDid_valid : Did.validate (text "did:web:second.example") = .ok () := rfl

def secondDid : Did := ⟨text "did:web:second.example", secondDid_valid⟩

theorem firstRev_valid : Tid.validate (text "3jqfcqzm3fo2j") = .ok () := rfl

def firstRoot : Root RawCid := ⟨cidOf pointerDigest, ⟨text "3jqfcqzm3fo2j", firstRev_valid⟩⟩

/-- The first signup of all, which is left without a session. -/
def firstSignup : Registration RawCid :=
  ⟨recordDid, some firstHandle, text "Alice@host.test", text "salt:hash", firstRoot,
    some (text "invite"), none⟩

/-- A second one on the same code, signed in as it is made. -/
def secondSignup : Registration RawCid :=
  ⟨secondDid, some secondHandle, text "bob@host.test", text "salt:other", firstRoot,
    some (text "invite"), some ⟨text "a-stored-session", secondDid, 5, none, none⟩⟩

/-- A database that nothing but its code was written to, which is good for two. -/
def invited : AccountTables RawCid :=
  { AccountTables.empty with inviteCode := [⟨text "invite", 2, false, text "admin"⟩] }

def signedUpOne : AccountTables RawCid := invited.registered firstSignup 0

def signedUpTwo : AccountTables RawCid := signedUpOne.registered secondSignup 1

theorem firstInvite_written :
    AccountTables.empty.createInvites [text "invite"] (text "admin") 2 = .ok invited := rfl

theorem firstSignup_written : invited.create firstSignup 0 = .ok signedUpOne := rfl

theorem secondSignup_written : signedUpOne.create secondSignup 1 = .ok signedUpTwo := rfl

theorem signedUpOne_standing : AccountTables.Standing signedUpOne [firstSignup] :=
  .create (.createInvites .empty firstInvite_written) firstSignup_written

theorem signedUpTwo_standing : AccountTables.Standing signedUpTwo [firstSignup, secondSignup] :=
  .create signedUpOne_standing secondSignup_written

/-- Two signups on one code, which they have spent. Each is found, and nobody else is. -/
theorem signups_told_first : signedUpTwo.Tells [firstSignup, secondSignup] ∧
    signedUpOne.available (text "invite") = true ∧
    signedUpTwo.available (text "invite") = false ∧
    signedUpTwo.byEmail (text "alice@HOST.test") = .ok (some firstSignup.account) ∧
    signedUpTwo.byHandle secondHandle = .ok (some secondSignup.account) ∧
    signedUpTwo.byEmail (text "carol@host.test") = .ok none := by
  have hholds := signedUpTwo_standing.holds
  refine ⟨signups_told signedUpTwo_standing, rfl, rfl, ?_, ?_, ?_⟩
  · rw [byEmail, hholds.query]
    rfl
  · rw [byHandle, hholds.query]
    rfl
  · rw [byEmail, hholds.query]
    rfl

/-! ## A race lost inside the write -/

/-- What a signup comes to where the accounts database refuses it. -/
inductive SignupError where
  | invite
  | taken (what : String)
  | malformed (what : String)
  | sqlite
deriving DecidableEq

/-- Three of these are a race the check before the write lost. -/
def SignupError.of : RegistrationError → SignupError
  | .inviteUnavailable => .invite
  | .handleTaken => .taken "Handle"
  | .emailTaken => .taken "Email"
  | .sqlite => .sqlite

/-- Whether the code, the handle and the email are all still free. -/
def Signup.available (db : AccountTables Cid) (handle : Handle) (email : Str)
    (invite : Option Str) : Except SignupError Unit :=
  if invite.any fun code => !db.available code then .error .invite
  else do
    let byHandle ← (db.byHandle handle).mapError .malformed
    if byHandle.isSome then .error (.taken "Handle")
    else do
      let byEmail ← (db.byEmail email).mapError .malformed
      if byEmail.isSome then .error (.taken "Email") else .ok ()

namespace AccountTables

variable {db db' : AccountTables Cid} {standing : List (Registration Cid)}
    {registration : Registration Cid} {now : Timestamp}

theorem not_mem_of_empty (h : db.Holds standing) {did : Did} (hempty : db.of did = empty) :
    did ∉ standing.map Registration.did := by
  intro hold
  rw [← h.dids] at hold
  obtain ⟨row, hrow, hdid⟩ := List.mem_map.mp hold
  have hnone : db.actor.filter (fun row => row.did = did) = [] := congrArg actor hempty
  exact List.filter_eq_nil_iff.mp hnone row hrow (decide_eq_true hdid)

/-- The check before the write answers as the write does. -/
theorem Holds.available_eq (h : db.Holds standing) {handle : Handle}
    (hhandle : registration.handle = some handle) :
    Signup.available db handle registration.email registration.invite =
      (db.refusal standing registration).elim (.ok ()) fun e => .error (.of e) := by
  have hname : registration.name = some (sqlLower handle.str) := by
    rw [Registration.name, hhandle, Option.map_some]
  have hfound : ∀ (named : Registration Cid → Bool),
      ((standing.find? named).map Registration.account).isSome = true ↔
        ∃ held ∈ standing, named held = true := by
    intro named
    rw [Option.isSome_map, List.find?_isSome]
  have hhandles : (∃ held ∈ standing, (held.row.handle.any fun held =>
      decide (sqlLower held = sqlLower handle.str)) = true) ↔
      registration.name ≠ none ∧ ∃ held ∈ standing, held.name = registration.name := by
    simp only [Registration.any_row_handle, hname, ne_eq, reduceCtorEq, not_false_eq_true, true_and]
  have hmails : (∃ held ∈ standing,
      decide (sqlLower held.row.email = sqlLower registration.email) = true) ↔
      ∃ held ∈ standing, held.mail = registration.mail := by
    simp only [decide_eq_true_eq]
    rfl
  unfold Signup.available refusal byHandle byEmail
  rw [h.query, h.query]
  dsimp only [Except.mapError, bind, Except.bind]
  simp only [hfound, hhandles, hmails]
  split_ifs <;> rfl

/-- Taking a signup back out leaves the database as it was. -/
theorem delete_registered (hempty : db.of registration.did = empty)
    (hsession : ∀ session, registration.session = some session → session.did = registration.did) :
    (db.registered registration now).delete registration.did = db := by
  have huse := congrArg inviteCodeUse hempty
  have hactor := congrArg actor hempty
  have haccount := congrArg AccountTables.account hempty
  have hroot := congrArg repoRoot hempty
  have htoken := congrArg refreshToken hempty
  have hother := congrArg other hempty
  apply AccountTables.ext
  · rfl
  · dsimp only [AccountTables.delete, registered]
    cases registration.invite with
    | none =>
      rw [Option.map_none, Option.toList_none, List.append_nil]
      exact delete_self huse
    | some code => exact delete_concat huse rfl
  · exact delete_concat hactor rfl
  · exact delete_concat haccount rfl
  · dsimp only [AccountTables.delete, registered]
    have hnew : find Signup.RootRow.did registration.did db.repoRoot = none := by
      rw [find_eq_none]
      intro row hrow he
      exact List.filter_eq_nil_iff.mp hroot row hrow (decide_eq_true he)
    rw [upsert, hnew]
    exact delete_concat hroot rfl
  · dsimp only [AccountTables.delete, registered]
    cases hs : registration.session with
    | none => exact delete_self htoken
    | some session =>
      have hdid := hsession session hs
      rw [Option.elim_some, insertOrIgnore]
      split_ifs
      · exact delete_self htoken
      · exact delete_concat htoken hdid
  · funext table
    have hrows : (db.other table).filter (fun held => held = registration.did) = [] :=
      congrFun hother table
    dsimp only [AccountTables.delete, registered]
    split_ifs
    · exact delete_self hrows
    · rfl

end AccountTables

/-- After any run, a signup under a new identifier is refused for its invite, then for its handle,
then for its email, and for nothing else; the check before the write answers as the write would; and
deleting an account that was just written leaves the database as it was. -/
theorem signup_answered {db : AccountTables Cid} {standing : List (Registration Cid)}
    (h : AccountTables.Standing db standing) {registration : Registration Cid} {handle : Handle}
    (hnew : db.of registration.did = .empty) (hhandle : registration.handle = some handle)
    (hsession : ∀ session, registration.session = some session → session.did = registration.did)
    (now : Timestamp) :
    (∀ e, db.create registration now = .error e ↔ db.refusal standing registration = some e) ∧
    Signup.available db handle registration.email registration.invite =
      ((db.create registration now).mapError SignupError.of).map (fun _ => ()) ∧
    ∀ db', db.create registration now = .ok db' → db'.delete registration.did = db := by
  have hholds := h.holds
  have hcreate := hholds.create_eq now (not_mem_of_empty hholds hnew)
  rw [hcreate, hholds.available_eq hhandle]
  cases hr : db.refusal standing registration with
  | some e =>
    refine ⟨?_, rfl, ?_⟩
    · intro e'
      simp
    · intro db' hdb
      cases hdb
  | none =>
    refine ⟨?_, rfl, ?_⟩
    · intro e'
      simp
    · intro db' hdb
      obtain rfl := Except.ok.inj hdb
      exact delete_registered hnew hsession

theorem thirdHandle_valid : Handle.validate (text "ALICE.test") = .ok () := by decide

def thirdHandle : Handle := ⟨text "ALICE.test", thirdHandle_valid⟩

theorem thirdDid_valid : Did.validate (text "did:web:third.example") = .ok () := rfl

def thirdDid : Did := ⟨text "did:web:third.example", thirdDid_valid⟩

/-- A third signup, under a handle that is taken in another case. -/
def refusedSignup : Registration RawCid :=
  ⟨thirdDid, some thirdHandle, text "carol@host.test",
    text "salt:third", firstRoot, none, none⟩

/-- After a first signup, a second with a session is written and taken back out, and one under the
same handle is refused. -/
theorem signup_answered_first :
    (Signup.available signedUpOne secondHandle secondSignup.email secondSignup.invite = .ok () ∧
      signedUpOne.create secondSignup 1 = .ok signedUpTwo ∧
      signedUpTwo.delete secondDid = signedUpOne) ∧
    (Signup.available signedUpOne thirdHandle refusedSignup.email refusedSignup.invite =
        .error (.taken "Handle") ∧
      signedUpOne.create refusedSignup 1 = .error .handleTaken) := by
  constructor
  · have hnew : signedUpOne.of secondSignup.did = .empty := rfl
    obtain ⟨-, havailable, hdelete⟩ := signup_answered signedUpOne_standing hnew rfl
      (fun session hs => by cases hs; rfl) 1
    rw [secondSignup_written] at havailable
    exact ⟨havailable, secondSignup_written, hdelete _ secondSignup_written⟩
  · have hnew : signedUpOne.of refusedSignup.did = .empty := rfl
    obtain ⟨hrefused, havailable, -⟩ := signup_answered signedUpOne_standing hnew rfl
      (fun session hs => by cases hs) 1
    have hcreate : signedUpOne.create refusedSignup 1 = .error .handleTaken := by
      rw [hrefused]
      rfl
    rw [hcreate] at havailable
    exact ⟨havailable, hcreate⟩

end Manapds
