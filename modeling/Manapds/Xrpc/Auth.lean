import Manapds.Lib.Mac
import Manapds.Lib.Table
import Manapds.Repo.Json

/-!
# Session tokens

A token is a header and claims, each as JSON in base64url, and a tag over both. The header tells the
two kinds apart, and the claims say whose session it is, what it may do and how long it lasts. With
a tag only the key can make, a token is read exactly where it was minted, as the kind it was minted
as, and as what it was minted for.
-/

namespace Manapds

namespace Xrpc

inductive Status where
  | invalidRequest
  | authenticationRequired

/-- A failed method call. -/
structure Error where
  status : Status
  name : Option String
  message : Option String

namespace Error

def saying (status : Status) (message : String) : Error := ⟨status, none, some message⟩

def invalidRequest : String → Error := saying .invalidRequest

def authRequired : String → Error := saying .authenticationRequired

def named (e : Error) (name : String) : Error := { e with name := some name }

end Error

end Xrpc

namespace Auth

open Xrpc

/-- A time in nanoseconds, within the years it reaches. -/
structure Time where
  nanos : ℤ
  from_ : -377705023201000000000 ≤ nanos
  until_ : nanos ≤ 253402207200999999999

/-- Whole seconds, the rest cut off. -/
def Time.second (time : Time) : ℤ := time.nanos.tdiv 1000000000

/-- `jiff`, on a `Timestamp`. -/
structure Jiff where
  /-- `now + lifetime`, which panics past the last time there is. -/
  add : Time → ℤ → Option Time
  asSecond : Time → Int64

structure Jiff.Lawful (jiff : Jiff) : Prop where
  add_eq_some {now until_ : Time} {lifetime : ℤ} :
    jiff.add now lifetime = some until_ ↔ until_.nanos = now.nanos + lifetime
  toInt_asSecond (time : Time) : (jiff.asSecond time).toInt = time.second

/-- `base64`, in the alphabet that is safe in a URL and without padding. -/
structure Engine where
  encode : Bytes → Str
  decode : Str → Option Bytes

structure Engine.Lawful (engine : Engine) : Prop where
  decode_eq_some {s : Str} {bytes : Bytes} : engine.decode s = some bytes ↔ s = engine.encode bytes
  dot_not_mem (bytes : Bytes) : ascii '.' ∉ engine.encode bytes

/-- What `serde_json` writes and reads. -/
structure Serde where
  toVec : Json → Bytes
  fromSlice : Bytes → Option Json

/-- What tokens are made with, the tag apart. -/
structure Libraries where
  serde : Serde
  base64 : Engine
  jiff : Jiff

structure Libraries.Lawful (libs : Libraries) : Prop where
  base64 : libs.base64.Lawful
  jiff : libs.jiff.Lawful

/-- How long an access token is good for. -/
def accessLifetime : ℤ := 120 * 60 * 1000000000

/-- How long a refresh token is good for. -/
def refreshLifetime : ℤ := 90 * 24 * 3600 * 1000000000

/-- What a token is allowed to do. -/
inductive Scope where
  | access
  | refresh
  | appPassword
  | privilegedAppPassword
  | signupQueued
  | takenDown
deriving DecidableEq

namespace Scope

def asStr : Scope → Str
  | access => text "com.atproto.access"
  | refresh => text "com.atproto.refresh"
  | appPassword => text "com.atproto.appPass"
  | privilegedAppPassword => text "com.atproto.appPassPrivileged"
  | signupQueued => text "com.atproto.signupQueued"
  | takenDown => text "com.atproto.takendown"

/-- `FromStr`. -/
def parse (value : Str) : Option Scope :=
  if value = text "com.atproto.access" then some access
  else if value = text "com.atproto.refresh" then some refresh
  else if value = text "com.atproto.appPass" then some appPassword
  else if value = text "com.atproto.appPassPrivileged" then some privilegedAppPassword
  else if value = text "com.atproto.signupQueued" then some signupQueued
  else if value = text "com.atproto.takendown" then some takenDown
  else none

theorem parse_asStr (scope : Scope) : parse scope.asStr = some scope := by
  cases scope <;> decide

end Scope

/-- Whether a refresh token past its expiry is still read. -/
inductive Expired where
  | refuse
  | allow
deriving DecidableEq

/-- A verified access token. -/
structure Access where
  did : Did
  scope : Scope

/-- A verified refresh token. -/
structure Refresh where
  did : Did
  id : Str

/-- The secret tokens are signed under, and the service they name as their audience. -/
structure Tokens where
  key : Bytes
  audience : Str

theorem Tokens.ext {a b : Tokens} (hkey : a.key = b.key) (haud : a.audience = b.audience) :
    a = b := by
  cases a
  cases b
  cases hkey
  cases haud
  rfl

structure Header where
  alg : Str
  typ : Str

structure Claims where
  scope : Str
  sub : Str
  aud : Str
  iat : Int64
  exp : Int64
  jti : Option Str
  lxm : Option Json
  cnf : Option Json

/-! ## The parts as JSON -/

/-- What a struct is offered for a member: by name, where it is there no more than once, or by
position. -/
def member (held : Json) (index : ℕ) (name : Str) : Option (Option Json) :=
  match held with
  | .object fields =>
    let found := fields.filter fun field => field.1 = name
    if 1 < found.length then none else some (found.head?.map Prod.snd)
  | .array items => some items[index]?
  | _ => none

/-- An array longer than a struct has members is not one. -/
def fits (held : Json) (members : ℕ) : Bool :=
  match held with
  | .array items => items.length ≤ members
  | _ => true

def asStr : Json → Option Str
  | .string s => some s
  | _ => none

def asI64 : Json → Option Int64
  | .number n => n.asI64
  | _ => none

/-- A member that may be left out, or held as `null`. -/
def optional {α : Type} (read : Json → Option α) : Option Json → Option (Option α)
  | none => some none
  | some .null => some none
  | some held => (read held).map some

def Header.toJson (header : Header) : Json :=
  .object [(text "alg", .string header.alg), (text "typ", .string header.typ)]

def Header.fromJson (held : Json) : Option Header := do
  if fits held 2 = false then none
  else
    let alg ← (← member held 0 (text "alg")).bind asStr
    let typ ← (← member held 1 (text "typ")).bind asStr
    return ⟨alg, typ⟩

def Claims.toJson (claims : Claims) : Json :=
  .object ([(text "scope", .string claims.scope), (text "sub", .string claims.sub),
    (text "aud", .string claims.aud), (text "iat", .number (.ofI64 claims.iat)),
    (text "exp", .number (.ofI64 claims.exp))] ++
    (claims.jti.map fun jti => (text "jti", Json.string jti)).toList ++
    (claims.lxm.map fun lxm => (text "lxm", lxm)).toList ++
    (claims.cnf.map fun cnf => (text "cnf", cnf)).toList)

def Claims.fromJson (held : Json) : Option Claims := do
  if fits held 8 = false then none
  else
    let scope ← (← member held 0 (text "scope")).bind asStr
    let sub ← (← member held 1 (text "sub")).bind asStr
    let aud ← (← member held 2 (text "aud")).bind asStr
    let iat ← (← member held 3 (text "iat")).bind asI64
    let exp ← (← member held 4 (text "exp")).bind asI64
    let jti ← optional asStr (← member held 5 (text "jti"))
    let lxm ← optional some (← member held 6 (text "lxm"))
    let cnf ← optional some (← member held 7 (text "cnf"))
    return ⟨scope, sub, aud, iat, exp, jti, lxm, cnf⟩

theorem member_of_mem {fields : List (Str × Json)} (hkeys : (fields.map Prod.fst).Nodup)
    (index : ℕ) {name : Str} {held : Json} (h : (name, held) ∈ fields) :
    member (.object fields) index name = some (some held) := by
  have hfound : (fields.filter fun field => field.1 = name) = [(name, held)] := by
    induction fields with
    | nil => cases h
    | cons field rest ih =>
      rw [List.map_cons, List.nodup_cons] at hkeys
      rcases List.mem_cons.mp h with rfl | h
      · rw [List.filter_cons_of_pos (by simp), List.filter_eq_nil_iff.mpr]
        intro other hother hname
        exact hkeys.1 (List.mem_map.mpr ⟨other, hother, of_decide_eq_true hname⟩)
      · rw [List.filter_cons_of_neg, ih hkeys.2 h]
        intro hname
        exact hkeys.1 (List.mem_map.mpr ⟨(name, held), h, (of_decide_eq_true hname).symm⟩)
  simp [member, hfound]

theorem member_of_not_mem {fields : List (Str × Json)} (index : ℕ) {name : Str}
    (h : name ∉ fields.map Prod.fst) : member (.object fields) index name = some none := by
  have hfound : (fields.filter fun field => field.1 = name) = [] := by
    rw [List.filter_eq_nil_iff]
    intro field hfield hname
    exact h (List.mem_map.mpr ⟨field, hfield, of_decide_eq_true hname⟩)
  simp [member, hfound]

theorem Header.fromJson_toJson (header : Header) : fromJson header.toJson = some header := rfl

/-- The members a session is written with. -/
def Claims.fields (claims : Claims) : List (Str × Json) :=
  [(text "scope", .string claims.scope), (text "sub", .string claims.sub),
    (text "aud", .string claims.aud), (text "iat", .number (.ofI64 claims.iat)),
    (text "exp", .number (.ofI64 claims.exp))] ++
    (claims.jti.map fun jti => (text "jti", Json.string jti)).toList

theorem Claims.toJson_eq {claims : Claims} (hlxm : claims.lxm = none) (hcnf : claims.cnf = none) :
    claims.toJson = .object claims.fields := by
  rw [toJson, hlxm, hcnf, Option.map_none, Option.toList_none, List.append_nil, Option.map_none,
    Option.toList_none, List.append_nil, fields]

theorem Claims.keys_fields (claims : Claims) : claims.fields.map Prod.fst =
    [text "scope", text "sub", text "aud", text "iat", text "exp"] ++
      (claims.jti.map fun _ => text "jti").toList := by
  cases hjti : claims.jti <;> simp [fields, hjti]

theorem Claims.nodup_fields (claims : Claims) : (claims.fields.map Prod.fst).Nodup := by
  rw [keys_fields]
  cases claims.jti with
  | none =>
    change [text "scope", text "sub", text "aud", text "iat", text "exp"].Nodup
    decide
  | some jti =>
    change [text "scope", text "sub", text "aud", text "iat", text "exp", text "jti"].Nodup
    decide

theorem Claims.member_jti (claims : Claims) :
    member (.object claims.fields) 5 (text "jti") = some (claims.jti.map Json.string) := by
  cases hjti : claims.jti with
  | none =>
    apply member_of_not_mem
    rw [keys_fields, hjti]
    change text "jti" ∉ [text "scope", text "sub", text "aud", text "iat", text "exp"]
    decide
  | some jti => exact member_of_mem claims.nodup_fields 5 (by simp [fields, hjti])

theorem Claims.member_other (claims : Claims) (index : ℕ) {name : Str}
    (h : name ∉ [text "scope", text "sub", text "aud", text "iat", text "exp", text "jti"]) :
    member (.object claims.fields) index name = some none := by
  apply member_of_not_mem
  rw [keys_fields]
  intro hname
  apply h
  rcases List.mem_append.mp hname with hname | hname
  · exact List.mem_append_left [text "jti"] hname
  · obtain ⟨jti, -, rfl⟩ := Option.map_eq_some_iff.mp (Option.mem_toList.mp hname)
    exact List.mem_append_right [text "scope", text "sub", text "aud", text "iat", text "exp"]
      List.mem_cons_self

/-- The claims of a session are read as they were written. -/
theorem Claims.fromJson_toJson {claims : Claims} (hlxm : claims.lxm = none)
    (hcnf : claims.cnf = none) : fromJson claims.toJson = some claims := by
  have hkeys := claims.nodup_fields
  have hscope : member (.object claims.fields) 0 (text "scope") =
      some (some (.string claims.scope)) :=
    member_of_mem hkeys 0 (by simp [fields])
  have hsub : member (.object claims.fields) 1 (text "sub") =
      some (some (.string claims.sub)) :=
    member_of_mem hkeys 1 (by simp [fields])
  have haud : member (.object claims.fields) 2 (text "aud") =
      some (some (.string claims.aud)) :=
    member_of_mem hkeys 2 (by simp [fields])
  have hiat : member (.object claims.fields) 3 (text "iat") =
      some (some (.number (.ofI64 claims.iat))) :=
    member_of_mem hkeys 3 (by simp [fields])
  have hexp : member (.object claims.fields) 4 (text "exp") =
      some (some (.number (.ofI64 claims.exp))) :=
    member_of_mem hkeys 4 (by simp [fields])
  have hread : ∀ n : Int64, asI64 (.number (.ofI64 n)) = some n := Number.asI64_ofI64
  rw [toJson_eq hlxm hcnf]
  unfold fromJson
  rw [hscope, hsub, haud, hiat, hexp, claims.member_jti, claims.member_other 6 (by decide),
    claims.member_other 7 (by decide)]
  simp only [Option.bind_eq_bind, Option.bind_some, hread]
  obtain ⟨scope, sub, aud, iat, exp, jti, lxm, cnf⟩ := claims
  obtain rfl := hlxm
  obtain rfl := hcnf
  cases jti with
  | none => rfl
  | some jti => rfl

/-! ## Minting and verifying -/

def unverifiable : Error :=
  (Error.invalidRequest "Token could not be verified").named "InvalidToken"

def malformed : Error := (Error.invalidRequest "Malformed token").named "InvalidToken"

def expiredToken : Error := (Error.invalidRequest "Token has expired").named "ExpiredToken"

def badScope : Error := (Error.invalidRequest "Bad token scope").named "InvalidToken"

def missingTokenId : Error :=
  (Error.authRequired "Unexpected missing refresh token id").named "MissingTokenId"

def okOr {α : Type} (held : Option α) (e : Error) : Except Error α := held.elim (.error e) .ok

theorem okOr_eq_ok {α : Type} {held : Option α} {e : Error} {a : α} :
    okOr held e = .ok a ↔ held = some a := by
  cases held <;> simp [okOr]

section

variable (mac : Mac Bytes Str Bytes) (libs : Libraries)

def part (value : Json) : Str := libs.base64.encode (libs.serde.toVec value)

def decode {α : Type} (read : Json → Option α) (s : Str) : Except Error α := do
  let bytes ← okOr (libs.base64.decode s) unverifiable
  okOr ((libs.serde.fromSlice bytes).bind read) malformed

/-- The claims of a token minted now, which has no such time to end at past the last there is. -/
def Tokens.claims (tokens : Tokens) (now : Time) (did : Did) (scope : Scope) (jti : Option Str)
    (lifetime : ℤ) : Option Claims :=
  (libs.jiff.add now lifetime).map fun until_ => ⟨scope.asStr, did.str, tokens.audience,
    libs.jiff.asSecond now, libs.jiff.asSecond until_, jti, none, none⟩

def header (typ : Str) : Header := ⟨text "HS256", typ⟩

/-- What the tag is over. -/
def signed (typ : Str) (claims : Claims) : Str :=
  part libs (header typ).toJson ++ ascii '.' :: part libs claims.toJson

def Tokens.mint (tokens : Tokens) (now : Time) (typ : Str) (did : Did) (scope : Scope)
    (jti : Option Str) (lifetime : ℤ) : Option Str :=
  (tokens.claims libs now did scope jti lifetime).map fun claims =>
    signed libs typ claims ++
      ascii '.' :: libs.base64.encode (mac.sign tokens.key (signed libs typ claims))

def Tokens.accessFor (tokens : Tokens) (now : Time) (did : Did) (scope : Scope) (lifetime : ℤ) :
    Option Str :=
  tokens.mint mac libs now (text "at+jwt") did scope none lifetime

def Tokens.access (tokens : Tokens) (now : Time) (did : Did) (scope : Scope) : Option Str :=
  tokens.accessFor mac libs now did scope accessLifetime

def Tokens.refresh (tokens : Tokens) (now : Time) (did : Did) (id : Str) : Option Str :=
  tokens.mint mac libs now (text "refresh+jwt") did .refresh (some id) refreshLifetime

def Tokens.verify (tokens : Tokens) (now : Time) (token typ : Str) (scopes : List Scope)
    (expired : Expired) : Except Error Claims := do
  let halves ← okOr (token.rsplitOnce (ascii '.')) unverifiable
  let parts ← okOr (halves.1.splitOnce (ascii '.')) unverifiable
  if ascii '.' ∈ parts.2 then .error unverifiable
  else
    let header ← decode libs Header.fromJson parts.1
    if header.alg ≠ text "HS256" ∨ header.typ ≠ typ then .error unverifiable
    else
      let signature ← okOr (libs.base64.decode halves.2) unverifiable
      if mac.verifies tokens.key halves.1 signature = false then .error unverifiable
      else
        let claims ← decode libs Claims.fromJson parts.2
        if expired = .refuse ∧ claims.exp ≤ libs.jiff.asSecond now then .error expiredToken
        else if claims.aud ≠ tokens.audience then .error unverifiable
        -- A service auth token proves something else entirely.
        else if claims.lxm.isSome ∨ claims.cnf.isSome then .error malformed
        else if ((Scope.parse claims.scope).any fun scope => scopes.contains scope) = false then
          .error badScope
        else .ok claims

def readDid (sub : Str) : Except Error Did := (Did.parse sub).mapError fun _ => malformed

def readScope (value : Str) : Except Error Scope := okOr (Scope.parse value) malformed

def Tokens.verifyAccess (tokens : Tokens) (now : Time) (token : Str) (scopes : List Scope) :
    Except Error Access := do
  let claims ← tokens.verify mac libs now token (text "at+jwt") scopes .refuse
  return ⟨← readDid claims.sub, ← readScope claims.scope⟩

def Tokens.verifyRefresh (tokens : Tokens) (now : Time) (token : Str) (expired : Expired) :
    Except Error Refresh := do
  let claims ← tokens.verify mac libs now token (text "refresh+jwt") [.refresh] expired
  let id ← okOr claims.jti missingTokenId
  return ⟨← readDid claims.sub, id⟩

end

/-! ## What has been issued -/

inductive Call where
  | access (did : Did) (scope : Scope)
  | accessFor (did : Did) (scope : Scope) (lifetime : ℤ)
  | refresh (did : Did) (id : Str)

/-- A call that mints a token, and when it was made. -/
structure Issue where
  tokens : Tokens
  now : Time
  call : Call

namespace Call

def typ : Call → Str
  | access .. => text "at+jwt"
  | accessFor .. => text "at+jwt"
  | refresh .. => text "refresh+jwt"

def did : Call → Did
  | access did _ => did
  | accessFor did _ _ => did
  | refresh did _ => did

def scope : Call → Scope
  | access _ scope => scope
  | accessFor _ scope _ => scope
  | refresh _ _ => .refresh

def jti : Call → Option Str
  | access .. => none
  | accessFor .. => none
  | refresh _ id => some id

def lifetime : Call → ℤ
  | access .. => accessLifetime
  | accessFor _ _ lifetime => lifetime
  | refresh .. => refreshLifetime

/-- It mints an access token of this account and scope. -/
def Opens (call : Call) (access : Access) : Prop :=
  call = .access access.did access.scope ∨
    ∃ lifetime, call = .accessFor access.did access.scope lifetime

/-- It mints a refresh token of this account and ID. -/
def Renews (call : Call) (refresh : Refresh) : Prop := call = .refresh refresh.did refresh.id

end Call

namespace Issue

def claims (libs : Libraries) (issue : Issue) : Option Claims :=
  issue.tokens.claims libs issue.now issue.call.did issue.call.scope issue.call.jti
    issue.call.lifetime

/-- The token it hands out. -/
def returned (mac : Mac Bytes Str Bytes) (libs : Libraries) (issue : Issue) : Option Str :=
  match issue.call with
  | .access did scope => issue.tokens.access mac libs issue.now did scope
  | .accessFor did scope lifetime =>
    issue.tokens.accessFor mac libs issue.now did scope lifetime
  | .refresh did id => issue.tokens.refresh mac libs issue.now did id

/-- What it has the key sign. -/
def message (libs : Libraries) (issue : Issue) : Option Str :=
  (issue.claims libs).map (signed libs issue.call.typ)

/-- It ends past the second of the clock. -/
def Lasts (issue : Issue) (now : Time) : Prop :=
  ∃ until_ : Time, until_.nanos = issue.now.nanos + issue.call.lifetime ∧
    now.second < until_.second

/-- Its JSON is read as it was written. -/
def Legible (libs : Libraries) (issue : Issue) : Prop :=
  libs.serde.fromSlice (libs.serde.toVec (header issue.call.typ).toJson) =
      some (header issue.call.typ).toJson ∧
    ∀ claims ∈ issue.claims libs,
      libs.serde.fromSlice (libs.serde.toVec claims.toJson) = some claims.toJson

end Issue

/-- Everything a key has signed, of the tokens issued. -/
def signedBy (libs : Libraries) (key : Bytes) (issued : List Issue) : List Str :=
  (issued.filter fun issue => issue.tokens.key = key).filterMap (Issue.message libs)

section

variable {mac : Mac Bytes Str Bytes} {libs : Libraries} {tokens : Tokens} {now : Time}
  {token typ : Str} {scopes : List Scope} {expired : Expired} {claims : Claims}
  {issued : List Issue}

theorem Issue.returned_eq (issue : Issue) : issue.returned mac libs =
    (issue.claims libs).map fun claims => signed libs issue.call.typ claims ++ ascii '.' ::
      libs.base64.encode (mac.sign issue.tokens.key (signed libs issue.call.typ claims)) := by
  unfold returned claims
  cases issue.call <;> rfl

/-- What a token that verifies is made of. -/
structure Reads (mac : Mac Bytes Str Bytes) (libs : Libraries) (tokens : Tokens) (token typ : Str)
    (claims : Claims) : Prop where
  split : ∃ first second signature, token = first ++ ascii '.' :: second ++ ascii '.' ::
      libs.base64.encode signature ∧
    ascii '.' ∉ first ∧ ascii '.' ∉ second ∧
    decode libs Header.fromJson first = .ok (header typ) ∧
    mac.verifies tokens.key (first ++ ascii '.' :: second) signature = true ∧
    decode libs Claims.fromJson second = .ok claims

/-- What claims are held to once they are read. -/
structure Stands (libs : Libraries) (tokens : Tokens) (now : Time) (scopes : List Scope)
    (expired : Expired) (claims : Claims) : Prop where
  lasts : expired = .refuse → libs.jiff.asSecond now < claims.exp
  aud : claims.aud = tokens.audience
  lxm : claims.lxm = none
  cnf : claims.cnf = none
  scope : ∃ scope ∈ scopes, Scope.parse claims.scope = some scope

theorem ite_eq_ok {α ε : Type} {p : Prop} [Decidable p] {e : ε} {x : Except ε α} {a : α} :
    (if p then .error e else x) = .ok a ↔ ¬p ∧ x = .ok a := by
  split_ifs with h <;> simp [h]

theorem stands_iff : Stands libs tokens now scopes expired claims ↔
    ¬(expired = .refuse ∧ claims.exp ≤ libs.jiff.asSecond now) ∧ ¬claims.aud ≠ tokens.audience ∧
      ¬(claims.lxm.isSome = true ∨ claims.cnf.isSome = true) ∧
      ¬((Scope.parse claims.scope).any fun scope => scopes.contains scope) = false := by
  have hscope : ((Scope.parse claims.scope).any fun scope => scopes.contains scope) = true ↔
      ∃ scope ∈ scopes, Scope.parse claims.scope = some scope := by
    cases Scope.parse claims.scope <;> simp
  rw [Bool.not_eq_false, hscope, not_or, not_and, Int64.not_le, Bool.not_eq_true,
    Bool.not_eq_true, Option.isSome_eq_false_iff, Option.isSome_eq_false_iff,
    Option.isNone_iff_eq_none, Option.isNone_iff_eq_none, not_not]
  constructor
  · intro h
    exact ⟨h.lasts, h.aud, ⟨h.lxm, h.cnf⟩, h.scope⟩
  · rintro ⟨hlasts, haud, ⟨hlxm, hcnf⟩, hscope⟩
    exact ⟨hlasts, haud, hlxm, hcnf, hscope⟩

theorem verify_eq_ok (hlibs : libs.Lawful) :
    tokens.verify mac libs now token typ scopes expired = .ok claims ↔
      Reads mac libs tokens token typ claims ∧ Stands libs tokens now scopes expired claims := by
  unfold Tokens.verify
  simp only [bind_ok_iff, ite_eq_ok, okOr_eq_ok]
  constructor
  · rintro ⟨⟨signed, rest⟩, hhalves, ⟨first, second⟩, hparts, hdot, head, hhead, hnames, signature,
      hsignature, hverifies, claims', hclaims, hlasts, haud, hother, hscope, h⟩
    obtain rfl := Except.ok.inj h
    obtain ⟨hname, htyp⟩ := not_or.mp hnames
    obtain ⟨rfl, hrest⟩ := Str.rsplitOnce_eq_some.mp hhalves
    obtain ⟨rfl, hfirst⟩ := Str.splitOnce_eq_some.mp hparts
    obtain rfl := hlibs.base64.decode_eq_some.mp hsignature
    obtain ⟨alg, typ'⟩ := head
    obtain rfl := not_not.mp hname
    obtain rfl := not_not.mp htyp
    exact ⟨⟨first, second, signature, rfl, hfirst, hdot, hhead, (Bool.not_eq_false _).mp hverifies,
      hclaims⟩, stands_iff.mpr ⟨hlasts, haud, hother, hscope⟩⟩
  · rintro ⟨⟨first, second, signature, rfl, hfirst, hsecond, hhead, hverifies, hclaims⟩, hstands⟩
    obtain ⟨hlasts, haud, hother, hscope⟩ := stands_iff.mp hstands
    refine ⟨(first ++ ascii '.' :: second, libs.base64.encode signature), ?_, (first, second), ?_,
      hsecond, header typ, hhead, ?_, signature, ?_, ?_, claims, hclaims, hlasts, haud, hother,
      hscope, rfl⟩
    · exact Str.rsplitOnce_eq_some.mpr ⟨rfl, hlibs.base64.dot_not_mem signature⟩
    · exact Str.splitOnce_eq_some.mpr ⟨rfl, hfirst⟩
    · exact not_or.mpr ⟨not_not.mpr rfl, not_not.mpr rfl⟩
    · exact hlibs.base64.decode_eq_some.mpr rfl
    · exact (Bool.not_eq_false _).mpr hverifies

theorem decode_part (hlibs : libs.Lawful) {α : Type} {read : Json → Option α} {value : Json}
    {a : α} (h : libs.serde.fromSlice (libs.serde.toVec value) = some value)
    (hread : read value = some a) :
    decode libs read (part libs value) = .ok a := by
  rw [decode, part, hlibs.base64.decode_eq_some.mpr rfl]
  simp [okOr, bind, Except.bind, h, hread]

/-- The parts of what is signed are told apart by the first dot in it. -/
theorem signed_eq_append (hlibs : libs.Lawful) {first second : Str} (hfirst : ascii '.' ∉ first)
    (h : signed libs typ claims = first ++ ascii '.' :: second) :
    first = part libs (header typ).toJson ∧ second = part libs claims.toJson := by
  have hdot := hlibs.base64.dot_not_mem (libs.serde.toVec (header typ).toJson)
  have hsplit := Str.splitOnce_append hdot (part libs claims.toJson)
  unfold signed part at h
  unfold part at hsplit ⊢
  rw [h, Str.splitOnce_append hfirst second] at hsplit
  exact Prod.mk.inj (Option.some.inj hsplit)

namespace Issue

variable {issue : Issue}

theorem claims_eq_some : issue.claims libs = some claims ↔
    ∃ until_, libs.jiff.add issue.now issue.call.lifetime = some until_ ∧
      claims = ⟨issue.call.scope.asStr, issue.call.did.str, issue.tokens.audience,
        libs.jiff.asSecond issue.now, libs.jiff.asSecond until_, issue.call.jti, none, none⟩ := by
  unfold Issue.claims Tokens.claims
  rw [Option.map_eq_some_iff]
  constructor
  · rintro ⟨until_, huntil, rfl⟩
    exact ⟨until_, huntil, rfl⟩
  · rintro ⟨until_, huntil, rfl⟩
    exact ⟨until_, huntil, rfl⟩

theorem fromJson_claims (h : issue.claims libs = some claims) :
    Claims.fromJson claims.toJson = some claims := by
  obtain ⟨until_, -, rfl⟩ := claims_eq_some.mp h
  exact Claims.fromJson_toJson rfl rfl

/-- The second a token ends at is the one its claims name. -/
theorem lasts_iff (hlibs : libs.Lawful) (h : issue.claims libs = some claims) :
    issue.Lasts now ↔ libs.jiff.asSecond now < claims.exp := by
  obtain ⟨until_, huntil, rfl⟩ := claims_eq_some.mp h
  rw [Int64.lt_iff_toInt_lt, hlibs.jiff.toInt_asSecond, hlibs.jiff.toInt_asSecond]
  constructor
  · rintro ⟨end_, hend, hlt⟩
    have hsame := hlibs.jiff.add_eq_some.mpr hend
    obtain rfl := Option.some.inj (huntil.symm.trans hsame)
    exact hlt
  · intro hlt
    exact ⟨until_, hlibs.jiff.add_eq_some.mp huntil, hlt⟩

end Issue

theorem mem_signedBy {key : Bytes} {message : Str} : message ∈ signedBy libs key issued ↔
    ∃ issue ∈ issued, issue.tokens.key = key ∧ issue.message libs = some message := by
  simp [signedBy, and_assoc]

/-- A token that reads as signed was handed out, with these claims and no others. -/
theorem Reads.exists_issue (hlibs : libs.Lawful) (h : Reads mac libs tokens token typ claims)
    (hmac : mac.Ideal tokens.key (signedBy libs tokens.key issued))
    (hjson : ∀ issue ∈ issued, issue.Legible libs) :
    ∃ issue ∈ issued, issue.tokens.key = tokens.key ∧ issue.call.typ = typ ∧
      issue.claims libs = some claims ∧ issue.returned mac libs = some token := by
  obtain ⟨first, second, signature, rfl, hfirst, hsecond, hhead, hverifies, hclaims⟩ := h.split
  obtain ⟨issue, hissue, hkey, hmessage⟩ := mem_signedBy.mp (hmac.mem_signed hverifies)
  obtain ⟨written, hwritten, hsigned⟩ := Option.map_eq_some_iff.mp hmessage
  obtain ⟨rfl, rfl⟩ := signed_eq_append hlibs hfirst hsigned
  obtain ⟨hheader, hlegible⟩ := hjson issue hissue
  have htyp : issue.call.typ = typ := by
    rw [decode_part hlibs hheader (Header.fromJson_toJson _)] at hhead
    exact congrArg Header.typ (Except.ok.inj hhead)
  have hread : written = claims := by
    rw [decode_part hlibs (hlegible written hwritten) (Issue.fromJson_claims hwritten)] at hclaims
    exact Except.ok.inj hclaims
  obtain rfl := hread
  refine ⟨issue, hissue, hkey, htyp, hwritten, ?_⟩
  rw [Issue.returned_eq, hwritten, Option.map_some, hkey, hmac.eq_sign hverifies, hsigned]

/-- A token that was handed out reads as signed. -/
theorem Issue.reads (hlibs : libs.Lawful) {issue : Issue} (hissue : issue ∈ issued)
    (hkey : issue.tokens.key = tokens.key) (hclaims : issue.claims libs = some claims)
    (htoken : issue.returned mac libs = some token)
    (hmac : mac.Ideal tokens.key (signedBy libs tokens.key issued)) (hjson : issue.Legible libs) :
    Reads mac libs tokens token issue.call.typ claims := by
  rw [returned_eq, hclaims, Option.map_some, hkey] at htoken
  obtain rfl := Option.some.inj htoken
  have hmessage : issue.message libs = some (signed libs issue.call.typ claims) := by
    rw [message, hclaims, Option.map_some]
  have hverifies := hmac.verifies_sign (mem_signedBy.mpr ⟨issue, hissue, hkey, hmessage⟩)
  exact ⟨part libs (header issue.call.typ).toJson, part libs claims.toJson,
    mac.sign tokens.key (signed libs issue.call.typ claims), rfl, hlibs.base64.dot_not_mem _,
    hlibs.base64.dot_not_mem _, decode_part hlibs hjson.1 (Header.fromJson_toJson _), hverifies,
    decode_part hlibs (hjson.2 claims hclaims) (fromJson_claims hclaims)⟩

theorem verify_iff (hlibs : libs.Lawful)
    (hmac : mac.Ideal tokens.key (signedBy libs tokens.key issued))
    (hjson : ∀ issue ∈ issued, issue.Legible libs) :
    tokens.verify mac libs now token typ scopes expired = .ok claims ↔
      ∃ issue ∈ issued, issue.tokens = tokens ∧ issue.call.typ = typ ∧
        issue.claims libs = some claims ∧ issue.returned mac libs = some token ∧
        (expired = .refuse → issue.Lasts now) ∧ issue.call.scope ∈ scopes := by
  rw [verify_eq_ok hlibs]
  constructor
  · rintro ⟨hreads, hstands⟩
    obtain ⟨issue, hissue, hkey, htyp, hclaims, htoken⟩ := hreads.exists_issue hlibs hmac hjson
    obtain ⟨scope, hscope, hparse⟩ := hstands.scope
    have haud := hstands.aud
    refine ⟨issue, hissue, Tokens.ext hkey ?_, htyp, hclaims, htoken, ?_, ?_⟩
    · obtain ⟨until_, -, rfl⟩ := Issue.claims_eq_some.mp hclaims
      exact haud
    · intro he
      exact (Issue.lasts_iff hlibs hclaims).mpr (hstands.lasts he)
    · obtain ⟨until_, -, rfl⟩ := Issue.claims_eq_some.mp hclaims
      rw [Scope.parse_asStr] at hparse
      rwa [Option.some.inj hparse]
  · rintro ⟨issue, hissue, rfl, rfl, hclaims, htoken, hlasts, hscope⟩
    have hexp := fun he => (Issue.lasts_iff hlibs hclaims).mp (hlasts he)
    refine ⟨Issue.reads hlibs hissue rfl hclaims htoken hmac (hjson issue hissue), ?_⟩
    obtain ⟨until_, -, rfl⟩ := Issue.claims_eq_some.mp hclaims
    exact ⟨hexp, rfl, rfl, rfl, issue.call.scope, hscope, Scope.parse_asStr _⟩

theorem readDid_eq_ok {sub : Str} {did : Did} : readDid sub = .ok did ↔ did.str = sub := by
  rw [readDid, mapError_ok_iff, Did.parse_eq_ok]

theorem Issue.exists_claims {issue : Issue} (h : issue.returned mac libs = some token) :
    ∃ claims, issue.claims libs = some claims := by
  rw [returned_eq] at h
  obtain ⟨claims, hclaims, -⟩ := Option.map_eq_some_iff.mp h
  exact ⟨claims, hclaims⟩

theorem Call.opens_iff {call : Call} {access : Access} : call.Opens access ↔
    call.typ = text "at+jwt" ∧ call.did = access.did ∧ call.scope = access.scope := by
  obtain ⟨did, scope⟩ := access
  have hne : text "refresh+jwt" ≠ text "at+jwt" := by decide
  cases call <;> simp [Opens, typ, Call.did, Call.scope, hne]

theorem Call.renews_iff {call : Call} {refresh : Refresh} : call.Renews refresh ↔
    call.typ = text "refresh+jwt" ∧ call.did = refresh.did ∧ call.jti = some refresh.id := by
  obtain ⟨did, id⟩ := refresh
  have hne : text "at+jwt" ≠ text "refresh+jwt" := by decide
  cases call <;> simp [Renews, typ, Call.did, Call.jti, hne]

theorem verifyAccess_iff (hlibs : libs.Lawful)
    (hmac : mac.Ideal tokens.key (signedBy libs tokens.key issued))
    (hjson : ∀ issue ∈ issued, issue.Legible libs) {access : Access} :
    tokens.verifyAccess mac libs now token scopes = .ok access ↔
      ∃ issue ∈ issued, issue.tokens = tokens ∧ issue.call.Opens access ∧
        issue.returned mac libs = some token ∧ issue.Lasts now ∧ access.scope ∈ scopes := by
  unfold Tokens.verifyAccess
  rw [bind_ok_iff]
  constructor
  · rintro ⟨claims, hverify, h⟩
    obtain ⟨did, hdid, h⟩ := bind_ok_iff.mp h
    obtain ⟨scope, hscope, h⟩ := bind_ok_iff.mp h
    obtain rfl := Except.ok.inj h
    obtain ⟨issue, hissue, htokens, htyp, hclaims, htoken, hlasts, hmem⟩ :=
      (verify_iff hlibs hmac hjson).mp hverify
    obtain ⟨until_, -, rfl⟩ := Issue.claims_eq_some.mp hclaims
    have hscope : issue.call.scope = scope := by
      rw [readScope, Scope.parse_asStr] at hscope
      exact Except.ok.inj hscope
    have hdid : issue.call.did = did := (Did.ext (readDid_eq_ok.mp hdid)).symm
    exact ⟨issue, hissue, htokens, Call.opens_iff.mpr ⟨htyp, hdid, hscope⟩, htoken, hlasts rfl,
      hscope ▸ hmem⟩
  · rintro ⟨issue, hissue, htokens, hopens, htoken, hlasts, hmem⟩
    obtain ⟨htyp, hdid, hscope⟩ := Call.opens_iff.mp hopens
    obtain ⟨claims, hclaims⟩ := Issue.exists_claims htoken
    refine ⟨claims, (verify_iff hlibs hmac hjson).mpr ⟨issue, hissue, htokens, htyp, hclaims,
      htoken, fun _ => hlasts, hscope ▸ hmem⟩, ?_⟩
    obtain ⟨until_, -, rfl⟩ := Issue.claims_eq_some.mp hclaims
    refine bind_ok_iff.mpr ⟨access.did, readDid_eq_ok.mpr (by rw [hdid]), ?_⟩
    refine bind_ok_iff.mpr ⟨access.scope, ?_, rfl⟩
    rw [readScope, Scope.parse_asStr, hscope]
    rfl

theorem verifyRefresh_iff (hlibs : libs.Lawful)
    (hmac : mac.Ideal tokens.key (signedBy libs tokens.key issued))
    (hjson : ∀ issue ∈ issued, issue.Legible libs) {refresh : Refresh} :
    tokens.verifyRefresh mac libs now token expired = .ok refresh ↔
      ∃ issue ∈ issued, issue.tokens = tokens ∧ issue.call.Renews refresh ∧
        issue.returned mac libs = some token ∧ (expired = .refuse → issue.Lasts now) := by
  unfold Tokens.verifyRefresh
  rw [bind_ok_iff]
  constructor
  · rintro ⟨claims, hverify, h⟩
    obtain ⟨id, hid, h⟩ := bind_ok_iff.mp h
    obtain ⟨did, hdid, h⟩ := bind_ok_iff.mp h
    obtain rfl := Except.ok.inj h
    obtain ⟨issue, hissue, htokens, htyp, hclaims, htoken, hlasts, -⟩ :=
      (verify_iff hlibs hmac hjson).mp hverify
    obtain ⟨until_, -, rfl⟩ := Issue.claims_eq_some.mp hclaims
    have hid : issue.call.jti = some id := okOr_eq_ok.mp hid
    have hdid : issue.call.did = did := (Did.ext (readDid_eq_ok.mp hdid)).symm
    exact ⟨issue, hissue, htokens, Call.renews_iff.mpr ⟨htyp, hdid, hid⟩, htoken, hlasts⟩
  · rintro ⟨issue, hissue, htokens, hrenews, htoken, hlasts⟩
    obtain ⟨htyp, hdid, hid⟩ := Call.renews_iff.mp hrenews
    obtain ⟨claims, hclaims⟩ := Issue.exists_claims htoken
    have hscope : issue.call.scope ∈ [Scope.refresh] := by
      rw [hrenews]
      exact List.mem_singleton_self _
    refine ⟨claims, (verify_iff hlibs hmac hjson).mpr ⟨issue, hissue, htokens, htyp, hclaims,
      htoken, hlasts, hscope⟩, ?_⟩
    obtain ⟨until_, -, rfl⟩ := Issue.claims_eq_some.mp hclaims
    refine bind_ok_iff.mpr ⟨refresh.id, okOr_eq_ok.mpr hid, ?_⟩
    exact bind_ok_iff.mpr ⟨refresh.did, readDid_eq_ok.mpr (by rw [hdid]), rfl⟩

/-- The header alone says which kind a token is. -/
theorem Reads.typ_unique {other : Tokens} {typ' : Str} {claims' : Claims}
    (h : Reads mac libs tokens token typ claims) (h' : Reads mac libs other token typ' claims') :
    typ = typ' := by
  obtain ⟨first, second, signature, rfl, hfirst, -, hhead, -⟩ := h.split
  obtain ⟨first', second', signature', heq, hfirst', -, hhead', -⟩ := h'.split
  rw [List.append_assoc, List.append_assoc, List.cons_append, List.cons_append] at heq
  have hsplit := Str.splitOnce_append hfirst (second ++ ascii '.' :: libs.base64.encode signature)
  rw [heq, Str.splitOnce_append hfirst'] at hsplit
  obtain rfl := (Prod.mk.inj (Option.some.inj hsplit)).1
  rw [hhead] at hhead'
  exact congrArg Header.typ (Except.ok.inj hhead')

theorem not_both_kinds (hlibs : libs.Lawful) {later : Time} {access : Access} {refresh : Refresh}
    (haccess : tokens.verifyAccess mac libs now token scopes = .ok access) :
    tokens.verifyRefresh mac libs later token expired ≠ .ok refresh := by
  intro hrefresh
  obtain ⟨claims, hclaims, -⟩ := bind_ok_iff.mp haccess
  obtain ⟨claims', hclaims', -⟩ := bind_ok_iff.mp hrefresh
  have htyp :=
    ((verify_eq_ok hlibs).mp hclaims).1.typ_unique ((verify_eq_ok hlibs).mp hclaims').1
  exact absurd htyp (by decide)

/-- With tags only the key makes, of the tokens issued so far each is read as what it was minted
for until it ends, and no other string is. None is both an access and a refresh token. -/
theorem tokens_exact (mac : Mac Bytes Str Bytes) (libs : Libraries) (issued : List Issue)
    (tokens : Tokens) (hlibs : libs.Lawful)
    (hmac : mac.Ideal tokens.key (signedBy libs tokens.key issued))
    (hjson : ∀ issue ∈ issued, issue.Legible libs) (token : Str) (now : Time) :
    (∀ scopes access, tokens.verifyAccess mac libs now token scopes = .ok access ↔
      ∃ issue ∈ issued, issue.tokens = tokens ∧ issue.call.Opens access ∧
        issue.returned mac libs = some token ∧ issue.Lasts now ∧ access.scope ∈ scopes) ∧
    (∀ expired refresh, tokens.verifyRefresh mac libs now token expired = .ok refresh ↔
      ∃ issue ∈ issued, issue.tokens = tokens ∧ issue.call.Renews refresh ∧
        issue.returned mac libs = some token ∧ (expired = .refuse → issue.Lasts now)) ∧
    ∀ later scopes expired access refresh,
      ¬(tokens.verifyAccess mac libs now token scopes = .ok access ∧
        tokens.verifyRefresh mac libs later token expired = .ok refresh) :=
  ⟨fun _ _ => verifyAccess_iff hlibs hmac hjson, fun _ _ => verifyRefresh_iff hlibs hmac hjson,
    fun _ _ _ _ _ h => not_both_kinds hlibs h.1 h.2⟩

end

/-! ## A session of the tests -/

/-- The alphabet that is safe in a URL. -/
def urlSafeAlphabet : Str :=
  text "ABCDEFGHIJKLMNOPQRSTUVWXYZabcdefghijklmnopqrstuvwxyz0123456789-_"

def urlSafeSymbol (i : Fin 64) : Byte := urlSafeAlphabet.getD i 0

def urlSafeDigit (b : Byte) : Option (Fin 64) :=
  (List.finRange 64).find? fun i => urlSafeSymbol i = b

theorem urlSafeDigit_symbol : ∀ i : Fin 64, urlSafeDigit (urlSafeSymbol i) = some i := by
  decide

theorem urlSafeSymbol_ne_dot : ∀ i : Fin 64, urlSafeSymbol i ≠ ascii '.' := by decide

theorem urlSafeDigit_eq_some (b : Byte) (i : Fin 64) :
    urlSafeDigit b = some i ↔ urlSafeSymbol i = b := by
  constructor
  · intro h
    have hfound := List.find?_some h
    exact of_decide_eq_true hfound
  · rintro rfl
    exact urlSafeDigit_symbol i

def urlSafeNoPad : Engine where
  encode := Base64.encode urlSafeSymbol
  decode := Base64.decodeBare urlSafeDigit

theorem urlSafeNoPad_lawful : urlSafeNoPad.Lawful where
  decode_eq_some := Base64.decodeBare_eq_some urlSafeDigit_eq_some
  dot_not_mem := by
    intro bytes h
    obtain ⟨i, -, hi⟩ := List.mem_map.mp h
    exact urlSafeSymbol_ne_dot i hi

def Time.after (now : Time) (lifetime : ℤ) : Option Time :=
  if h : -377705023201000000000 ≤ now.nanos + lifetime ∧
      now.nanos + lifetime ≤ 253402207200999999999 then
    some ⟨now.nanos + lifetime, h.1, h.2⟩
  else none

theorem Time.after_eq_some {now until_ : Time} {lifetime : ℤ} :
    now.after lifetime = some until_ ↔ until_.nanos = now.nanos + lifetime := by
  have hfrom := until_.from_
  have huntil := until_.until_
  obtain ⟨nanos, _, _⟩ := until_
  unfold after
  rw [Option.dite_none_right_eq_some]
  constructor
  · rintro ⟨_, h⟩
    exact (congrArg Time.nanos (Option.some.inj h)).symm
  · rintro rfl
    exact ⟨⟨hfrom, huntil⟩, rfl⟩

theorem Time.toInt_ofInt_second (time : Time) : (Int64.ofInt time.second).toInt = time.second := by
  have hfrom := time.from_
  have huntil := time.until_
  have hmin : Int64.minValue.toInt = -9223372036854775808 := rfl
  have hmax : Int64.maxValue.toInt = 9223372036854775807 := rfl
  have habs : (time.nanos.tdiv 1000000000).natAbs = time.nanos.natAbs / 1000000000 :=
    Int.natAbs_tdiv time.nanos 1000000000
  unfold second
  apply Int64.toInt_ofInt_of_le
  · omega
  · omega

def timestamps : Jiff := ⟨Time.after, fun time => Int64.ofInt time.second⟩

theorem timestamps_lawful : timestamps.Lawful := ⟨Time.after_eq_some, Time.toInt_ofInt_second⟩

def testTokens : Tokens :=
  ⟨text "a secret long enough to not be guessed", text "did:web:pds.example.com"⟩

theorem testNow_inRange : (-377705023201000000000 : ℤ) ≤ 1700000000000000000 ∧
    (1700000000000000000 : ℤ) ≤ 253402207200999999999 := by decide

def testNow : Time := ⟨1700000000000000000, testNow_inRange.1, testNow_inRange.2⟩

def session : Issue := ⟨testTokens, testNow, .access DagCbor.recordDid .access⟩

def renewal : Issue := ⟨testTokens, testNow, .refresh DagCbor.recordDid (text "a-stored-session")⟩

def sessionClaims : Claims :=
  ⟨text "com.atproto.access", DagCbor.recordDid.str, testTokens.audience, 1700000000, 1700007200,
    none, none, none⟩

def renewalClaims : Claims :=
  ⟨text "com.atproto.refresh", DagCbor.recordDid.str, testTokens.audience, 1700000000, 1707776000,
    some (text "a-stored-session"), none, none⟩

def sessionHeaderText : Str := text "\x7b\"alg\":\"HS256\",\"typ\":\"at+jwt\"\x7d"

def renewalHeaderText : Str := text "\x7b\"alg\":\"HS256\",\"typ\":\"refresh+jwt\"\x7d"

def sessionClaimsText : Str :=
  text "\x7b\"scope\":\"com.atproto.access\",\"sub\":\"did:plc:4cjoyc3cgpal7gnrpzyjhnv3\"," ++
    text "\"aud\":\"did:web:pds.example.com\",\"iat\":1700000000,\"exp\":1700007200\x7d"

def renewalClaimsText : Str :=
  text "\x7b\"scope\":\"com.atproto.refresh\",\"sub\":\"did:plc:4cjoyc3cgpal7gnrpzyjhnv3\"," ++
    text "\"aud\":\"did:web:pds.example.com\",\"iat\":1700000000,\"exp\":1707776000," ++
    text "\"jti\":\"a-stored-session\"\x7d"

/-- The parts of both tokens, and what they are written as. -/
def testTexts : List (Json × Bytes) :=
  [((header (text "at+jwt")).toJson, sessionHeaderText), (sessionClaims.toJson, sessionClaimsText),
    ((header (text "refresh+jwt")).toJson, renewalHeaderText),
    (renewalClaims.toJson, renewalClaimsText)]

/-- The strings an object holds, by which those parts are told apart. -/
def strings : Json → List Str
  | .object fields => fields.filterMap fun field => asStr field.2
  | _ => []

theorem keyed_strings : Table.Keyed (strings ∘ Prod.fst) testTexts := by
  unfold Table.Keyed
  decide

theorem keyed_texts : Table.Keyed Prod.snd testTexts := by
  unfold Table.Keyed
  decide

def testWritten (value : Json) : Bytes :=
  (Table.find (strings ∘ Prod.fst) (strings value) testTexts).elim [] Prod.snd

def testRead (bytes : Bytes) : Option Json :=
  (Table.find Prod.snd bytes testTexts).map Prod.fst

/-- `serde_json` at the parts of both tokens. -/
def testSerde : Serde := ⟨testWritten, testRead⟩

theorem fromSlice_toVec {value : Json} {bytes : Bytes} (h : (value, bytes) ∈ testTexts) :
    testSerde.fromSlice (testSerde.toVec value) = some value := by
  have hwritten : testWritten value = bytes := by
    have hfind := keyed_strings.find_eq_some.mpr ⟨h, rfl⟩
    exact congrArg (fun held : Option (Json × Bytes) => held.elim [] Prod.snd) hfind
  have hread : testRead bytes = some value := by
    rw [testRead, keyed_texts.find_eq_some.mpr ⟨h, rfl⟩, Option.map_some]
  exact (congrArg testRead hwritten).trans hread

def testLibraries : Libraries := ⟨testSerde, urlSafeNoPad, timestamps⟩

theorem testLibraries_lawful : testLibraries.Lawful := ⟨urlSafeNoPad_lawful, timestamps_lawful⟩

def sessionMessage : Str :=
  text "eyJhbGciOiJIUzI1NiIsInR5cCI6ImF0K2p3dCJ9.eyJzY29wZSI6ImNvbS5hdHByb3RvLmFjY2VzcyIsInN1" ++
    text "YiI6ImRpZDpwbGM6NGNqb3ljM2NncGFsN2ducnB6eWpobnYzIiwiYXVkIjoiZGlkOndlYjpwZHMuZXhhbXBsZS" ++
    text "5jb20iLCJpYXQiOjE3MDAwMDAwMDAsImV4cCI6MTcwMDAwNzIwMH0"

def renewalMessage : Str :=
  text "eyJhbGciOiJIUzI1NiIsInR5cCI6InJlZnJlc2grand0In0.eyJzY29wZSI6ImNvbS5hdHByb3RvLnJlZnJlc2g" ++
    text "iLCJzdWIiOiJkaWQ6cGxjOjRjam95YzNjZ3BhbDdnbnJwenlqaG52MyIsImF1ZCI6ImRpZDp3ZWI6cGRzLmV4Y" ++
    text "W1wbGUuY29tIiwiaWF0IjoxNzAwMDAwMDAwLCJleHAiOjE3MDc3NzYwMDAsImp0aSI6ImEtc3RvcmVkLXNlc3" ++
    text "Npb24ifQ"

def sessionTag : Bytes :=
  [72, 240, 91, 29, 113, 137, 15, 0, 153, 39, 249, 130, 132, 171, 52, 80, 25, 177, 201, 217, 122,
    52, 71, 14, 29, 207, 219, 121, 164, 10, 198, 207]

def renewalTag : Bytes :=
  [48, 1, 7, 32, 76, 39, 233, 167, 148, 37, 48, 170, 188, 52, 49, 175, 101, 32, 102, 104, 215, 84,
    171, 135, 89, 108, 96, 148, 64, 198, 210, 183]

/-- The HMACs of those messages. -/
def testSign (key : Bytes) (message : Str) : Bytes :=
  if key ≠ testTokens.key then []
  else if message = sessionMessage then sessionTag
  else if message = renewalMessage then renewalTag
  else []

def testMac : Mac Bytes Str Bytes :=
  Mac.listing testSign (signedBy testLibraries testTokens.key [session, renewal])

def sessionToken : Str :=
  sessionMessage ++ ascii '.' :: text "SPBbHXGJDwCZJ_mChKs0UBmxydl6NEcOHc_beaQKxs8"

def renewalToken : Str :=
  renewalMessage ++ ascii '.' :: text "MAEHIEwn6aeUJTCqvDQxr2UgZmjXVKuHWWxglEDG0rc"

theorem session_claims : session.claims testLibraries = some sessionClaims := by rfl

theorem renewal_claims : renewal.claims testLibraries = some renewalClaims := by rfl

theorem session_legible : session.Legible testLibraries := by
  have hheader : ((header (text "at+jwt")).toJson, sessionHeaderText) ∈ testTexts :=
    List.mem_cons_self
  have hclaims : (sessionClaims.toJson, sessionClaimsText) ∈ testTexts :=
    List.mem_cons_of_mem _ List.mem_cons_self
  refine ⟨fromSlice_toVec hheader, ?_⟩
  intro claims hmem
  obtain rfl : sessionClaims = claims := Option.some.inj (session_claims.symm.trans hmem)
  exact fromSlice_toVec hclaims

theorem renewal_legible : renewal.Legible testLibraries := by
  have hheader : ((header (text "refresh+jwt")).toJson, renewalHeaderText) ∈ testTexts :=
    List.mem_cons_of_mem _ (List.mem_cons_of_mem _ List.mem_cons_self)
  have hclaims : (renewalClaims.toJson, renewalClaimsText) ∈ testTexts :=
    List.mem_cons_of_mem _ (List.mem_cons_of_mem _ (List.mem_cons_of_mem _ List.mem_cons_self))
  refine ⟨fromSlice_toVec hheader, ?_⟩
  intro claims hmem
  obtain rfl : renewalClaims = claims := Option.some.inj (renewal_claims.symm.trans hmem)
  exact fromSlice_toVec hclaims

theorem session_signed : signed testLibraries (text "at+jwt") sessionClaims = sessionMessage := by
  decide +kernel

theorem renewal_signed :
    signed testLibraries (text "refresh+jwt") renewalClaims = renewalMessage := by decide +kernel

theorem testSign_session : testSign testTokens.key sessionMessage = sessionTag := by
  rw [testSign, if_neg (not_not.mpr rfl), if_pos rfl]

theorem testSign_renewal : testSign testTokens.key renewalMessage = renewalTag := by
  have hne : renewalMessage ≠ sessionMessage := by decide
  rw [testSign, if_neg (not_not.mpr rfl), if_neg hne, if_pos rfl]

theorem encode_sessionTag : urlSafeNoPad.encode sessionTag =
    text "SPBbHXGJDwCZJ_mChKs0UBmxydl6NEcOHc_beaQKxs8" := by decide

theorem encode_renewalTag : urlSafeNoPad.encode renewalTag =
    text "MAEHIEwn6aeUJTCqvDQxr2UgZmjXVKuHWWxglEDG0rc" := by decide

theorem returned_of_signed {issue : Issue} {claims : Claims} {message : Str} {tag : Bytes}
    (hclaims : issue.claims testLibraries = some claims)
    (hsigned : signed testLibraries issue.call.typ claims = message)
    (hsign : testSign issue.tokens.key message = tag) : issue.returned testMac testLibraries =
      some (message ++ ascii '.' :: urlSafeNoPad.encode tag) := by
  rw [Issue.returned_eq, hclaims, Option.map_some, hsigned]
  subst hsign
  rfl

theorem session_returned : session.returned testMac testLibraries = some sessionToken := by
  rw [returned_of_signed session_claims session_signed testSign_session, encode_sessionTag,
    sessionToken]

theorem renewal_returned : renewal.returned testMac testLibraries = some renewalToken := by
  rw [returned_of_signed renewal_claims renewal_signed testSign_renewal, encode_renewalTag,
    renewalToken]

theorem session_lasts : session.Lasts testNow :=
  ⟨⟨1700007200000000000, by decide, by decide⟩, rfl, by decide⟩

theorem renewal_lasts : renewal.Lasts testNow :=
  ⟨⟨1707776000000000000, by decide, by decide⟩, rfl, by decide⟩

/-- Of two tokens that were minted, one opens the session it was minted for and the other renews
it. -/
theorem tokens_exact_session :
    testTokens.verifyAccess testMac testLibraries testNow sessionToken [.access] =
      .ok ⟨DagCbor.recordDid, .access⟩ ∧
    testTokens.verifyRefresh testMac testLibraries testNow renewalToken .refuse =
      .ok ⟨DagCbor.recordDid, text "a-stored-session"⟩ := by
  have hmac : testMac.Ideal testTokens.key
      (signedBy testLibraries testTokens.key [session, renewal]) :=
    Mac.ideal_listing testSign _ testTokens.key
  have hjson : ∀ issue ∈ [session, renewal], issue.Legible testLibraries := by
    intro issue hissue
    rcases List.mem_pair.mp hissue with rfl | rfl
    · exact session_legible
    · exact renewal_legible
  have hexact := tokens_exact testMac testLibraries [session, renewal] testTokens
    testLibraries_lawful hmac hjson
  constructor
  · apply ((hexact sessionToken testNow).1 [.access] ⟨DagCbor.recordDid, .access⟩).mpr
    exact ⟨session, List.mem_cons_self, rfl, Or.inl rfl, session_returned, session_lasts,
      List.mem_singleton_self _⟩
  · apply ((hexact renewalToken testNow).2.1 .refuse
      ⟨DagCbor.recordDid, text "a-stored-session"⟩).mpr
    exact ⟨renewal, List.mem_cons_of_mem _ List.mem_cons_self, rfl, rfl, renewal_returned,
      fun _ => renewal_lasts⟩

end Auth

end Manapds
