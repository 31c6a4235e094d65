import Manapds.Syntax.Tid

/-!
# DIDs, handles, NSIDs and record keys

Every type here is built only by parsing, so holding one is proof that it validated.
-/

namespace Manapds

/-! ## DIDs -/

namespace Did

def maxLen : ℕ := 2048

def isAllowed (b : Byte) : Bool :=
  b.isAsciiAlphanumeric || b = ascii '.' || b = ascii '_' || b = ascii ':' || b = ascii '%' ||
    b = ascii '-'

def validate (input : Str) : Except SyntaxError Unit :=
  if maxLen < input.length then .error (.did "longer than 2048 characters")
  else match Str.stripPrefix (text "did:") input with
    | none => .error (.did "does not start with \"did:\"")
    | some rest => match rest.splitOnce (ascii ':') with
      | none => .error (.did "no method-specific identifier")
      | some (method, id) =>
        if method = [] ∨ method.all Byte.isAsciiLowercase = false then
          .error (.did "method is not lowercase letters")
        else if id = [] then .error (.did "empty method-specific identifier")
        else if id.all isAllowed = false then .error (.did "disallowed character")
        -- Percent encoding is allowed but not checked, so a trailing "%" is all that is caught.
        else if id.getLast? = some (ascii ':') ∨ id.getLast? = some (ascii '%') then
          .error (.did "ends with \":\" or \"%\"")
        else .ok ()

end Did

structure Did where
  str : Str
  valid : Did.validate str = .ok ()

/-! ## Handles -/

namespace Handle

def maxLen : ℕ := 253

def maxLabelLen : ℕ := 63

def validateLabel (label : Str) : Except SyntaxError Unit :=
  if label = [] then .error (.handle "empty part")
  else if maxLabelLen < label.length then .error (.handle "part longer than 63 characters")
  else if (label.all fun b => b.isAsciiAlphanumeric || b = ascii '-') = false then
    .error (.handle "disallowed character")
  else if label.head? = some (ascii '-') ∨ label.getLast? = some (ascii '-') then
    .error (.handle "part starts or ends with a hyphen")
  else .ok ()

def validate (input : Str) : Except SyntaxError Unit :=
  if maxLen < input.length then .error (.handle "longer than 253 characters")
  else do
    let labels := input.split (ascii '.')
    labels.forM validateLabel
    if labels.length < 2 then .error (.handle "not a domain name")
    else if ((labels.getLast?.bind List.head?).any Byte.isAsciiAlphabetic) = false then
      .error (.handle "last part does not start with a letter")
    else .ok ()

end Handle

structure Handle where
  str : Str
  valid : Handle.validate str = .ok ()

/-! ## NSIDs -/

namespace Nsid

/-- A domain, a separator, and a name. -/
def maxLen : ℕ := 253 + 1 + 63

def maxSegmentLen : ℕ := 63

def validateSegment (segment : Str) : Except SyntaxError Unit :=
  if segment = [] then .error (.nsid "empty part")
  else if maxSegmentLen < segment.length then .error (.nsid "part longer than 63 characters")
  else if (segment.all fun b => b.isAsciiAlphanumeric || b = ascii '-') = false then
    .error (.nsid "disallowed character")
  else if segment.head? = some (ascii '-') ∨ segment.getLast? = some (ascii '-') then
    .error (.nsid "part starts or ends with a hyphen")
  else .ok ()

def validate (input : Str) : Except SyntaxError Unit :=
  if maxLen < input.length then .error (.nsid "longer than 317 characters")
  else do
    let segments := input.split (ascii '.')
    segments.forM validateSegment
    let first := segments.headD []
    let name := segments.getLastD []
    if segments.length < 3 then .error (.nsid "fewer than three parts")
    else if first.head?.any Byte.isAsciiDigit then .error (.nsid "authority starts with a digit")
    else if name.head?.any Byte.isAsciiDigit ∨ ascii '-' ∈ name then
      .error (.nsid "name is not a letter followed by letters and digits")
    else .ok ()

end Nsid

structure Nsid where
  str : Str
  valid : Nsid.validate str = .ok ()

/-! ## Record keys -/

namespace RecordKey

def maxLen : ℕ := 512

def isAllowed (b : Byte) : Bool :=
  b.isAsciiAlphanumeric || b = ascii '.' || b = ascii '_' || b = ascii '~' || b = ascii ':' ||
    b = ascii '-'

def validate (input : Str) : Except SyntaxError Unit :=
  if input = [] then .error (.recordKey "empty")
  else if maxLen < input.length then .error (.recordKey "longer than 512 characters")
  else if input = text "." ∨ input = text ".." then
    .error (.recordKey "\".\" and \"..\" are reserved")
  else if input.all isAllowed = false then .error (.recordKey "disallowed character")
  else .ok ()

end RecordKey

structure RecordKey where
  str : Str
  valid : RecordKey.validate str = .ok ()

theorem Did.ext {a b : Did} (h : a.str = b.str) : a = b := by cases a; cases b; cases h; rfl

theorem Nsid.ext {a b : Nsid} (h : a.str = b.str) : a = b := by cases a; cases b; cases h; rfl

theorem RecordKey.ext {a b : RecordKey} (h : a.str = b.str) : a = b := by
  cases a; cases b; cases h; rfl

instance : DecidableEq Did := fun a b => decidable_of_iff (a.str = b.str) ⟨Did.ext, congrArg _⟩

instance : DecidableEq Nsid := fun a b => decidable_of_iff (a.str = b.str) ⟨Nsid.ext, congrArg _⟩

instance : DecidableEq RecordKey := fun a b =>
  decidable_of_iff (a.str = b.str) ⟨RecordKey.ext, congrArg _⟩

theorem Handle.ext {a b : Handle} (h : a.str = b.str) : a = b := by cases a; cases b; cases h; rfl

/-! ## Parsing -/

theorem map_ok_iff {α β ε : Type} {x : Except ε α} {f : α → β} {b : β} :
    x.map f = .ok b ↔ ∃ a, x = .ok a ∧ f a = b := by
  cases x <;> simp [Except.map]

theorem mapError_ok_iff {α ε ε' : Type} {x : Except ε α} {f : ε → ε'} {a : α} :
    x.mapError f = .ok a ↔ x = .ok a := by
  cases x <;> simp [Except.mapError]

theorem bind_ok_iff {α β ε : Type} {x : Except ε α} {f : α → Except ε β} {b : β} :
    (x >>= f) = .ok b ↔ ∃ a, x = .ok a ∧ f a = .ok b := by
  cases x <;> simp [bind, Except.bind]

/-- `parse`: the identifier a string is, where it validates. -/
def parseAs {α : Type} (validate : Str → Except SyntaxError Unit)
    (build : (input : Str) → validate input = .ok () → α) (input : Str) : Except SyntaxError α :=
  match h : validate input with
  | .ok () => .ok (build input h)
  | .error e => .error e

def Did.parse : Str → Except SyntaxError Did := parseAs Did.validate Did.mk

def Handle.parse : Str → Except SyntaxError Handle := parseAs Handle.validate Handle.mk

def Nsid.parse : Str → Except SyntaxError Nsid := parseAs Nsid.validate Nsid.mk

def RecordKey.parse : Str → Except SyntaxError RecordKey :=
  parseAs RecordKey.validate RecordKey.mk

theorem parseAs_eq_ok {α : Type} {validate : Str → Except SyntaxError Unit}
    {build : (input : Str) → validate input = .ok () → α} {input : Str} {a : α} :
    parseAs validate build input = .ok a ↔ ∃ h, build input h = a := by
  unfold parseAs
  split
  · next h =>
    constructor
    · intro ha
      exact ⟨h, Except.ok.inj ha⟩
    · rintro ⟨-, rfl⟩
      rfl
  · next e h =>
    constructor
    · intro ha
      cases ha
    · rintro ⟨hok, -⟩
      rw [hok] at h
      cases h

theorem Did.parse_eq_ok {input : Str} {did : Did} : parse input = .ok did ↔ did.str = input := by
  rw [parse, parseAs_eq_ok]
  constructor
  · rintro ⟨h, rfl⟩
    rfl
  · rintro rfl
    exact ⟨did.valid, rfl⟩

theorem Handle.parse_eq_ok {input : Str} {handle : Handle} :
    parse input = .ok handle ↔ handle.str = input := by
  rw [parse, parseAs_eq_ok]
  constructor
  · rintro ⟨h, rfl⟩
    rfl
  · rintro rfl
    exact ⟨handle.valid, rfl⟩

theorem Nsid.parse_eq_ok {input : Str} {nsid : Nsid} :
    parse input = .ok nsid ↔ nsid.str = input := by
  rw [parse, parseAs_eq_ok]
  constructor
  · rintro ⟨h, rfl⟩
    rfl
  · rintro rfl
    exact ⟨nsid.valid, rfl⟩

theorem RecordKey.parse_eq_ok {input : Str} {rkey : RecordKey} :
    parse input = .ok rkey ↔ rkey.str = input := by
  rw [parse, parseAs_eq_ok]
  constructor
  · rintro ⟨h, rfl⟩
    rfl
  · rintro rfl
    exact ⟨rkey.valid, rfl⟩

end Manapds
