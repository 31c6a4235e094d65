import Manapds.Syntax.Identifier

/-!
# AT-URIs

Only the form lexicons use parses: no query, no trailing slash, and a record key a repository
could really hold. The parser here checks what the source checks, in its order.
-/

namespace Manapds

/-- Whichever identifier a caller happened to have: a DID when it says so, else a handle. -/
inductive AtIdentifier where
  | did (did : Did)
  | handle (handle : Handle)

def AtIdentifier.str : AtIdentifier → Str
  | .did d => d.str
  | .handle h => h.str

def AtIdentifier.parse (input : Str) : Except SyntaxError AtIdentifier :=
  if text "did:" <+: input then (Did.parse input).map .did else (Handle.parse input).map .handle

namespace AtUri

def maxLen : ℕ := 8192

def isPointerByte (b : Byte) : Bool :=
  b.isAsciiAlphanumeric || (text "._~:@!$&'()*+,;=%/[]-").contains b

def isAllowed (b : Byte) : Bool := isPointerByte b || (text "#?\\").contains b

def hex (b : Byte) : Option ℕ :=
  if ascii '0' ≤ b ∧ b ≤ ascii '9' then some (b.val - (ascii '0').val)
  else if ascii 'a' ≤ b ∧ b ≤ ascii 'f' then some (b.val - (ascii 'a').val + 10)
  else if ascii 'A' ≤ b ∧ b ≤ ascii 'F' then some (b.val - (ascii 'A').val + 10)
  else none

/-- What the escapes of a fragment spell, each of them two hex digits. -/
def percentDecode : Str → Except SyntaxError Bytes
  | [] => .ok []
  | b :: rest =>
    if b ≠ ascii '%' then do return b :: (← percentDecode rest)
    else match rest with
      | high :: low :: rest => match hex high, hex low with
        | some h, some l => do return Fin.ofNat 256 (h * 16 + l) :: (← percentDecode rest)
        | _, _ => .error (.atUri "escape is not two hex digits")
      | _ => .error (.atUri "truncated escape in the fragment")

def validateFragment (fragment : Str) : Except SyntaxError Unit :=
  if fragment.head? ≠ some (ascii '/') then .error (.atUri "fragment is not a JSON pointer")
  else if fragment.all isPointerByte = false then
    .error (.atUri "disallowed character in the fragment")
  else do
    let decoded ← percentDecode fragment
    if Str.isUtf8 decoded = false then .error (.atUri "escapes in the fragment do not spell text")
    else .ok ()

end AtUri

/-- A URI naming a repository, one collection in it, or one record. -/
structure AtUri where
  authority : AtIdentifier
  collection : Option Nsid
  rkey : Option RecordKey
  /-- The pointer into the record, as it was written. -/
  fragment : Option Str

namespace AtUri

/-- `Display`. -/
def print (uri : AtUri) : Str :=
  text "at://" ++ uri.authority.str ++
    (uri.collection.elim [] fun collection => ascii '/' :: collection.str) ++
    (uri.rkey.elim [] fun rkey => ascii '/' :: rkey.str) ++
    (uri.fragment.elim [] fun fragment => ascii '#' :: fragment)

/-- `map(parse).transpose()`. -/
def parseOptional {α : Type} (part : Option Str) (parse : Str → Except SyntaxError α) :
    Except SyntaxError (Option α) :=
  match part with
  | none => .ok none
  | some s => (parse s).map some

/-- Each part on its own, as the segments of the path and the fragment name it. -/
def parseParts (segments : List Str) (fragment : Option Str) : Except SyntaxError AtUri := do
  let authority ← (AtIdentifier.parse (segments.headD [])).mapError fun _ =>
    .atUri "authority is not a DID or a handle"
  let collection ← parseOptional segments[1]? fun s =>
    (Nsid.parse s).mapError fun _ => .atUri "collection is not an NSID"
  let rkey ← parseOptional segments[2]? fun s =>
    (RecordKey.parse s).mapError fun _ => .atUri "not a record key"
  let fragment ← parseOptional fragment fun s => (validateFragment s).map fun _ => s
  return ⟨authority, collection, rkey, fragment⟩

/-- What stands before the first `#`, and the fragment after it. -/
def splitFragment (rest : Str) : Str × Option Str :=
  match rest.splitOnce (ascii '#') with
  | some (rest, fragment) => (rest, some fragment)
  | none => (rest, none)

def parsePath (rest : Str) (fragment : Option Str) : Except SyntaxError AtUri :=
  if rest.contains (ascii '?') then .error (.atUri "query strings do not address anything")
  else if rest.getLast? = some (ascii '/') then .error (.atUri "trailing slash")
  else if 3 < (rest.split (ascii '/')).length then .error (.atUri "more than two path segments")
  else parseParts (rest.split (ascii '/')) fragment

/-- `FromStr`. -/
def parse (input : Str) : Except SyntaxError AtUri :=
  if maxLen < input.length then .error (.atUri "longer than 8192 characters")
  else if input.all isAllowed = false then .error (.atUri "disallowed character")
  else match Str.stripPrefix (text "at://") input with
    | none => .error (.atUri "does not start with \"at://\"")
    | some rest => parsePath (splitFragment rest).1 (splitFragment rest).2

end AtUri

end Manapds
