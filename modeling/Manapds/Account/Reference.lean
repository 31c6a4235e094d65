import Manapds.Store.Actor
import Manapds.Syntax.AtUri

/-!
# What a record refers to

The one subject a record of four collections may only point at once, and the blobs any record
names.
-/

namespace Manapds

variable {Cid : Type}

/-! ## Backlinks -/

namespace Backlink

def follow : Str := text "app.bsky.graph.follow"
def block : Str := text "app.bsky.graph.block"
def like : Str := text "app.bsky.feed.like"
def repost : Str := text "app.bsky.feed.repost"

def subject : Str := text "subject"
def subjectUri : Str := text "subject.uri"

/-- The subject of a follow or a block, where it is a DID. -/
def ofDid : Option (Ipld Cid) → List Backlink
  | some (.string did) => if (Did.parse did).isOk then [⟨subject, did⟩] else []
  | _ => []

/-- The subject of a like or a repost, where it holds an AT-URI. -/
def ofUri : Option (Ipld Cid) → List Backlink
  | some (.map held) => match Ipld.get held (text "uri") with
    | some (.string uri) => if (AtUri.parse uri).isOk then [⟨subjectUri, uri⟩] else []
    | _ => []
  | _ => []

/-- What this record may only hold one of, if it is one of the four. -/
def of : Ipld Cid → List Backlink
  | .map fields => match Ipld.get fields (text "$type") with
    | some (.string kind) =>
      if kind = follow ∨ kind = block then ofDid (Ipld.get fields subject)
      else if kind = like ∨ kind = repost then ofUri (Ipld.get fields subject)
      else []
    | _ => []
  | _ => []

/-- Whether a collection is one of the four at all. -/
def heldToOne (collection : Nsid) : Bool :=
  collection.str = follow || collection.str = block || collection.str = like ||
    collection.str = repost

end Backlink

/-! ## Blob references -/

namespace BlobRef

/-- What a record's blob reference has to hold, and all it may hold. -/
def keys : List Str := [text "$type", text "ref", text "mimeType", text "size"]

/-- The reference a map is, if it is one. -/
def named (fields : List (Str × Ipld Cid)) : Option (Blob Cid) :=
  if fields.length ≠ keys.length ∨ (keys.all fun key => (Ipld.get fields key).isSome) = false then
    none
  else match Ipld.get fields (text "$type"), Ipld.get fields (text "ref"),
      Ipld.get fields (text "mimeType"), Ipld.get fields (text "size") with
    | some (.string kind), some (.link cid), some (.string mime), some (.integer size) =>
      if kind ≠ text "blob" then none
      else if mime.contains (ascii '/') = false then none
      else if size < 0 ∨ 18446744073709551616 ≤ size then none
      else some ⟨cid, mime, size.toNat⟩
    | _, _, _, _ => none

/-- Whether a map is holding itself out as a reference, which makes failing to be one an error. -/
def claimsToBeOne (fields : List (Str × Ipld Cid)) : Bool :=
  match Ipld.get fields (text "$type") with
  | some (.string kind) => kind = text "blob"
  | _ => false

mutual

/-- Every blob a record names, in the order they are met. -/
def of : Ipld Cid → Except (RepoError Cid) (List (Blob Cid))
  | .list items => ofItems items
  | .map fields => match named fields with
    -- A reference is a leaf: whatever is inside it is part of it.
    | some blob => .ok [blob]
    | none =>
      if claimsToBeOne fields then .error (.notRecordData "a blob reference that is not one")
      else ofFields fields
  | _ => .ok []

def ofItems : List (Ipld Cid) → Except (RepoError Cid) (List (Blob Cid))
  | [] => .ok []
  | v :: rest => do return (← of v) ++ (← ofItems rest)

def ofFields : List (Str × Ipld Cid) → Except (RepoError Cid) (List (Blob Cid))
  | [] => .ok []
  | (_, v) :: rest => do return (← of v) ++ (← ofFields rest)

end

end BlobRef

end Manapds
