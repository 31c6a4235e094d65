import Mathlib.Data.List.AList
import Manapds.Lib.Program
import Manapds.Repo.Ipld

/-!
# Blocks: dag-cbor bytes and the CID that addresses them

The encoder, the decoders and the hash are libraries the repository calls, so they are fields of
`Codec`. What is relied on is `LawfulCodec`: no two byte strings share a CID, encoding is injective
on values and never refuses a plain one, and decoding gives back what was encoded.

A store is asked for one block at a time. `StoreQuery` is those questions, and `Store.answer` what
a store holding certain blocks says to them.
-/

namespace Manapds

open QueryProgram

class Codec (Cid : Type) where
  /-- `Sha256::digest`. -/
  sha256 : Bytes → Vector Byte 32
  /-- The CID of a block: v1, dag-cbor, sha-256. -/
  cidFor : Bytes → Cid
  /-- `serde_ipld_dagcbor::to_vec`. -/
  toVec : Ipld Cid → Except String Bytes
  /-- `serde_ipld_dagcbor::from_slice`, at the type of a node and at the type of a commit. -/
  nodeFromSlice : Bytes → Except String (NodeData Cid)
  commitFromSlice : Bytes → Except String (Commit Cid)

export Codec (cidFor)

class LawfulCodec (Cid : Type) [Codec Cid] : Prop where
  cidFor_injective : Function.Injective (cidFor : Bytes → Cid)
  toVec_injective {v w : Ipld Cid} {b : Bytes} : v.wf = true → w.wf = true →
    Codec.toVec v = .ok b → Codec.toVec w = .ok b → v = w
  toVec_ok {v : Ipld Cid} : v.wf = true → v.plain = true → ∃ b, Codec.toVec v = .ok b
  nodeFromSlice_toVec {node : NodeData Cid} {b : Bytes} :
    Codec.toVec node.toIpld = .ok b → Codec.nodeFromSlice b = .ok node
  commitFromSlice_toVec {commit : Commit Cid} {b : Bytes} :
    Codec.toVec commit.toIpld = .ok b → Codec.commitFromSlice b = .ok commit

/-- What went wrong reading or building a repository. The last two are not errors of the source:
`panic` is a panic, and `unfinished` a loop of this model that ran out of steps. -/
inductive RepoError (Cid : Type) where
  | missingBlock (cid : Cid)
  | encode (why : String)
  | decode (why : String)
  | invalidKey (key : Str)
  | keyExists (key : Str)
  | keyMissing (key : Str)
  | malformedNode (why : String)
  | wrongVersion (version : UInt8)
  | signature (why : String)
  | malformedCar (why : String)
  | wrongCid (cid : Cid)
  | store (why : String)
  | storeBusy
  | notRecordData (why : String)
  | noRevisionAfter (rev : Tid)
  | panic (why : String)
  | unfinished
deriving DecidableEq

variable {Cid : Type}

/-- Not a panic, and not a loop that was cut short. -/
def RepoError.Ordinary : RepoError Cid → Prop
  | .panic _ => False
  | .unfinished => False
  | _ => True

/-- A value, or one of the errors of the source. -/
def Answered {α : Type} (r : Except (RepoError Cid) α) : Prop := ∀ e, r = .error e → e.Ordinary

theorem answered_ok {α : Type} (a : α) : Answered (.ok a : Except (RepoError Cid) α) := by
  rintro e ⟨⟩

theorem answered_error {α : Type} {e : RepoError Cid} (h : e.Ordinary) :
    Answered (.error e : Except (RepoError Cid) α) := by
  rintro _ ⟨⟩
  exact h

theorem Answered.cast {α β : Type} {e : RepoError Cid} (h : Answered (.error e : Except _ α)) :
    Answered (.error e : Except (RepoError Cid) β) := answered_error (h e rfl)

theorem Answered.bind {α β : Type} {r : Except (RepoError Cid) α}
    {f : α → Except (RepoError Cid) β} (h : Answered r) (h' : ∀ a, Answered (f a)) :
    Answered (r >>= f) := by
  cases r with
  | ok a => exact h' a
  | error e => exact h.cast

section

variable [Codec Cid]

def encode (v : Ipld Cid) : Except (RepoError Cid) Bytes := (Codec.toVec v).mapError .encode

def decodeNode (b : Bytes) : Except (RepoError Cid) (NodeData Cid) :=
  (Codec.nodeFromSlice b).mapError .decode

def decodeCommit (b : Bytes) : Except (RepoError Cid) (Commit Cid) :=
  (Codec.commitFromSlice b).mapError .decode

end

/-- Blocks held in memory, which is what a write produces before it is stored. -/
abbrev BlockMap (Cid : Type) := AList fun _ : Cid => Bytes

namespace BlockMap

variable [DecidableEq Cid]

/-- Encodes a value, stores it, and hands back where it went. -/
def add [Codec Cid] (blocks : BlockMap Cid) (v : Ipld Cid) : Except (RepoError Cid) (Cid × BlockMap Cid) := do
  let bytes ← encode v
  return (cidFor bytes, blocks.insert (cidFor bytes) bytes)

/-- Takes in every block of another map. -/
def merge (blocks other : BlockMap Cid) : BlockMap Cid := other ∪ blocks

theorem lookup_merge (blocks other : BlockMap Cid) (cid : Cid) :
    (merge blocks other).lookup cid = (other.lookup cid).or (blocks.lookup cid) := by
  unfold merge
  by_cases h : cid ∈ other
  · obtain ⟨b, hb⟩ := Option.isSome_iff_exists.mp (AList.lookup_isSome.mpr h)
    rw [AList.lookup_union_left h, hb, Option.some_or]
  · rw [AList.lookup_union_right h, AList.lookup_eq_none.mpr h, Option.none_or]

theorem mem_merge (blocks other : BlockMap Cid) (cid : Cid) :
    cid ∈ merge blocks other ↔ cid ∈ blocks ∨ cid ∈ other := by
  rw [merge, AList.mem_union, or_comm]

/-- Blocks under the CIDs of their bytes. -/
def Sound [Codec Cid] (blocks : BlockMap Cid) : Prop :=
  ∀ c b, blocks.lookup c = some b → c = cidFor b

theorem Sound.empty [Codec Cid] : Sound (∅ : BlockMap Cid) := by
  intro c b h
  simp at h

theorem Sound.merge [Codec Cid] {blocks other : BlockMap Cid} (hb : blocks.Sound)
    (ho : other.Sound) : (blocks.merge other).Sound := by
  intro c b h
  rw [lookup_merge, Option.or_eq_some_iff] at h
  exact h.elim (ho c b) fun h => hb c b h.2

theorem Sound.insert [Codec Cid] {blocks : BlockMap Cid} (hb : blocks.Sound) (bytes : Bytes) :
    Sound (AList.insert (cidFor bytes) bytes blocks) := by
  intro c b h
  by_cases hc : c = cidFor bytes
  · subst hc
    rw [AList.lookup_insert, Option.some_inj] at h
    rw [h]
  · rw [AList.lookup_insert_ne hc] at h
    exact hb c b h

end BlockMap

/-- The questions a store is asked. -/
inductive StoreQuery (Cid : Type) where
  | get (cid : Cid)
  | contains (cid : Cid)

abbrev StoreQuery.Answer : StoreQuery Cid → Type
  | .get _ => Option Bytes
  | .contains _ => Bool

namespace Store

/-- A store that holds these blocks, answering. -/
def answer (st : Cid → Option Bytes) : ∀ q : StoreQuery Cid, q.Answer
  | .get cid => st cid
  | .contains cid => (st cid).isSome

@[simp] theorem answer_get (st : Cid → Option Bytes) (cid : Cid) :
    answer st (.get cid) = st cid := rfl

@[simp] theorem answer_contains (st : Cid → Option Bytes) (cid : Cid) :
    answer st (.contains cid) = (st cid).isSome := rfl

end Store

section

variable [Codec Cid] {v w : Ipld Cid} {b : Bytes}

theorem encode_eq_ok : encode v = .ok b ↔ Codec.toVec v = .ok b := by
  unfold encode
  cases Codec.toVec v <;> simp [Except.mapError]

variable [LawfulCodec Cid]

theorem exists_encode (hv : v.wf = true) (hp : v.plain = true) : ∃ b, encode v = .ok b := by
  obtain ⟨b, hb⟩ := LawfulCodec.toVec_ok hv hp
  exact ⟨b, encode_eq_ok.mpr hb⟩

theorem encode_injective (hv : v.wf = true) (hw : w.wf = true) (h : encode v = .ok b)
    (h' : encode w = .ok b) : v = w :=
  LawfulCodec.toVec_injective hv hw (encode_eq_ok.mp h) (encode_eq_ok.mp h')

theorem decodeNode_encode {node : NodeData Cid} (h : encode node.toIpld = .ok b) :
    decodeNode b = .ok node := by
  rw [decodeNode, LawfulCodec.nodeFromSlice_toVec (encode_eq_ok.mp h)]
  rfl

theorem decodeCommit_encode {commit : Commit Cid} (h : encode commit.toIpld = .ok b) :
    decodeCommit b = .ok commit := by
  rw [decodeCommit, LawfulCodec.commitFromSlice_toVec (encode_eq_ok.mp h)]
  rfl

end

end Manapds
