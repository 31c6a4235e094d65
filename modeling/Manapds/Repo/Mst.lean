import Mathlib.Data.Nat.Size
import Manapds.Repo.Block

/-!
# The Merkle search tree

A key's depth is the number of leading zero pairs of bits in its sha-256. A node is in memory, or
a CID to be read from the store when an operation reaches it; its layer is known once a key gives
it away, and its CID until its contents move on.

One traversal reads through a `Reader`: the CIDs it has read are the state of a `Reading`, and the
depth it has left is the first argument of every function that counts a level. A function that
edits a node in place hands back the edited node beside its answer.
-/

namespace Manapds

open QueryProgram

variable {Cid : Type}

/-- A record, under the `<collection>/<rkey>` key it is found by. -/
structure Leaf (Cid : Type) where
  key : Str
  value : Cid
deriving DecidableEq

mutual

/-- A subtree, loaded from the reader only as far as an operation reaches: its entries once they
are read, its layer once it is known, and its CID until the contents move on from it. -/
inductive Mst (Cid : Type) : Type where
  | mk (entries : Option (List (Entry Cid))) (layer : Option ℕ) (pointer : Option Cid)

inductive Entry (Cid : Type) : Type where
  | leaf (leaf : Leaf Cid)
  | tree (subtree : Mst Cid)

end

/-- Deeper than the depth rule can put a node. -/
def maxDepth : ℕ := 256

/-- The longest key the tree will hold, counting the collection and the slash. -/
def maxKeyLen : ℕ := 1024

/-- What reads a store, beside a state of its own. -/
abbrev Reads (Cid σ : Type) := Routine (StoreQuery Cid) StoreQuery.Answer σ (RepoError Cid)

/-- One traversal, with the CIDs it has been through. -/
abbrev Reading (Cid : Type) := Reads Cid (List Cid)

/-! ## Keys -/

def isKeyByte (b : Byte) : Bool :=
  b.isAsciiAlphanumeric || b = ascii '_' || b = ascii '~' || b = ascii '-' || b = ascii ':' ||
    b = ascii '.'

def ensureValidKey (key : Str) : Except (RepoError Cid) Unit :=
  let valid := match key.split (ascii '/') with
    | [collection, rkey] => decide (key.length ≤ maxKeyLen) && !collection.isEmpty &&
        !rkey.isEmpty && key.all fun b => b = ascii '/' || isKeyByte b
    | _ => false
  if valid then .ok () else .error (.invalidKey key)

def sharedPrefix (a b : Str) : ℕ := ((a.zip b).takeWhile fun p => p.1 = p.2).length

/-- The zero bits a byte starts with. -/
def byteLeadingZeros (b : Byte) : ℕ := 8 - Nat.size b.val

def leadingZerosFrom : List Byte → ℕ
  | [] => 0
  | b :: rest => byteLeadingZeros b / 2 + if b ≠ 0 then 0 else leadingZerosFrom rest

/-- How deep a key sits: the leading zero bits of its hash, counted in pairs. -/
def leadingZeros (Cid : Type) [Codec Cid] (key : Bytes) : ℕ :=
  leadingZerosFrom (Codec.sha256 Cid key).toList

/-! ## Reading nodes -/

namespace Reader

def block (cid : Cid) : Reading Cid (Option Bytes) := Routine.ask (StoreQuery.get cid)

def contains (cid : Cid) : Reading Cid Bool := Routine.ask (StoreQuery.contains cid)

/-- Reads a node, refusing one this traversal has already been through. -/
def node [Codec Cid] [DecidableEq Cid] (cid : Cid) : Reading Cid (NodeData Cid) := do
  let seen ← Routine.get
  if cid ∈ seen then Routine.throw (.malformedNode "a node under itself")
  else do
    Routine.set (cid :: seen)
    match ← block cid with
    | none => Routine.throw (.missingBlock cid)
    | some bytes => Routine.ofExcept (decodeNode bytes)

/-- The level a frame would have counted past the last there is. -/
def tooDeep {α : Type} : Reading Cid α :=
  Routine.throw (.malformedNode "a tree deeper than its keys allow")

/-- A traversal through a reader of its own, in the course of whatever else reads the store. -/
def new {σ α : Type} (traversal : Reading Cid α) : Reads Cid σ α := fun s =>
  (traversal []).bind fun p => .done (p.1, s)

theorem exec_new {σ α : Type} (env : ∀ q : StoreQuery Cid, q.Answer) (traversal : Reading Cid α)
    (s : σ) : Routine.exec env (new traversal) s = ((Routine.exec env traversal []).1, s) := by
  rw [Routine.exec, new, Program.run_bind]
  rfl

end Reader

namespace Mst

def entries? : Mst Cid → Option (List (Entry Cid))
  | .mk entries _ _ => entries

def layer? : Mst Cid → Option ℕ
  | .mk _ layer _ => layer

def pointer? : Mst Cid → Option Cid
  | .mk _ _ pointer => pointer

def withEntries : Mst Cid → List (Entry Cid) → Mst Cid
  | .mk _ layer pointer, entries => .mk (some entries) layer pointer

def withLayer : Mst Cid → Option ℕ → Mst Cid
  | .mk entries _ pointer, layer => .mk entries layer pointer

def withPointer : Mst Cid → Cid → Mst Cid
  | .mk entries layer _, pointer => .mk entries layer (some pointer)

/-- A tree with nothing in it. -/
def empty : Mst Cid := .mk (some []) none none

/-- The tree under a root CID, read on demand. -/
def load (root : Cid) : Mst Cid := .mk none none (some root)

def fromEntries (entries : List (Entry Cid)) (layer : Option ℕ) : Mst Cid :=
  .mk (some entries) layer none

def toEntries (subtree : Option (Mst Cid)) : List (Entry Cid) := (subtree.map Entry.tree).toList

section

variable [Codec Cid]

/-- The entries a stored node unfolds to, its keys written out in full again. -/
def deserializeFrom (under : Option ℕ) :
    Str → List (TreeEntry Cid) → Except (RepoError Cid) (List (Entry Cid))
  | _, [] => .ok []
  | last, entry :: rest => do
    if Str.isUtf8 entry.k then
      match last.getTo entry.p with
      | none => .error (.malformedNode "a prefix longer than the key before it")
      | some shared =>
        let key := shared ++ entry.k
        ensureValidKey key
        let rest ← deserializeFrom under key rest
        return .leaf ⟨key, entry.v⟩ ::
          (toEntries (entry.t.map fun cid => .mk none under (some cid)) ++ rest)
    else .error (.malformedNode "a key that is not text")

def deserialize (data : NodeData Cid) (layer : Option ℕ) :
    Except (RepoError Cid) (List (Entry Cid)) := do
  let under := layer.bind fun layer => if layer = 0 then none else some (layer - 1)
  let rest ← deserializeFrom under [] data.e
  return toEntries (data.l.map fun cid => .mk none under (some cid)) ++ rest

variable [DecidableEq Cid]

/-- Reads this node in, if it has not been read yet. -/
def fill (t : Mst Cid) : Reading Cid (Mst Cid) :=
  match t.entries?, t.pointer? with
  | some _, _ => pure t
  | none, none => Routine.throw (.malformedNode "a node with neither contents nor CID")
  | none, some cid => do
    let data ← Reader.node cid
    -- The first entry shares no prefix, so its stored key is the whole one and gives the layer.
    let layer := data.e.head?.map fun entry => leadingZeros Cid entry.k
    let entries ← Routine.ofExcept (deserialize data layer)
    return t.withEntries entries

def entries (t : Mst Cid) : Reading Cid (List (Entry Cid) × Mst Cid) := do
  let t ← t.fill
  match t.entries? with
  | some entries => return (entries, t)
  | none => Routine.throw (.panic "just filled")

/-- What is left of the node is dropped by every caller. -/
def takeEntries (t : Mst Cid) : Reading Cid (List (Entry Cid)) := do
  let (entries, _) ← t.entries
  return entries

/-- The layer of the first leaf among these entries. -/
def leafLayer : List (Entry Cid) → Option ℕ
  | [] => none
  | .leaf leaf :: _ => some (leadingZeros Cid leaf.key)
  | .tree _ :: rest => leafLayer rest

/-- The layer of the first subtree that knows its own, and one. -/
def layerUnder (findLayer : Mst Cid → Reading Cid (Option ℕ × Mst Cid)) :
    List (Entry Cid) → Reading Cid (Option ℕ × List (Entry Cid))
  | [] => pure (none, [])
  | .leaf leaf :: rest => do
    let (layer, rest) ← layerUnder findLayer rest
    return (layer, .leaf leaf :: rest)
  | .tree subtree :: rest => do
    let (under, subtree) ← findLayer subtree
    match under with
    | some under => return (some (under + 1), .tree subtree :: rest)
    | none =>
      let (layer, rest) ← layerUnder findLayer rest
      return (layer, .tree subtree :: rest)

/-- The layer, from the first key at this level or under it. -/
def findLayer : ℕ → Mst Cid → Reading Cid (Option ℕ × Mst Cid)
  | 0, _ => Reader.tooDeep
  | depth + 1, t => match t.layer? with
    | some layer => pure (some layer, t)
    | none => do
      let (entries, t) ← t.entries
      match leafLayer entries with
      | some layer => return (some layer, t.withLayer (some layer))
      | none =>
        let (layer, entries) ← layerUnder (findLayer depth) entries
        return (layer, (t.withEntries entries).withLayer layer)

def layer (depth : ℕ) (t : Mst Cid) : Reading Cid (ℕ × Mst Cid) := do
  let (found, t) ← findLayer depth t
  let layer := found.getD 0
  return (layer, t.withLayer (some layer))

/-- Where the first key at or above this one sits, or the end of the node. -/
def position (entries : List (Entry Cid)) (key : Str) : ℕ :=
  entries.findIdx fun
    | .leaf leaf => key ≤ leaf.key
    | .tree _ => false

def indexOf (t : Mst Cid) (key : Str) : Reading Cid (ℕ × Mst Cid) := do
  let (entries, t) ← t.entries
  return (position entries key, t)

/-- The value at an index, where there is a leaf there and it is under this key. -/
def leafAt (entries : List (Entry Cid)) (index : ℕ) (key : Str) : Option Cid :=
  match entries[index]? with
  | some (.leaf leaf) => if leaf.key = key then some leaf.value else none
  | _ => none

/-- The subtree just before an index, where there is one. -/
def treeBefore (entries : List (Entry Cid)) : ℕ → Option (ℕ × Mst Cid)
  | 0 => none
  | i + 1 => match entries[i]? with
    | some (.tree subtree) => some (i, subtree)
    | _ => none

end

/-! ## Hashing -/

section

variable [Codec Cid]

/-- The leaves of a node as they are stored, each beside the subtree to its right. -/
def serializeFrom (root : Mst Cid → Reading Cid (Cid × Mst Cid)) :
    Str → List (Entry Cid) → Reading Cid (List (TreeEntry Cid) × List (Entry Cid))
  | _, [] => pure ([], [])
  | _, .tree _ :: _ => Routine.throw (.malformedNode "two subtrees side by side")
  | last, .leaf leaf :: .tree right :: rest => do
    let (cid, right) ← root right
    Routine.ofExcept (ensureValidKey leaf.key)
    let shared := sharedPrefix last leaf.key
    let (stored, rest) ← serializeFrom root leaf.key rest
    return (⟨shared, leaf.key.drop shared, leaf.value, some cid⟩ :: stored,
      .leaf leaf :: .tree right :: rest)
  | last, .leaf leaf :: rest => do
    Routine.ofExcept (ensureValidKey leaf.key)
    let shared := sharedPrefix last leaf.key
    let (stored, rest) ← serializeFrom root leaf.key rest
    return (⟨shared, leaf.key.drop shared, leaf.value, none⟩ :: stored, .leaf leaf :: rest)

def serialize (root : Mst Cid → Reading Cid (Cid × Mst Cid)) :
    List (Entry Cid) → Reading Cid (NodeData Cid × List (Entry Cid))
  | .tree subtree :: rest => do
    let (cid, subtree) ← root subtree
    let (stored, rest) ← serializeFrom root [] rest
    return (⟨some cid, stored⟩, .tree subtree :: rest)
  | entries => do
    let (stored, entries) ← serializeFrom root [] entries
    return (⟨none, stored⟩, entries)

variable [DecidableEq Cid]

/-- This node as it is stored, with every subtree's CID settled first. -/
def nodeData (root : Mst Cid → Reading Cid (Cid × Mst Cid)) (t : Mst Cid) :
    Reading Cid (NodeData Cid × Mst Cid) := do
  let (entries, t) ← t.entries
  let (data, entries) ← serialize root entries
  return (data, t.withEntries entries)

/-- The CID of this node, hashing it and everything under it that has changed. -/
def rootIn : ℕ → Mst Cid → Reading Cid (Cid × Mst Cid)
  | 0, _ => Reader.tooDeep
  | depth + 1, t => match t.pointer? with
    | some cid => pure (cid, t)
    | none => do
      let (data, t) ← nodeData (rootIn depth) t
      let bytes ← Routine.ofExcept (encode data.toIpld)
      return (cidFor bytes, t.withPointer (cidFor bytes))

/-- What every subtree among these entries would have to be stored as. -/
def unstoredUnder (unstored : Mst Cid → Reading Cid ((Cid × BlockMap Cid) × Mst Cid)) :
    BlockMap Cid → List (Entry Cid) → Reading Cid (BlockMap Cid × List (Entry Cid))
  | blocks, [] => pure (blocks, [])
  | blocks, .leaf leaf :: rest => do
    let (blocks, rest) ← unstoredUnder unstored blocks rest
    return (blocks, .leaf leaf :: rest)
  | blocks, .tree subtree :: rest => do
    let ((_, under), subtree) ← unstored subtree
    let (blocks, rest) ← unstoredUnder unstored (blocks.merge under) rest
    return (blocks, .tree subtree :: rest)

/-- The blocks that would have to be written to store this tree, and the root they hang from. -/
def unstoredBlocksIn : ℕ → Mst Cid → Reading Cid ((Cid × BlockMap Cid) × Mst Cid)
  | 0, _ => Reader.tooDeep
  | depth + 1, t => do
    let (root, t) ← rootIn depth t
    if ← Reader.contains root then return ((root, ∅), t)
    else do
      let (data, t) ← nodeData (rootIn depth) t
      let (_, blocks) ← Routine.ofExcept (BlockMap.add ∅ data.toIpld)
      let (entries, t) ← t.entries
      let (blocks, entries) ← unstoredUnder (unstoredBlocksIn depth) blocks entries
      return ((root, blocks), t.withEntries entries)

/-! ## Lookups -/

/-- The block for a record, or `none` if the tree does not hold that key. -/
def getIn : ℕ → Mst Cid → Str → Reading Cid (Option Cid × Mst Cid)
  | 0, _, _ => Reader.tooDeep
  | depth + 1, t, key => do
    let (index, t) ← t.indexOf key
    let (entries, t) ← t.entries
    match leafAt entries index key, treeBefore entries index with
    | some value, _ => return (some value, t)
    | none, some (i, subtree) =>
      let (found, subtree) ← getIn depth subtree key
      return (found, t.withEntries (entries.set i (.tree subtree)))
    | none, none => return (none, t)

/-- Every node from here down to a key, and the record at it where the tree holds one. -/
def cidsForPathIn : ℕ → Mst Cid → Str → Reading Cid (List Cid × Mst Cid)
  | 0, _, _ => Reader.tooDeep
  | depth + 1, t, key => do
    let (root, t) ← rootIn depth t
    let (index, t) ← t.indexOf key
    let (entries, t) ← t.entries
    match leafAt entries index key, treeBefore entries index with
    | some value, _ => return ([root, value], t)
    | none, some (i, subtree) =>
      let (cids, subtree) ← cidsForPathIn depth subtree key
      return (root :: cids, t.withEntries (entries.set i (.tree subtree)))
    | none, none => return ([root], t)

/-- The leaves of these entries, the leaves under a subtree where it stands. -/
def leavesUnder (collect : Mst Cid → Reading Cid (List (Leaf Cid) × Mst Cid)) :
    List (Entry Cid) → Reading Cid (List (Leaf Cid) × List (Entry Cid))
  | [] => pure ([], [])
  | .leaf leaf :: rest => do
    let (found, rest) ← leavesUnder collect rest
    return (leaf :: found, .leaf leaf :: rest)
  | .tree subtree :: rest => do
    let (under, subtree) ← collect subtree
    let (found, rest) ← leavesUnder collect rest
    return (under ++ found, .tree subtree :: rest)

def collectLeaves : ℕ → Mst Cid → Reading Cid (List (Leaf Cid) × Mst Cid)
  | 0, _ => Reader.tooDeep
  | depth + 1, t => do
    let (entries, t) ← t.entries
    let (found, entries) ← leavesUnder (collectLeaves depth) entries
    return (found, t.withEntries entries)

/-! ## Building -/

/-- Splits into everything below the key and everything above it, cutting through any subtree the
key falls inside. -/
def splitAround : ℕ → Mst Cid → Str → Reading Cid (Option (Mst Cid) × Option (Mst Cid))
  | 0, _, _ => Reader.tooDeep
  | depth + 1, t, key => do
    let (index, t) ← t.indexOf key
    let layer := t.layer?
    let entries ← t.takeEntries
    let left := entries.take index
    let right := entries.drop index
    let (left, right) ← match left.getLast? with
      | some (.tree subtree) => do
        let (below, above) ← splitAround depth subtree key
        pure (left.dropLast ++ toEntries below, toEntries above ++ right)
      | _ => pure (left, right)
    return (if left.isEmpty then none else some (fromEntries left layer),
      if right.isEmpty then none else some (fromEntries right layer))

/-- Joins two nodes of the same layer where every key on the right is above every key on the
left. -/
def appendMerge : ℕ → Mst Cid → Mst Cid → Reading Cid (Mst Cid)
  | 0, _, _ => Reader.tooDeep
  | depth + 1, t, other => do
    let (here, t) ← t.layer depth
    let (there, other) ← other.layer depth
    if here ≠ there then
      Routine.throw (.malformedNode "merged two nodes from different layers")
    else do
      let layer := t.layer?
      let left ← t.takeEntries
      let right ← other.takeEntries
      match left.getLast?, right with
      | some (.tree innerLeft), .tree innerRight :: right => do
        let inner ← appendMerge depth innerLeft innerRight
        return fromEntries (left.dropLast ++ .tree inner :: right) layer
      | _, _ => return fromEntries (left ++ right) layer

def intoParent (t : Mst Cid) : Except (RepoError Cid) (Mst Cid) :=
  match t.layer? with
  | none => .error (.malformedNode "raised a node of unknown layer")
  | some layer => .ok (fromEntries [.tree t] (some (layer + 1)))

/-- `map(into_parent).transpose()`. -/
def raise : Option (Mst Cid) → Except (RepoError Cid) (Option (Mst Cid))
  | none => .ok none
  | some t => return some (← intoParent t)

/-- Both halves of a split, raised a number of layers. -/
def raiseBoth : ℕ → Option (Mst Cid) → Option (Mst Cid) →
    Except (RepoError Cid) (Option (Mst Cid) × Option (Mst Cid))
  | 0, left, right => .ok (left, right)
  | n + 1, left, right => do raiseBoth n (← raise left) (← raise right)

def insert : ℕ → Mst Cid → Str → Cid → ℕ → Reading Cid (Mst Cid)
  | 0, _, _, _, _ => Reader.tooDeep
  | depth + 1, t, key, value, zeros => do
    let (layer, t) ← t.layer depth
    let leaf := Entry.leaf ⟨key, value⟩
    if layer < zeros then do
      -- The key sits above everything here, so the whole tree becomes the halves either side.
      let (left, right) ← splitAround depth t key
      let (left, right) ← Routine.ofExcept (raiseBoth (zeros - layer - 1) left right)
      return fromEntries (toEntries left ++ leaf :: toEntries right) (some zeros)
    else do
      let (index, t) ← t.indexOf key
      let entries ← t.takeEntries
      if zeros < layer then
        -- It belongs under the subtree to the left, or under a new one.
        match treeBefore entries index with
        | some (i, subtree) => do
          let grown ← insert depth subtree key value zeros
          return fromEntries (entries.set i (.tree grown)) (some layer)
        | none => do
          let grown ← insert depth (fromEntries [] (some (layer - 1))) key value zeros
          return fromEntries (entries.insertIdx index (.tree grown)) (some layer)
      else
        match leafAt entries index key, treeBefore entries index with
        | some _, _ => Routine.throw (.keyExists key)
        -- The subtree to the left spans the key, so the leaf is laid between its halves.
        | none, some (i, subtree) => do
          let (left, right) ← splitAround depth subtree key
          return fromEntries (entries.take i ++
            (toEntries left ++ leaf :: toEntries right) ++ entries.drop (i + 1)) (some layer)
        | none, none => return fromEntries (entries.insertIdx index leaf) (some layer)

/-- Adds a record at a key nothing holds yet. -/
def addIn (depth : ℕ) (t : Mst Cid) (key : Str) (value : Cid) : Reading Cid (Mst Cid) := do
  Routine.ofExcept (ensureValidKey key)
  insert depth t key value (leadingZeros Cid key)

/-- Points an existing key at a different record. -/
def updateIn : ℕ → Mst Cid → Str → Cid → Reading Cid (Mst Cid)
  | 0, _, _, _ => Reader.tooDeep
  | depth + 1, t, key, value => do
    Routine.ofExcept (ensureValidKey key)
    let (index, t) ← t.indexOf key
    let layer := t.layer?
    let entries ← t.takeEntries
    match leafAt entries index key, treeBefore entries index with
    | some _, _ => return fromEntries (entries.set index (.leaf ⟨key, value⟩)) layer
    | none, none => Routine.throw (.keyMissing key)
    | none, some (i, subtree) => do
      let subtree ← updateIn depth subtree key value
      return fromEntries (entries.set i (.tree subtree)) layer

/-- The two subtrees either side of an index, where both are there. -/
def treesAround (entries : List (Entry Cid)) (index : ℕ) : Option (Mst Cid × Mst Cid) :=
  match treeBefore entries index, entries[index + 1]? with
  | some (_, left), some (.tree right) => some (left, right)
  | _, _ => none

def deleteRecurse : ℕ → Mst Cid → Str → Reading Cid (Mst Cid)
  | 0, _, _ => Reader.tooDeep
  | depth + 1, t, key => do
    let (index, t) ← t.indexOf key
    let layer := t.layer?
    let entries ← t.takeEntries
    match leafAt entries index key, treeBefore entries index with
    | some _, _ => match treesAround entries index with
      | some (left, right) => do
        let merged ← appendMerge depth left right
        return fromEntries
          (entries.take (index - 1) ++ .tree merged :: entries.drop (index + 2)) layer
      | none => return fromEntries (entries.eraseIdx index) layer
    | none, none => Routine.throw (.keyMissing key)
    | none, some (i, subtree) => do
      let shrunk ← deleteRecurse depth subtree key
      let (inside, shrunk) ← shrunk.entries
      return fromEntries
        (if inside.isEmpty then entries.eraseIdx i else entries.set i (.tree shrunk)) layer

/-- Drops any node that has become a lone pointer at the node below it. -/
def trimTop : ℕ → Mst Cid → Reading Cid (Mst Cid)
  | 0, _ => Reader.tooDeep
  | depth + 1, t => do
    match ← t.fill.attempt with
    -- A top that cannot be read is a top that cannot be trimmed.
    | .error (.missingBlock _) => return t
    | .error e => Routine.throw e
    | .ok t => match t.entries? with
      | some [.tree subtree] => trimTop depth subtree
      | _ => return t

/-- Takes a record out, collapsing any node the removal leaves spare. -/
def deleteIn (depth : ℕ) (t : Mst Cid) (key : Str) : Reading Cid (Mst Cid) := do
  let t ← deleteRecurse depth t key
  trimTop depth t

/-! ## One traversal each -/

section

variable {σ : Type}

/-- The CID of this node, hashing it and everything under it that has changed. -/
def root (t : Mst Cid) : Reads Cid σ (Cid × Mst Cid) := Reader.new (rootIn maxDepth t)

def get (t : Mst Cid) (key : Str) : Reads Cid σ (Option Cid × Mst Cid) :=
  Reader.new (getIn maxDepth t key)

def cidsForPath (t : Mst Cid) (key : Str) : Reads Cid σ (List Cid × Mst Cid) :=
  Reader.new (cidsForPathIn maxDepth t key)

def add (t : Mst Cid) (key : Str) (value : Cid) : Reads Cid σ (Mst Cid) :=
  Reader.new (addIn maxDepth t key value)

def update (t : Mst Cid) (key : Str) (value : Cid) : Reads Cid σ (Mst Cid) :=
  Reader.new (updateIn maxDepth t key value)

def delete (t : Mst Cid) (key : Str) : Reads Cid σ (Mst Cid) := Reader.new (deleteIn maxDepth t key)

/-- Every record in the tree, in key order. -/
def leaves (t : Mst Cid) : Reads Cid σ (List (Leaf Cid) × Mst Cid) :=
  Reader.new (collectLeaves maxDepth t)

def unstoredBlocks (t : Mst Cid) : Reads Cid σ ((Cid × BlockMap Cid) × Mst Cid) :=
  Reader.new (unstoredBlocksIn maxDepth t)

end

end

end Mst

end Manapds
