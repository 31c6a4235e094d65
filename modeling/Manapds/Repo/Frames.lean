import Manapds.Repo.Walker

/-!
# Traversals with everything the source counts

The traversals of `Mst` again, this time with the depth counter that every frame takes a level of
and gives back when it ends, and with every index and every `unreachable!` that could be a panic.
`Meter` holds the counter and the CIDs the reader has been through, and beside them, as nothing the
source keeps, how deep the counter has been and which blocks the store has been asked for.

There is nothing here for the recursion to go down on but the counter, so a function takes `fuel`
and is `unfinished` without any. `Tracks` says that a traversal here comes to what the one of `Mst`
comes to, with no panic, nothing unfinished, no block asked for twice and no frame past the last.
-/

namespace Manapds

open QueryProgram

variable {Cid : Type}

/-- A reader in use. -/
structure Meter (Cid : Type) where
  depth : ℕ
  seen : List Cid
  /-- The deepest it has been. -/
  deepest : ℕ
  /-- The blocks it has asked for, the last one first. -/
  asked : List Cid

abbrev Traversal (Cid : Type) := Reads Cid (Meter Cid)

namespace Frames

section

variable {σ α : Type}

def panic (why : String) : Reads Cid σ α := Routine.throw (.panic why)

/-- `Vec::remove`. -/
def remove (xs : List α) (i : ℕ) : Reads Cid σ (α × List α) :=
  match xs[i]? with
  | some x => pure (x, xs.eraseIdx i)
  | none => panic "removal index should be below len"

/-- `Vec::insert`. -/
def insertAt (xs : List α) (i : ℕ) (x : α) : Reads Cid σ (List α) :=
  if i ≤ xs.length then pure (xs.insertIdx i x) else panic "insertion index should be at most len"

/-- `Vec::splice` of an empty range. -/
def splice (xs : List α) (i : ℕ) (ys : List α) : Reads Cid σ (List α) :=
  if i ≤ xs.length then pure (xs.take i ++ ys ++ xs.drop i) else panic "range end out of range"

/-- `Vec::split_off`. -/
def splitOff (xs : List α) (i : ℕ) : Reads Cid σ (List α × List α) :=
  if i ≤ xs.length then pure (xs.take i, xs.drop i) else panic "split index should be at most len"

/-- `let Entry::Tree(subtree) = … else { unreachable!() }`. -/
def expectTree : Option (Entry Cid) → Reads Cid σ (Mst Cid)
  | some (.tree subtree) => pure subtree
  | _ => panic "just matched a subtree"

/-- `index.checked_sub(1).filter(|&i| matches!(entries[i], Entry::Tree(_)))`. -/
def treeIndex (entries : List (Entry Cid)) : ℕ → Reads Cid σ (Option ℕ)
  | 0 => pure none
  | i + 1 => match entries[i]? with
    | some (.tree _) => pure (some i)
    | some (.leaf _) => pure none
    | none => panic "index out of bounds"

/-- `key.as_bytes()[prefix..]`. -/
def sliceFrom (key : Str) (i : ℕ) : Reads Cid σ Str :=
  if i ≤ key.length then pure (key.drop i) else panic "range start index out of range"

end

variable {α : Type} [Codec Cid] [DecidableEq Cid]

/-! ## Reading -/

/-- Reads a node, refusing one this traversal has already been through. -/
def node (cid : Cid) : Traversal Cid (NodeData Cid) := do
  let meter ← Routine.get
  if cid ∈ meter.seen then Routine.throw (.malformedNode "a node under itself")
  else do
    Routine.set { meter with seen := cid :: meter.seen, asked := cid :: meter.asked }
    match ← Routine.ask (StoreQuery.get cid) with
    | none => Routine.throw (.missingBlock cid)
    | some bytes => Routine.ofExcept (decodeNode bytes)

/-- Counts a level, and gives it back when the frame ends, however it ends. -/
def descend (frame : Traversal Cid α) : Traversal Cid α := do
  let meter ← Routine.get
  if maxDepth < meter.depth + 1 then
    Routine.throw (.malformedNode "a tree deeper than its keys allow")
  else do
    Routine.set { meter with
      depth := meter.depth + 1, deepest := max meter.deepest (meter.depth + 1) }
    let result ← frame.attempt
    let meter ← Routine.get
    Routine.set { meter with depth := meter.depth - 1 }
    Routine.ofExcept result

/-- Reads this node in, if it has not been read yet. -/
def fill (t : Mst Cid) : Traversal Cid (Mst Cid) :=
  match t.entries?, t.pointer? with
  | some _, _ => pure t
  | none, none => Routine.throw (.malformedNode "a node with neither contents nor CID")
  | none, some cid => do
    let data ← node cid
    let layer := data.e.head?.map fun entry => leadingZeros Cid entry.k
    let entries ← Routine.ofExcept (Mst.deserialize data layer)
    return t.withEntries entries

def entries (t : Mst Cid) : Traversal Cid (List (Entry Cid) × Mst Cid) := do
  let t ← fill t
  match t.entries? with
  | some entries => return (entries, t)
  | none => panic "just filled"

def takeEntries (t : Mst Cid) : Traversal Cid (List (Entry Cid)) := do
  let (entries, _) ← entries t
  return entries

def layerUnder (findLayer : Mst Cid → Traversal Cid (Option ℕ × Mst Cid)) :
    List (Entry Cid) → Traversal Cid (Option ℕ × List (Entry Cid))
  | [] => pure (none, [])
  | .leaf leaf :: rest => do
    let (layer, rest) ← layerUnder findLayer rest
    return (layer, .leaf leaf :: rest)
  | .tree subtree :: rest => do
    let (under, subtree) ← findLayer subtree
    match under with
    | some under => return (some (under + 1), .tree subtree :: rest)
    | none =>
      let (layer, rest) ← layerUnder findLayer rest
      return (layer, .tree subtree :: rest)

/-- The layer, from the first key at this level or under it. -/
def findLayer : ℕ → Mst Cid → Traversal Cid (Option ℕ × Mst Cid)
  | 0, _ => Routine.throw .unfinished
  | fuel + 1, t => descend <| match t.layer? with
    | some layer => pure (some layer, t)
    | none => do
      let (entries, t) ← entries t
      match Mst.leafLayer entries with
      | some layer => return (some layer, t.withLayer (some layer))
      | none =>
        let (layer, entries) ← layerUnder (findLayer fuel) entries
        return (layer, (t.withEntries entries).withLayer layer)

def layer (fuel : ℕ) (t : Mst Cid) : Traversal Cid (ℕ × Mst Cid) := do
  let (found, t) ← findLayer fuel t
  let layer := found.getD 0
  return (layer, t.withLayer (some layer))

/-- Where the first key at or above this one sits, or the end of the node. -/
def indexOf (t : Mst Cid) (key : Str) : Traversal Cid (ℕ × Mst Cid) := do
  let (entries, t) ← entries t
  return (Mst.position entries key, t)

/-! ## Hashing -/

def serializeFrom (root : Mst Cid → Traversal Cid (Cid × Mst Cid)) :
    Str → List (Entry Cid) → Traversal Cid (List (TreeEntry Cid) × List (Entry Cid))
  | _, [] => pure ([], [])
  | _, .tree _ :: _ => Routine.throw (.malformedNode "two subtrees side by side")
  | last, .leaf leaf :: .tree right :: rest => do
    let (cid, right) ← root right
    Routine.ofExcept (ensureValidKey leaf.key)
    let shared := sharedPrefix last leaf.key
    let suffix ← sliceFrom leaf.key shared
    let (stored, rest) ← serializeFrom root leaf.key rest
    return (⟨shared, suffix, leaf.value, some cid⟩ :: stored, .leaf leaf :: .tree right :: rest)
  | last, .leaf leaf :: rest => do
    Routine.ofExcept (ensureValidKey leaf.key)
    let shared := sharedPrefix last leaf.key
    let suffix ← sliceFrom leaf.key shared
    let (stored, rest) ← serializeFrom root leaf.key rest
    return (⟨shared, suffix, leaf.value, none⟩ :: stored, .leaf leaf :: rest)

def serialize (root : Mst Cid → Traversal Cid (Cid × Mst Cid)) :
    List (Entry Cid) → Traversal Cid (NodeData Cid × List (Entry Cid))
  | .tree subtree :: rest => do
    let (cid, subtree) ← root subtree
    let (stored, rest) ← serializeFrom root [] rest
    return (⟨some cid, stored⟩, .tree subtree :: rest)
  | entries => do
    let (stored, entries) ← serializeFrom root [] entries
    return (⟨none, stored⟩, entries)

/-- This node as it is stored, with every subtree's CID settled first. -/
def nodeData (root : Mst Cid → Traversal Cid (Cid × Mst Cid)) (t : Mst Cid) :
    Traversal Cid (NodeData Cid × Mst Cid) := do
  let (entries, t) ← entries t
  let (data, entries) ← serialize root entries
  return (data, t.withEntries entries)

/-- The CID of this node, hashing it and everything under it that has changed. -/
def rootIn : ℕ → Mst Cid → Traversal Cid (Cid × Mst Cid)
  | 0, _ => Routine.throw .unfinished
  | fuel + 1, t => descend <| match t.pointer? with
    | some cid => pure (cid, t)
    | none => do
      let (data, t) ← nodeData (rootIn fuel) t
      let bytes ← Routine.ofExcept (encode data.toIpld)
      return (cidFor bytes, t.withPointer (cidFor bytes))

def unstoredUnder (unstored : Mst Cid → Traversal Cid ((Cid × BlockMap Cid) × Mst Cid)) :
    BlockMap Cid → List (Entry Cid) → Traversal Cid (BlockMap Cid × List (Entry Cid))
  | blocks, [] => pure (blocks, [])
  | blocks, .leaf leaf :: rest => do
    let (blocks, rest) ← unstoredUnder unstored blocks rest
    return (blocks, .leaf leaf :: rest)
  | blocks, .tree subtree :: rest => do
    let ((_, under), subtree) ← unstored subtree
    let (blocks, rest) ← unstoredUnder unstored (blocks.merge under) rest
    return (blocks, .tree subtree :: rest)

/-- The blocks that would have to be written to store this tree, and the root they hang from. -/
def unstoredBlocksIn : ℕ → Mst Cid → Traversal Cid ((Cid × BlockMap Cid) × Mst Cid)
  | 0, _ => Routine.throw .unfinished
  | fuel + 1, t => descend do
    let (root, t) ← rootIn fuel t
    if ← Routine.ask (StoreQuery.contains root) then return ((root, ∅), t)
    else do
      let (data, t) ← nodeData (rootIn fuel) t
      let (_, blocks) ← Routine.ofExcept (BlockMap.add ∅ data.toIpld)
      let (entries, t) ← entries t
      let (blocks, entries) ← unstoredUnder (unstoredBlocksIn fuel) blocks entries
      return ((root, blocks), t.withEntries entries)

/-! ## Lookups -/

/-- The block for a record, or `none` if the tree does not hold that key. -/
def getIn : ℕ → Mst Cid → Str → Traversal Cid (Option Cid × Mst Cid)
  | 0, _, _ => Routine.throw .unfinished
  | fuel + 1, t, key => descend do
    let (index, t) ← indexOf t key
    let (entries, t) ← entries t
    match Mst.leafAt entries index key, Mst.treeBefore entries index with
    | some value, _ => return (some value, t)
    | none, some (i, subtree) =>
      let (found, subtree) ← getIn fuel subtree key
      return (found, t.withEntries (entries.set i (.tree subtree)))
    | none, none => return (none, t)

/-- Every node from here down to a key, and the record at it where the tree holds one. -/
def cidsForPathIn : ℕ → Mst Cid → Str → Traversal Cid (List Cid × Mst Cid)
  | 0, _, _ => Routine.throw .unfinished
  | fuel + 1, t, key => descend do
    let (root, t) ← rootIn fuel t
    let (index, t) ← indexOf t key
    let (entries, t) ← entries t
    match Mst.leafAt entries index key, Mst.treeBefore entries index with
    | some value, _ => return ([root, value], t)
    | none, some (i, subtree) =>
      let (cids, subtree) ← cidsForPathIn fuel subtree key
      return (root :: cids, t.withEntries (entries.set i (.tree subtree)))
    | none, none => return ([root], t)

def leavesUnder (collect : Mst Cid → Traversal Cid (List (Leaf Cid) × Mst Cid)) :
    List (Entry Cid) → Traversal Cid (List (Leaf Cid) × List (Entry Cid))
  | [] => pure ([], [])
  | .leaf leaf :: rest => do
    let (found, rest) ← leavesUnder collect rest
    return (leaf :: found, .leaf leaf :: rest)
  | .tree subtree :: rest => do
    let (under, subtree) ← collect subtree
    let (found, rest) ← leavesUnder collect rest
    return (under ++ found, .tree subtree :: rest)

def collectLeaves : ℕ → Mst Cid → Traversal Cid (List (Leaf Cid) × Mst Cid)
  | 0, _ => Routine.throw .unfinished
  | fuel + 1, t => descend do
    let (entries, t) ← entries t
    let (found, entries) ← leavesUnder (collectLeaves fuel) entries
    return (found, t.withEntries entries)

/-! ## Building -/

/-- Splits into everything below the key and everything above it, cutting through any subtree the
key falls inside. -/
def splitAround : ℕ → Mst Cid → Str → Traversal Cid (Option (Mst Cid) × Option (Mst Cid))
  | 0, _, _ => Routine.throw .unfinished
  | fuel + 1, t, key => descend do
    let (index, t) ← indexOf t key
    let layer := t.layer?
    let entries ← takeEntries t
    let (left, right) ← splitOff entries index
    let (left, right) ← match left.getLast? with
      | some (.tree _) => do
        let subtree ← expectTree left.getLast?
        let (below, above) ← splitAround fuel subtree key
        pure (left.dropLast ++ Mst.toEntries below, Mst.toEntries above ++ right)
      | _ => pure (left, right)
    return (if left.isEmpty then none else some (Mst.fromEntries left layer),
      if right.isEmpty then none else some (Mst.fromEntries right layer))

/-- Joins two nodes of the same layer where every key on the right is above every key on the
left. -/
def appendMerge : ℕ → Mst Cid → Mst Cid → Traversal Cid (Mst Cid)
  | 0, _, _ => Routine.throw .unfinished
  | fuel + 1, t, other => descend do
    let (here, t) ← layer fuel t
    let (there, other) ← layer fuel other
    if here ≠ there then
      Routine.throw (.malformedNode "merged two nodes from different layers")
    else do
      let layer := t.layer?
      let left ← takeEntries t
      let right ← takeEntries other
      match left.getLast?, right.head? with
      | some (.tree _), some (.tree _) => do
        let innerLeft ← expectTree left.getLast?
        let (first, right) ← remove right 0
        let innerRight ← expectTree (some first)
        let inner ← appendMerge fuel innerLeft innerRight
        return Mst.fromEntries (left.dropLast ++ [.tree inner] ++ right) layer
      | _, _ => return Mst.fromEntries (left ++ right) layer

def insert : ℕ → Mst Cid → Str → Cid → ℕ → Traversal Cid (Mst Cid)
  | 0, _, _, _, _ => Routine.throw .unfinished
  | fuel + 1, t, key, value, zeros => descend do
    let (layer, t) ← layer fuel t
    let leaf := Entry.leaf ⟨key, value⟩
    if layer < zeros then do
      let (left, right) ← splitAround fuel t key
      let (left, right) ← Routine.ofExcept (Mst.raiseBoth (zeros - layer - 1) left right)
      return Mst.fromEntries (Mst.toEntries left ++ leaf :: Mst.toEntries right) (some zeros)
    else do
      let (index, t) ← indexOf t key
      let entries ← takeEntries t
      let prev ← treeIndex entries index
      if zeros < layer then
        match prev with
        | some i => do
          let (removed, entries) ← remove entries i
          let subtree ← expectTree (some removed)
          let grown ← insert fuel subtree key value zeros
          let entries ← insertAt entries i (.tree grown)
          return Mst.fromEntries entries (some layer)
        | none => do
          let grown ← insert fuel (Mst.fromEntries [] (some (layer - 1))) key value zeros
          let entries ← insertAt entries index (.tree grown)
          return Mst.fromEntries entries (some layer)
      else
        match Mst.leafAt entries index key, prev with
        | some _, _ => Routine.throw (.keyExists key)
        | none, some i => do
          let (removed, entries) ← remove entries i
          let subtree ← expectTree (some removed)
          let (left, right) ← splitAround fuel subtree key
          let entries ← splice entries i (Mst.toEntries left ++ leaf :: Mst.toEntries right)
          return Mst.fromEntries entries (some layer)
        | none, none => do
          let entries ← insertAt entries index leaf
          return Mst.fromEntries entries (some layer)

/-- Adds a record at a key nothing holds yet. -/
def addIn (fuel : ℕ) (t : Mst Cid) (key : Str) (value : Cid) : Traversal Cid (Mst Cid) := do
  Routine.ofExcept (ensureValidKey key)
  insert fuel t key value (leadingZeros Cid key)

/-- Points an existing key at a different record. -/
def updateIn : ℕ → Mst Cid → Str → Cid → Traversal Cid (Mst Cid)
  | 0, _, _, _ => Routine.throw .unfinished
  | fuel + 1, t, key, value => descend do
    Routine.ofExcept (ensureValidKey key)
    let (index, t) ← indexOf t key
    let layer := t.layer?
    let entries ← takeEntries t
    match Mst.leafAt entries index key with
    | some _ => return Mst.fromEntries (entries.set index (.leaf ⟨key, value⟩)) layer
    | none =>
      match ← treeIndex entries index with
      | none => Routine.throw (.keyMissing key)
      | some i => do
        let (removed, entries) ← remove entries i
        let subtree ← expectTree (some removed)
        let subtree ← updateIn fuel subtree key value
        let entries ← insertAt entries i (.tree subtree)
        return Mst.fromEntries entries layer

/-- Whether the leaf at an index has a subtree on either side of it. -/
def between {σ : Type} (entries : List (Entry Cid)) (index : ℕ) : Reads Cid σ Bool := do
  match ← treeIndex entries index, entries[index + 1]? with
  | some _, some (.tree _) => return true
  | _, _ => return false

def deleteRecurse : ℕ → Mst Cid → Str → Traversal Cid (Mst Cid)
  | 0, _, _ => Routine.throw .unfinished
  | fuel + 1, t, key => descend do
    let (index, t) ← indexOf t key
    let layer := t.layer?
    let entries ← takeEntries t
    match Mst.leafAt entries index key with
    | some _ =>
      if ← between entries index then do
        let (right, entries) ← remove entries (index + 1)
        let right ← expectTree (some right)
        let (_, entries) ← remove entries index
        let (left, entries) ← remove entries (index - 1)
        let left ← expectTree (some left)
        let merged ← appendMerge fuel left right
        let entries ← insertAt entries (index - 1) (.tree merged)
        return Mst.fromEntries entries layer
      else do
        let (_, entries) ← remove entries index
        return Mst.fromEntries entries layer
    | none =>
      match ← treeIndex entries index with
      | none => Routine.throw (.keyMissing key)
      | some i => do
        let (removed, entries) ← remove entries i
        let subtree ← expectTree (some removed)
        let shrunk ← deleteRecurse fuel subtree key
        let (inside, shrunk) ← Frames.entries shrunk
        if inside.isEmpty then return Mst.fromEntries entries layer
        else do
          let entries ← insertAt entries i (.tree shrunk)
          return Mst.fromEntries entries layer

/-- Drops any node that has become a lone pointer at the node below it. -/
def trimTop : ℕ → Mst Cid → Traversal Cid (Mst Cid)
  | 0, _ => Routine.throw .unfinished
  | fuel + 1, t => descend do
    match ← (fill t).attempt with
    | .error (.missingBlock _) => return t
    | .error e => Routine.throw e
    | .ok t => match t.entries? with
      | some [.tree _] => do
        let entries ← takeEntries t
        let (removed, _) ← remove entries 0
        let subtree ← expectTree (some removed)
        trimTop fuel subtree
      | _ => return t

/-- Takes a record out, collapsing any node the removal leaves spare. -/
def deleteIn (fuel : ℕ) (t : Mst Cid) (key : Str) : Traversal Cid (Mst Cid) := do
  let t ← deleteRecurse fuel t key
  trimTop fuel t

/-- `Level::of`, beside the node it left read. -/
def levelOf (fuel : ℕ) (t : Mst Cid) : Traversal Cid (Level Cid × Mst Cid) := do
  let (layer, t) ← layer fuel t
  let (entries, t) ← entries t
  return (⟨entries, 0, layer⟩, t)

end Frames

end Manapds
