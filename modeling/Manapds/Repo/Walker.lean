import Manapds.Lib.SetDiff
import Manapds.Repo.Mst

/-!
# Walking two trees side by side

A walker is a cursor over a tree, which steps past a subtree or down into it. Each walker reads
through a reader of its own, so a node both trees hold is not the repeat a single traversal
refuses. `Mst.dropped` takes one walker over the tree before and one over the tree after, and
comes back with the blocks only the first one reaches.

The walk is a loop of the source with no bound of its own, so here it is given a number of rounds.
-/

namespace Manapds

open QueryProgram SetDiff

variable {Cid : Type}

/-- What a walker is on. -/
inductive At where
  | leaf
  | tree
deriving DecidableEq

/-- Where a walker is: on the root, inside the node its stack ends at, or past the end. -/
inductive Cursor (Cid : Type) where
  | root (root : Mst Cid)
  | node
  | done

/-- One node a walk is inside, and how far through it the cursor is. -/
structure Level (Cid : Type) where
  entries : List (Entry Cid)
  index : ℕ
  layer : ℕ

namespace Level

/-- What the cursor is on, inside this node. -/
def entry (level : Level Cid) : Option (Entry Cid) := level.entries[level.index]?

/-- The node with the subtree under the cursor read further. -/
def setSubtree (level : Level Cid) (subtree : Mst Cid) : Level Cid :=
  { level with entries := level.entries.set level.index (.tree subtree) }

/-- The stack once the cursor is past what it was on, every node it is through with popped. -/
def past : List (Level Cid) → List (Level Cid)
  | [] => []
  | level :: rest =>
    if level.index + 1 < level.entries.length then { level with index := level.index + 1 } :: rest
    else past rest

end Level

/-- The stack is innermost node first. -/
structure Walker (Cid : Type) where
  seen : List Cid
  stack : List (Level Cid)
  cursor : Cursor Cid
  /-- The layer the root stands at, which is one above what it holds. -/
  above : ℕ

/-- A traversal through a reader that has been in use, and what the reader has seen since. -/
def Reader.resume {σ α : Type} (seen : List Cid) (traversal : Reading Cid α) :
    Reads Cid σ (α × List Cid) := fun s =>
  (traversal seen).bind fun p => .done (p.1.map fun a => (a, p.2), s)

theorem Reader.exec_resume_ok {σ α : Type} {env : ∀ q : StoreQuery Cid, q.Answer}
    {traversal : Reading Cid α} {seen seen' : List Cid} {a : α}
    (h : Routine.exec env traversal seen = (.ok a, seen')) (s : σ) :
    Routine.exec env (Reader.resume seen traversal) s = (.ok (a, seen'), s) := by
  rw [Routine.exec] at h
  rw [Routine.exec, Reader.resume, Program.run_bind, h]
  rfl

namespace Walker

def entry (w : Walker Cid) : Option (Entry Cid) := w.stack.head?.bind Level.entry

/-- What the cursor is on, or `none` once the walk is over. -/
def at? (w : Walker Cid) : Option At :=
  match w.cursor with
  | .root _ => some .tree
  | .node => match w.entry with
    | some (.leaf _) => some .leaf
    | some (.tree _) => some .tree
    | none => none
  | .done => none

/-- The key under the cursor, where it is on a leaf. -/
def key (w : Walker Cid) : Option Str :=
  match w.entry with
  | some (.leaf leaf) => some leaf.key
  | _ => none

/-- The layer of the node being walked. -/
def layer (w : Walker Cid) : ℕ :=
  match w.stack with
  | [] => w.above
  | level :: _ => level.layer

/-- Moves past what the cursor is on, subtree and all. -/
def stepOver (w : Walker Cid) : Walker Cid :=
  match w.cursor with
  | .done => w
  | .root _ => { w with cursor := .done }
  | .node => match Level.past w.stack with
    | [] => { w with stack := [], cursor := .done }
    | level :: rest => { w with stack := level :: rest }

variable [Codec Cid] [DecidableEq Cid] {σ : Type}

def new (root : Mst Cid) : Reads Cid σ (Walker Cid) := do
  let ((layer, root), seen) ← Reader.resume [] (root.layer maxDepth)
  return ⟨seen, [], .root root, layer + 1⟩

/-- The block under the cursor. -/
def cid (w : Walker Cid) : Reads Cid σ (Cid × Walker Cid) :=
  match w.cursor with
  | .root root => do
    let ((cid, root), seen) ← Reader.resume w.seen (root.rootIn maxDepth)
    return (cid, { w with seen, cursor := .root root })
  | .done => Routine.throw (.malformedNode "a walk past its last entry")
  | .node => match w.stack with
    | [] => Routine.throw (.malformedNode "a walk inside no node")
    | level :: rest => match level.entry with
      | some (.leaf leaf) => pure (leaf.value, w)
      | some (.tree subtree) => do
        let ((cid, subtree), seen) ← Reader.resume w.seen (subtree.rootIn maxDepth)
        return (cid, { w with seen, stack := level.setSubtree subtree :: rest })
      | none => Routine.throw (.malformedNode "a walk past its last entry")

/-- `Level::of`, beside the node it left read. -/
def levelOf (node : Mst Cid) : Reading Cid (Level Cid × Mst Cid) := do
  let (layer, node) ← node.layer maxDepth
  let (entries, node) ← node.entries
  return (⟨entries, 0, layer⟩, node)

/-- Onto the first entry of a node just stepped into, or past the node where it has none. -/
def inside (w : Walker Cid) : Walker Cid :=
  let w := { w with cursor := .node }
  match w.entry with
  | some _ => w
  | none => w.stepOver

/-- Moves down into the subtree the cursor is on. -/
def stepInto (w : Walker Cid) : Reads Cid σ (Walker Cid) :=
  if maxDepth ≤ w.stack.length then
    Routine.throw (.malformedNode "a tree deeper than its keys allow")
  else match w.cursor with
    | .done => pure w
    | .root root => do
      let ((level, _), seen) ← Reader.resume w.seen (levelOf root)
      return inside { w with seen, stack := level :: w.stack }
    | .node => match w.stack with
      | [] => Routine.throw (.malformedNode "a walk inside no node")
      | level :: rest => match level.entry with
        | some (.tree subtree) => do
          let ((under, subtree), seen) ← Reader.resume w.seen (levelOf subtree)
          return inside { w with seen, stack := under :: level.setSubtree subtree :: rest }
        | _ => Routine.throw (.malformedNode "a walk stepping into a leaf")

/-- Moves on, into the subtree the cursor is on where there is one. -/
def advance (w : Walker Cid) : Reads Cid σ (Walker Cid) :=
  if w.at? = some .leaf then pure w.stepOver else w.stepInto

end Walker

/-- `Option<&str>` in its order: nothing is before anything. -/
def keyBefore : Option Str → Option Str → Bool
  | none, some _ => true
  | some a, some b => a < b
  | _, none => false

namespace Mst

variable [Codec Cid] [DecidableEq Cid] {σ : Type}

/-- What one step takes out: the block under the cursor, which `move` then leaves behind. -/
def removing (move : Walker Cid → Reads Cid σ (Walker Cid)) (left : Walker Cid) (diff : Diff Cid) :
    Reads Cid σ (Walker Cid × Diff Cid) := do
  let (cid, left) ← left.cid
  let left ← move left
  return (left, diff.remove cid)

def adding (move : Walker Cid → Reads Cid σ (Walker Cid)) (right : Walker Cid) (diff : Diff Cid) :
    Reads Cid σ (Walker Cid × Diff Cid) := do
  let (cid, right) ← right.cid
  let right ← move right
  return (right, diff.add cid)

/-- One round of the walk, where neither walker is past its end. -/
def droppedRound (here there : At) (left right : Walker Cid) (diff : Diff Cid) :
    Reads Cid σ (Walker Cid × Walker Cid × Diff Cid) := do
  if here = .leaf ∧ there = .leaf then
    if left.key = right.key then
      let (before, left) ← left.cid
      let (after, right) ← right.cid
      let diff := if before ≠ after then (diff.remove before).add after else diff
      return (← left.advance, ← right.advance, diff)
    else if keyBefore left.key right.key then
      let (left, diff) ← removing Walker.advance left diff
      return (left, right, diff)
    else
      let (right, diff) ← adding Walker.advance right diff
      return (left, right, diff)
  -- Entries only compare on one layer, so the higher walker steps down, or the lower one moves up
  -- where it cannot.
  else if right.layer < left.layer then
    if here = .leaf then
      let (right, diff) ← adding Walker.advance right diff
      return (left, right, diff)
    else
      let (left, diff) ← removing Walker.stepInto left diff
      return (left, right, diff)
  else if left.layer < right.layer then
    if there = .leaf then
      let (left, diff) ← removing Walker.advance left diff
      return (left, right, diff)
    else
      let (right, diff) ← adding Walker.stepInto right diff
      return (left, right, diff)
  else if here = .tree ∧ there = .tree then
    let (before, left) ← left.cid
    let (after, right) ← right.cid
    -- Whatever hashes the same holds the same, so a subtree the revision left alone is stepped
    -- past unread.
    if before = after then return (left.stepOver, right.stepOver, diff)
    else return (← left.stepInto, ← right.stepInto, (diff.remove before).add after)
  else if here = .tree then
    let (left, diff) ← removing Walker.stepInto left diff
    return (left, right, diff)
  else
    let (right, diff) ← adding Walker.stepInto right diff
    return (left, right, diff)

def droppedFrom : ℕ → Walker Cid → Walker Cid → Diff Cid → Reads Cid σ (List Cid)
  | 0, _, _, _ => Routine.throw .unfinished
  | rounds + 1, left, right, diff => match left.at?, right.at? with
    | none, none => return diff.removed
    | some _, none => do
      let (left, diff) ← removing Walker.advance left diff
      droppedFrom rounds left right diff
    | none, some _ => do
      let (right, diff) ← adding Walker.advance right diff
      droppedFrom rounds left right diff
    | some here, some there => do
      let (left, right, diff) ← droppedRound here there left right diff
      droppedFrom rounds left right diff

/-- The blocks the tree before this one reached and this one does not. -/
def dropped (rounds : ℕ) (t prev : Mst Cid) : Reads Cid σ (List Cid) := do
  let left ← Walker.new prev
  let right ← Walker.new t
  droppedFrom rounds left right .empty

end Mst

end Manapds
