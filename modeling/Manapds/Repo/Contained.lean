import Manapds.Repo.Dropped
import Manapds.Repo.Hostile

/-!
# Every traversal ends

What is ahead of a walker is what it has in memory past its cursor. Each move takes one from that
and from the blocks still unread, so a walk over two trees ends whatever their nodes say.
-/

namespace Manapds

open QueryProgram SetDiff Hostile

variable {Cid : Type}

namespace Level

/-- What is past the cursor, in the nodes a walk is to come back to. -/
def behind : List (Level Cid) → ℕ
  | [] => 0
  | level :: rest => Entry.weights 1 1 (level.entries.drop (level.index + 1)) + behind rest

/-- What is under the cursor and past it. -/
def ahead : List (Level Cid) → ℕ
  | [] => 0
  | level :: rest => Entry.weights 1 1 (level.entries.drop level.index) + behind rest

theorem ahead_past (stack : List (Level Cid)) : ahead (past stack) ≤ behind stack := by
  induction stack with
  | nil => exact le_rfl
  | cons level rest ih =>
    rw [past]
    split_ifs with hindex
    · exact le_rfl
    · exact le_trans ih (by simp [behind])

theorem length_past (stack : List (Level Cid)) : (past stack).length ≤ stack.length := by
  induction stack with
  | nil => exact le_rfl
  | cons level rest ih =>
    rw [past]
    split_ifs
    · simp
    · exact le_trans ih (by simp)

end Level

namespace Walker

def ahead (w : Walker Cid) : ℕ :=
  match w.cursor with
  | .root root => 1 + root.weight 1 1
  | .node => Level.ahead w.stack
  | .done => 0

/-- No block read twice, and no more levels than there may be. -/
structure Sound (w : Walker Cid) : Prop where
  nodup : w.seen.Nodup
  height : w.stack.length ≤ maxDepth
  root : ∀ root, w.cursor = .root root → w.stack = []

theorem ahead_stepOver_node {w : Walker Cid} (h : w.cursor = .node) :
    w.stepOver.ahead ≤ Level.behind w.stack ∧ w.stepOver.seen = w.seen ∧
      w.stepOver.stack.length ≤ w.stack.length ∧ ∀ root, w.stepOver.cursor ≠ .root root := by
  have hahead := Level.ahead_past w.stack
  have hlength := Level.length_past w.stack
  unfold stepOver
  rw [h]
  dsimp only
  split
  · exact ⟨Nat.zero_le _, rfl, Nat.zero_le _, fun _ h => by cases h⟩
  · next level rest hpast =>
    rw [hpast] at hahead hlength
    exact ⟨hahead, rfl, hlength, fun _ h => by cases h⟩

/-- On an entry, the cursor has that ahead of it and what is behind. -/
theorem ahead_of_entry {w : Walker Cid} {level : Level Cid} {rest : List (Level Cid)} {e : Entry Cid}
    (hc : w.cursor = .node) (hs : w.stack = level :: rest) (he : level.entry = some e) :
    w.ahead = e.weight 1 1 + Level.behind w.stack := by
  rw [ahead, hc, hs]
  dsimp only
  rw [Level.ahead, drop_of_getElem? he, Level.behind, Entry.weights]
  omega

theorem exists_entry_of_at {w : Walker Cid} {x : At} (hc : w.cursor = .node) (h : w.at? = some x) :
    ∃ level rest e, w.stack = level :: rest ∧ level.entry = some e ∧
      (x = .tree ↔ ∃ t, e = .tree t) := by
  rw [at?, hc] at h
  dsimp only at h
  unfold entry at h
  cases hs : w.stack with
  | nil => simp [hs] at h
  | cons level rest =>
    rw [hs, List.head?_cons, Option.bind_some] at h
    cases he : level.entry with
    | none => simp [he] at h
    | some e =>
      rw [he] at h
      refine ⟨level, rest, e, rfl, he, ?_⟩
      cases e with
      | leaf leaf =>
        cases h
        simp
      | tree t =>
        cases h
        simp

/-- Past the cursor of a walker that has just stepped down there is no more than in the node. -/
theorem ahead_inside (w : Walker Cid) : (inside w).ahead ≤ Level.ahead w.stack ∧
    (inside w).seen = w.seen ∧ (inside w).stack.length ≤ w.stack.length ∧
      ∀ root, (inside w).cursor ≠ .root root := by
  unfold inside
  dsimp only
  split
  · exact ⟨le_rfl, rfl, le_rfl, fun _ h => by cases h⟩
  · obtain ⟨hbehind, hseen, hheight, hroot⟩ :=
      ahead_stepOver_node (w := { w with cursor := .node }) rfl
    refine ⟨le_trans hbehind ?_, hseen, hheight, hroot⟩
    dsimp only
    cases w.stack with
    | nil => exact le_rfl
    | cons level rest =>
      have hdrop : level.entries.drop level.index =
          (level.entries.drop level.index).take 1 ++ level.entries.drop (level.index + 1) := by
        rw [← List.drop_drop, List.take_append_drop]
      rw [Level.behind, Level.ahead, hdrop, Entry.weights_append]
      omega

/-- A move that takes `k` from what is ahead and from the blocks unread. -/
structure Steps [Codec Cid] (st : Cid → Option Bytes) (k : ℕ) (w w' : Walker Cid) : Prop where
  sound : w'.Sound
  ahead : w'.ahead + k + Hostile.read 1 1 st w.seen ≤ w.ahead + Hostile.read 1 1 st w'.seen

variable [Codec Cid] {st : Cid → Option Bytes} {w : Walker Cid}

theorem Steps.refl (h : w.Sound) : Steps st 0 w w := ⟨h, le_rfl⟩

theorem Steps.trans {j k : ℕ} {w₁ w₂ w₃ : Walker Cid} (h : Steps st j w₁ w₂)
    (h' : Steps st k w₂ w₃) : Steps st (j + k) w₁ w₃ := by
  have hfirst := h.ahead
  have hsecond := h'.ahead
  exact ⟨h'.sound, by omega⟩

theorem steps_stepOver {x : At} (h : w.Sound) (hat : w.at? = some x) : Steps st 1 w w.stepOver := by
  cases hc : w.cursor with
  | done => simp [at?, hc] at hat
  | root root =>
    have hover : w.stepOver = { w with cursor := .done } := by rw [stepOver, hc]
    rw [hover]
    refine ⟨⟨h.nodup, h.height, fun _ h => by cases h⟩, ?_⟩
    simp only [ahead, hc]
    omega
  | node =>
    obtain ⟨level, rest, e, hs, he, -⟩ := exists_entry_of_at hc hat
    obtain ⟨hbehind, hseen, hheight, hroot⟩ := ahead_stepOver_node hc
    refine ⟨⟨hseen ▸ h.nodup, hheight.trans h.height, fun _ h => absurd h (hroot _)⟩, ?_⟩
    have hpos : 1 ≤ e.weight 1 1 := by
      cases e <;> simp [Entry.weight]
    rw [ahead_of_entry hc hs he, hseen]
    omega

/-- Down into a subtree, which was one of those ahead. -/
theorem steps_inside {seen : List Cid} {level : Level Cid} {stack : List (Level Cid)}
    {subtree read : Mst Cid} {n above : ℕ} (hnodup : seen.Nodup)
    (hheight : stack.length < maxDepth)
    (hweighs : NodeWeighs 1 1 (level.entries, read) n ∧ level.index = 0)
    (hle : n + Hostile.read 1 1 st w.seen ≤ subtree.weight 1 1 + Hostile.read 1 1 st seen)
    (hahead : w.ahead = 1 + subtree.weight 1 1 + Level.behind stack) :
    Steps st 1 w (inside ⟨seen, level :: stack, .node, above⟩) := by
  obtain ⟨hinside, hseen, hlength, hroot⟩ :=
    ahead_inside (⟨seen, level :: stack, .node, above⟩ : Walker Cid)
  obtain ⟨⟨hentries, -⟩, hindex⟩ := hweighs
  dsimp only at hinside hseen hlength hentries
  refine ⟨⟨?_, ?_, fun _ h => absurd h (hroot _)⟩, ?_⟩
  · rw [hseen]
    exact hnodup
  · rw [List.length_cons] at hlength
    omega
  · rw [Level.ahead, hindex, List.drop_zero, hentries] at hinside
    rw [hseen]
    omega

end Walker

/-! ## What a walk asks its readers for -/

/-- However it ends, it is not a panic nor cut short, and a value it ends with has `Q`. -/
def Ends {σ α : Type} (env : ∀ q : StoreQuery Cid, q.Answer) (Q : α → Prop) (f : Reads Cid σ α) :
    Prop :=
  ∀ s, Answered (Routine.exec env f s).1 ∧ ∀ x, (Routine.exec env f s).1 = .ok x → Q x

section

variable {σ α β : Type} {env : ∀ q : StoreQuery Cid, q.Answer} {Q : α → Prop} {Q' : β → Prop}

theorem ends_pure {x : α} (h : Q x) : Ends env Q (pure x : Reads Cid σ α) := by
  intro s
  refine ⟨answered_ok x, ?_⟩
  rintro _ ⟨⟩
  exact h

theorem ends_throw {e : RepoError Cid} (h : e.Ordinary) :
    Ends env Q (Routine.throw e : Reads Cid σ α) := by
  intro s
  refine ⟨answered_error h, ?_⟩
  rintro _ ⟨⟩

theorem Ends.bind {f : Reads Cid σ α} {g : α → Reads Cid σ β} (hf : Ends env Q f)
    (hg : ∀ x, Q x → Ends env Q' (g x)) : Ends env Q' (f >>= g) := by
  intro s
  obtain ⟨hanswered, hQ⟩ := hf s
  rw [Routine.exec_bind]
  generalize Routine.exec env f s = run at hanswered hQ
  obtain ⟨r, s'⟩ := run
  cases r with
  | ok x => exact hg x (hQ x rfl) s'
  | error e =>
    refine ⟨hanswered.cast, ?_⟩
    rintro _ ⟨⟩

theorem Ends.of_exec {f : Reads Cid σ α} {x : α} {s s' : σ} (h : Ends env Q f)
    (hx : Routine.exec env f s = (.ok x, s')) : Q x := (h s).2 x (by rw [hx])

theorem Ends.mono {f : Reads Cid σ α} {Q₂ : α → Prop} (h : Ends env Q f) (hQ : ∀ x, Q x → Q₂ x) :
    Ends env Q₂ f := fun s => ⟨(h s).1, fun x hx => hQ x ((h s).2 x hx)⟩

theorem Reader.exec_resume (env : ∀ q : StoreQuery Cid, q.Answer) (seen : List Cid)
    (traversal : Reading Cid α) (s : σ) :
    Routine.exec env (Reader.resume seen traversal) s =
      ((Routine.exec env traversal seen).1.map fun x => (x, (Routine.exec env traversal seen).2),
        s) := by
  rw [Routine.exec, Reader.resume, Program.run_bind]
  rfl

variable [Codec Cid] {st : Cid → Option Bytes} {before : ℕ} {weighs : α → ℕ → Prop} {post : α → Prop}

/-- A reader picked up where it was left: nothing it saw before is read again. -/
theorem ends_resume {counted : Traversal Cid α} {plain : Reading Cid α} {seen : List Cid}
    (hnodup : seen.Nodup) (htracks : Frames.Tracks maxDepth post counted plain)
    (hweighs : Weighs 1 1 st before weighs plain) :
    Ends (Store.answer st) (fun p => p.2.Nodup ∧
        ∃ n, weighs p.1 n ∧ n + Hostile.read 1 1 st seen ≤ before + Hostile.read 1 1 st p.2)
      (Reader.resume seen plain : Reads Cid σ _) := by
  intro s
  have hfine : Meter.Fine (⟨0, seen, 0, seen⟩ : Meter Cid) := ⟨rfl, hnodup, Nat.zero_le _⟩
  have hrun := htracks (Store.answer st) ⟨0, seen, 0, seen⟩ hfine (Nat.zero_add _)
  rw [Reader.exec_resume]
  dsimp only at hrun ⊢
  have hresult := hrun.result
  have hanswered := hrun.answered
  have hdone : (Routine.exec (Store.answer st) plain seen).2.Nodup := by
    rw [← hrun.seen, ← hrun.fine.asked]
    exact hrun.fine.nodup
  rw [hresult] at hanswered
  cases hplain : Routine.exec (Store.answer st) plain seen with
  | mk r seen' =>
    rw [hplain] at hanswered hdone
    cases r with
    | error e =>
      refine ⟨hanswered.cast, ?_⟩
      rintro _ ⟨⟩
    | ok x =>
      refine ⟨answered_ok _, ?_⟩
      rintro _ ⟨⟩
      obtain ⟨n, hn, hle⟩ := hweighs seen x seen' hplain
      exact ⟨hdone, n, hn, hle⟩

end

namespace Walker

variable {σ : Type} [Codec Cid] [DecidableEq Cid] {st : Cid → Option Bytes} {w : Walker Cid}

/-- As much fuel as the counter can ask for. -/
def fuel : ℕ := maxDepth + 1

theorem lt_fuel : maxDepth < fuel := Nat.lt_succ_self _

theorem ends_new (root : Cid) : Ends (Store.answer st)
    (fun w => w.Sound ∧ w.ahead ≤ 1 + Hostile.read 1 1 st w.seen)
    (new (Mst.load root) : Reads Cid σ _) := by
  refine (ends_resume List.nodup_nil (Frames.layer_tracks lt_fuel _)
    (weighs_layer maxDepth (Mst.load root))).bind fun p hp => ?_
  obtain ⟨hnodup, n, hn, hle⟩ := hp
  refine ends_pure ⟨⟨hnodup, Nat.zero_le _, fun _ _ => rfl⟩, ?_⟩
  simp only [Mst.weight_load, Hostile.read, List.map_nil, List.sum_nil] at hle
  simp only [ahead, Hostile.read, hn]
  omega

theorem ends_cid (h : w.Sound) : Ends (Store.answer st)
    (fun p => Steps st 0 w p.2 ∧ p.2.at? = w.at?) (w.cid : Reads Cid σ _) := by
  unfold cid
  cases hc : w.cursor with
  | done => exact ends_throw trivial
  | root root =>
    refine (ends_resume h.nodup (Frames.rootIn_tracks lt_fuel root)
      (weighs_rootIn maxDepth root)).bind fun p hp => ?_
    obtain ⟨hnodup, n, hn, hle⟩ := hp
    refine ends_pure ⟨⟨⟨hnodup, h.height, fun _ _ => h.root root hc⟩, ?_⟩, ?_⟩
    · simp only [ahead, hc, hn]
      omega
    · simp [at?, hc]
  | node =>
    dsimp only
    cases hs : w.stack with
    | nil => exact ends_throw trivial
    | cons level rest =>
      cases he : level.entry with
      | none =>
        dsimp only
        rw [he]
        exact ends_throw trivial
      | some e =>
        dsimp only
        rw [he]
        cases e with
        | leaf leaf => exact ends_pure ⟨Steps.refl h, rfl⟩
        | tree subtree =>
          refine (ends_resume h.nodup (Frames.rootIn_tracks lt_fuel subtree)
            (weighs_rootIn maxDepth subtree)).bind fun p hp => ?_
          obtain ⟨⟨cid, read⟩, seen⟩ := p
          obtain ⟨hnodup, n, hn, hle⟩ := hp
          have hread := Level.entry_setSubtree he read
          have hahead : ahead ⟨seen, level.setSubtree read :: rest, .node, w.above⟩ =
              (Entry.tree read).weight 1 1 + Level.behind (level.setSubtree read :: rest) :=
            ahead_of_entry (w := ⟨seen, level.setSubtree read :: rest, .node, w.above⟩) rfl rfl
              hread
          have hsame : Level.behind (level.setSubtree read :: rest) =
              Level.behind (level :: rest) :=
            congrArg (Entry.weights 1 1 · + Level.behind rest)
              (Level.drop_setSubtree level read)
          have hheight := h.height
          rw [hs] at hheight
          dsimp only at hn hle hnodup
          refine ends_pure ⟨⟨⟨hnodup, hheight, fun _ h => by cases h⟩, ?_⟩, ?_⟩
          · dsimp only
            rw [hahead, ahead_of_entry hc hs he, hs, hsame]
            simp only [Entry.weight, hn]
            omega
          · simp only [at?, hc, entry, hs, List.head?_cons, Option.bind_some, hread, he]

theorem ends_stepInto (h : w.Sound) (hat : w.at? = some .tree) :
    Ends (Store.answer st) (Steps st 1 w) (w.stepInto : Reads Cid σ _) := by
  unfold stepInto
  split_ifs with hfull
  · exact ends_throw trivial
  · have hheight : w.stack.length < maxDepth := by omega
    cases hc : w.cursor with
    | done => simp [at?, hc] at hat
    | root root =>
      refine (ends_resume h.nodup (Frames.levelOf_tracks lt_fuel root)
        (weighs_levelOf root)).bind fun p hp => ?_
      obtain ⟨hnodup, n, hn, hle⟩ := hp
      refine ends_pure (steps_inside hnodup hheight hn hle ?_)
      rw [h.root root hc, ahead, hc]
      simp [Level.behind]
    | node =>
      obtain ⟨level, rest, e, hs, he, htree⟩ := exists_entry_of_at hc hat
      obtain ⟨subtree, rfl⟩ := htree.mp rfl
      rw [hs] at hheight
      dsimp only
      rw [hs]
      dsimp only
      rw [he]
      refine (ends_resume h.nodup (Frames.levelOf_tracks lt_fuel subtree)
        (weighs_levelOf subtree)).bind fun p hp => ?_
      obtain ⟨hnodup, n, hn, hle⟩ := hp
      refine ends_pure (steps_inside hnodup hheight hn hle ?_)
      have hsame : Level.behind (level.setSubtree p.1.2 :: rest) = Level.behind (level :: rest) :=
        congrArg (Entry.weights 1 1 · + Level.behind rest) (Level.drop_setSubtree level p.1.2)
      rw [hsame, ahead_of_entry hc hs he, hs, Entry.weight]

theorem ends_advance {x : At} (h : w.Sound) (hat : w.at? = some x) :
    Ends (Store.answer st) (Steps st 1 w) (w.advance : Reads Cid σ _) := by
  unfold advance
  cases x with
  | leaf =>
    rw [if_pos hat]
    exact ends_pure (steps_stepOver h hat)
  | tree =>
    rw [if_neg (by simp [hat])]
    exact ends_stepInto h hat

end Walker

namespace Mst

variable {σ : Type} [Codec Cid] {st : Cid → Option Bytes} {left right : Walker Cid}
  {move : Walker Cid → Reads Cid σ (Walker Cid)}

/-- A round moves at least one of the two walkers. -/
def Round (st : Cid → Option Bytes) (left right left' right' : Walker Cid) : Prop :=
  ∃ j k, 1 ≤ j + k ∧ Walker.Steps st j left left' ∧ Walker.Steps st k right right'

theorem ends_left {f : Reads Cid σ (Walker Cid × Diff Cid)} (hr : right.Sound)
    (h : Ends (Store.answer st) (fun p => Walker.Steps st 1 left p.1) f) :
    Ends (Store.answer st) (fun p => Round st left right p.1 p.2.1)
      (f >>= fun p => pure (p.1, right, p.2)) :=
  h.bind fun _ hp => ends_pure ⟨1, 0, le_rfl, hp, Walker.Steps.refl hr⟩

theorem ends_right {f : Reads Cid σ (Walker Cid × Diff Cid)} (hl : left.Sound)
    (h : Ends (Store.answer st) (fun p => Walker.Steps st 1 right p.1) f) :
    Ends (Store.answer st) (fun p => Round st left right p.1 p.2.1)
      (f >>= fun p => pure (left, p.1, p.2)) :=
  h.bind fun _ hp => ends_pure ⟨0, 1, le_rfl, Walker.Steps.refl hl, hp⟩

variable [DecidableEq Cid]

theorem ends_removing {x : At} (h : left.Sound) (hat : left.at? = some x)
    (hmove : ∀ w : Walker Cid, w.Sound → w.at? = some x →
      Ends (Store.answer st) (Walker.Steps st 1 w) (move w)) (diff : Diff Cid) :
    Ends (Store.answer st) (fun p => Walker.Steps st 1 left p.1) (removing move left diff) := by
  refine (Walker.ends_cid h).bind fun p hp => ?_
  obtain ⟨hsteps, hsame⟩ := hp
  refine (hmove p.2 hsteps.sound (hsame.trans hat)).bind fun w' hw' => ?_
  exact ends_pure (hsteps.trans hw')

theorem ends_adding {x : At} (h : right.Sound) (hat : right.at? = some x)
    (hmove : ∀ w : Walker Cid, w.Sound → w.at? = some x →
      Ends (Store.answer st) (Walker.Steps st 1 w) (move w)) (diff : Diff Cid) :
    Ends (Store.answer st) (fun p => Walker.Steps st 1 right p.1) (adding move right diff) := by
  refine (Walker.ends_cid h).bind fun p hp => ?_
  obtain ⟨hsteps, hsame⟩ := hp
  refine (hmove p.2 hsteps.sound (hsame.trans hat)).bind fun w' hw' => ?_
  exact ends_pure (hsteps.trans hw')

theorem ends_droppedRound {here there : At} (hl : left.Sound) (hr : right.Sound)
    (hhere : left.at? = some here) (hthere : right.at? = some there) (diff : Diff Cid) :
    Ends (Store.answer st) (fun p => Round st left right p.1 p.2.1)
      (droppedRound here there left right diff : Reads Cid σ _) := by
  have hadvance : ∀ (x : At) (w : Walker Cid), w.Sound → w.at? = some x →
      Ends (Store.answer st) (Walker.Steps st 1 w) (w.advance : Reads Cid σ _) :=
    fun _ w hw hat => Walker.ends_advance hw hat
  have hinto : ∀ w : Walker Cid, w.Sound → w.at? = some .tree →
      Ends (Store.answer st) (Walker.Steps st 1 w) (w.stepInto : Reads Cid σ _) :=
    fun w hw hat => Walker.ends_stepInto hw hat
  unfold droppedRound
  split_ifs with hleaves hkeys hbefore hbelow hleaf habove hleaf' htrees htree
  · -- Two leaves under one key.
    refine (Walker.ends_cid hl).bind fun p hp => ?_
    obtain ⟨before, left'⟩ := p
    refine (Walker.ends_cid hr).bind fun q hq => ?_
    obtain ⟨after, right'⟩ := q
    refine (hadvance here left' hp.1.sound (hp.2.trans hhere)).bind fun l hl' => ?_
    refine (hadvance there right' hq.1.sound (hq.2.trans hthere)).bind fun r hr' => ?_
    exact ends_pure ⟨_, _, by omega, hp.1.trans hl', hq.1.trans hr'⟩
  · exact ends_left hr (ends_removing hl hhere (hadvance here) diff)
  · exact ends_right hl (ends_adding hr hthere (hadvance there) diff)
  · exact ends_right hl (ends_adding hr hthere (hadvance there) diff)
  · obtain rfl := At.eq_tree hleaf
    exact ends_left hr (ends_removing hl hhere hinto diff)
  · exact ends_left hr (ends_removing hl hhere (hadvance here) diff)
  · obtain rfl := At.eq_tree hleaf'
    exact ends_right hl (ends_adding hr hthere hinto diff)
  · -- Two subtrees, which are the same one or are both stepped into.
    obtain ⟨rfl, rfl⟩ := htrees
    refine (Walker.ends_cid hl).bind fun p hp => ?_
    obtain ⟨before, left'⟩ := p
    refine (Walker.ends_cid hr).bind fun q hq => ?_
    obtain ⟨after, right'⟩ := q
    dsimp only
    split_ifs with hsame
    · exact ends_pure ⟨_, _, by omega,
        hp.1.trans (Walker.steps_stepOver hp.1.sound (hp.2.trans hhere)),
        hq.1.trans (Walker.steps_stepOver hq.1.sound (hq.2.trans hthere))⟩
    · refine (hinto left' hp.1.sound (hp.2.trans hhere)).bind fun l hl' => ?_
      refine (hinto right' hq.1.sound (hq.2.trans hthere)).bind fun r hr' => ?_
      exact ends_pure ⟨_, _, by omega, hp.1.trans hl', hq.1.trans hr'⟩
  · subst htree
    exact ends_left hr (ends_removing hl hhere hinto diff)
  · have hthere' : there = .tree := by
      apply At.eq_tree
      rintro rfl
      exact hleaves ⟨by cases here <;> simp_all, rfl⟩
    subst hthere'
    exact ends_right hl (ends_adding hr hthere hinto diff)

/-- A walk with more rounds than there is ahead of the two walkers, in memory and unread. -/
theorem ends_droppedFrom {total : ℕ}
    (htotal : ∀ seen : List Cid, seen.Nodup → Hostile.read 1 1 st seen ≤ total) (rounds : ℕ)
    {m n : ℕ} (hl : left.Sound) (hr : right.Sound)
    (hm : left.ahead + total ≤ m + Hostile.read 1 1 st left.seen)
    (hn : right.ahead + total ≤ n + Hostile.read 1 1 st right.seen) (hrounds : m + n < rounds)
    (diff : Diff Cid) : Ends (Store.answer st) (fun _ => True)
      (droppedFrom rounds left right diff : Reads Cid σ _) := by
  induction rounds generalizing left right m n diff with
  | zero => omega
  | succ rounds ih =>
    have hnext : ∀ {left' right' : Walker Cid}, Round st left right left' right' → ∀ diff,
        Ends (Store.answer st) (fun _ => True)
          (droppedFrom rounds left' right' diff : Reads Cid σ _) := by
      rintro left' right' ⟨j, k, hjk, hleft, hright⟩ diff
      have hleft' := hleft.ahead
      have hright' := hright.ahead
      have htl := htotal _ hleft.sound.nodup
      have htr := htotal _ hright.sound.nodup
      exact ih (m := m - j) (n := n - k) hleft.sound hright.sound (by omega) (by omega) (by omega)
        diff
    rw [droppedFrom]
    cases hhere : left.at? with
    | none =>
      cases hthere : right.at? with
      | none => exact ends_pure trivial
      | some there =>
        refine (ends_adding hr hthere (fun w hw hat => Walker.ends_advance hw hat) diff).bind
          fun p hp => ?_
        exact hnext ⟨0, 1, le_rfl, Walker.Steps.refl hl, hp⟩ p.2
    | some here =>
      cases hthere : right.at? with
      | none =>
        refine (ends_removing hl hhere (fun w hw hat => Walker.ends_advance hw hat) diff).bind
          fun p hp => ?_
        exact hnext ⟨1, 0, le_rfl, hp, Walker.Steps.refl hr⟩ p.2
      | some there =>
        refine (ends_droppedRound hl hr hhere hthere diff).bind fun p hp => ?_
        exact hnext hp p.2.2

end Mst

/-! ## All of it -/

/-- A reader that has been through some blocks. -/
def Meter.after (seen : List Cid) : Meter Cid := ⟨0, seen, 0, seen⟩

/-- What a traversal comes to through a reader that has been through some blocks, counting frames
and reads and panicking where the source would. -/
structure Contained {α : Type} (env : ∀ q : StoreQuery Cid, q.Answer) (seen : List Cid)
    (counted : Traversal Cid α) (plain : Reading Cid α) : Prop where
  same : (Routine.exec env counted (Meter.after seen)).1 = (Routine.exec env plain seen).1
  answered : Answered (Routine.exec env counted (Meter.after seen)).1
  /-- No block is asked for twice. -/
  once : (Routine.exec env counted (Meter.after seen)).2.asked.Nodup
  frames : (Routine.exec env counted (Meter.after seen)).2.deepest ≤ maxDepth

theorem contained_of_tracks {α : Type} {post : α → Prop} {counted : Traversal Cid α}
    {plain : Reading Cid α} (h : Frames.Tracks maxDepth post counted plain)
    (env : ∀ q : StoreQuery Cid, q.Answer) {seen : List Cid} (hseen : seen.Nodup) :
    Contained env seen counted plain := by
  have hfine : (Meter.after seen).Fine := ⟨rfl, hseen, Nat.zero_le _⟩
  have hrun := h env (Meter.after seen) hfine (Nat.zero_add _)
  exact ⟨hrun.result, hrun.answered, hrun.fine.nodup, hrun.fine.deepest⟩

namespace Walker

/-- The node or subtree the cursor is on. -/
def under (w : Walker Cid) : Option (Mst Cid) :=
  match w.cursor with
  | .root root => some root
  | .node => match w.entry with
    | some (.tree subtree) => some subtree
    | _ => none
  | .done => none

theorem Sound.stepOver {w : Walker Cid} (h : w.Sound) : w.stepOver.Sound := by
  cases hc : w.cursor with
  | root root =>
    rw [Walker.stepOver, hc]
    exact ⟨h.nodup, h.height, fun _ h => by cases h⟩
  | done =>
    rw [Walker.stepOver, hc]
    exact h
  | node =>
    obtain ⟨-, hseen, hheight, hroot⟩ := ahead_stepOver_node hc
    exact ⟨hseen ▸ h.nodup, hheight.trans h.height, fun _ h => absurd h (hroot _)⟩

variable [Codec Cid] [DecidableEq Cid]

/-- The walkers there are over a tree, moved about in any way. -/
inductive Reached (σ : Type) (env : ∀ q : StoreQuery Cid, q.Answer) (root : Cid) :
    Walker Cid → Prop
  | new {w : Walker Cid} {s s' : σ}
      (h : Routine.exec env (Walker.new (Mst.load root)) s = (.ok w, s')) : Reached σ env root w
  | cid {w w' : Walker Cid} {c : Cid} {s s' : σ} (hw : Reached σ env root w)
      (h : Routine.exec env w.cid s = (.ok (c, w'), s')) : Reached σ env root w'
  | stepInto {w w' : Walker Cid} {s s' : σ} (hw : Reached σ env root w)
      (h : Routine.exec env w.stepInto s = (.ok w', s')) : Reached σ env root w'
  | advance {w w' : Walker Cid} {s s' : σ} (hw : Reached σ env root w)
      (h : Routine.exec env w.advance s = (.ok w', s')) : Reached σ env root w'
  | stepOver {w : Walker Cid} (hw : Reached σ env root w) : Reached σ env root w.stepOver

variable {σ : Type} {st : Cid → Option Bytes} {w : Walker Cid}

theorem sound_stepInto (h : w.Sound) :
    Ends (Store.answer st) Sound (w.stepInto : Reads Cid σ _) := by
  by_cases hat : w.at? = some .tree
  · exact (ends_stepInto h hat).mono fun _ hsteps => hsteps.sound
  · unfold stepInto
    split_ifs
    · exact ends_throw trivial
    · cases hc : w.cursor with
      | done => exact ends_pure h
      | root root => simp [at?, hc] at hat
      | node =>
        cases hs : w.stack with
        | nil => exact ends_throw trivial
        | cons level rest =>
          rcases he : level.entry with _ | leaf | subtree
          · dsimp only
            rw [he]
            exact ends_throw trivial
          · dsimp only
            rw [he]
            exact ends_throw trivial
          · simp [at?, hc, entry, hs, he] at hat

theorem sound_advance (h : w.Sound) :
    Ends (Store.answer st) Sound (w.advance : Reads Cid σ _) := by
  unfold advance
  split_ifs
  · exact ends_pure h.stepOver
  · exact sound_stepInto h

theorem Reached.sound {root : Cid} (h : Reached σ (Store.answer st) root w) : w.Sound := by
  induction h with
  | new h => exact ((ends_new root).of_exec h).1
  | cid hw h ih => exact ((ends_cid ih).of_exec h).1.sound
  | stepInto hw h ih => exact (sound_stepInto ih).of_exec h
  | advance hw h ih => exact (sound_advance ih).of_exec h
  | stepOver hw ih => exact ih.stepOver

end Walker

namespace Hostile

variable [Codec Cid] [DecidableEq Cid]

/-- How many entries a stored node has. -/
def entriesIn (blocks : BlockMap Cid) (cid : Cid) : ℕ :=
  match blocks.lookup cid with
  | none => 0
  | some bytes => match (decodeNode bytes : Except (RepoError Cid) (NodeData Cid)) with
    | .error _ => 0
    | .ok data => data.e.length

theorem held_le_entriesIn (blocks : BlockMap Cid) (cid : Cid) :
    held 1 0 blocks.lookup cid ≤ entriesIn blocks cid := by
  cases hst : blocks.lookup cid with
  | none => simp only [held, entriesIn, hst, le_refl]
  | some bytes =>
    cases hdata : (decodeNode bytes : Except (RepoError Cid) (NodeData Cid)) with
    | error e => simp only [held, entriesIn, hst, hdata, le_refl]
    | ok data =>
      cases hes : Mst.deserialize data
          (data.e.head?.map fun entry => leadingZeros Cid entry.k) with
      | error e => simp only [held, entriesIn, hst, hdata, hes, Nat.zero_le]
      | ok es =>
        simp only [held, entriesIn, hst, hdata, hes]
        exact (weights_deserialize hes).le

/-- What all the blocks of a store hold. -/
def total (blocks : BlockMap Cid) : ℕ := read 1 1 blocks.lookup blocks.keys

theorem read_le_total (blocks : BlockMap Cid) {seen : List Cid} (h : seen.Nodup) :
    read 1 1 blocks.lookup seen ≤ total blocks := by
  have hkeys : (AList.keys blocks).Nodup := blocks.nodupKeys
  unfold total read
  rw [← List.sum_toFinset _ h, ← List.sum_toFinset _ hkeys]
  apply Finset.sum_le_sum_of_ne_zero
  intro cid _ hheld
  rw [List.mem_toFinset]
  by_contra hkey
  have hnone : blocks.lookup cid = none := AList.lookup_eq_none.mpr hkey
  exact hheld (by rw [held, hnone])

end Hostile

section

variable [Codec Cid] [DecidableEq Cid]

open Walker (fuel)

/-- Every traversal of the tree under a root, in a store that holds whatever it holds. -/
structure TraversalsContained (blocks : BlockMap Cid) (root : Cid) (key : Str) (value : Cid) :
    Prop where
  get : Contained (Store.answer blocks.lookup) [] (Frames.getIn fuel (.load root) key)
    (Mst.getIn maxDepth (.load root) key)
  leaves : Contained (Store.answer blocks.lookup) [] (Frames.collectLeaves fuel (.load root))
    (Mst.collectLeaves maxDepth (.load root))
  cidsForPath : Contained (Store.answer blocks.lookup) []
    (Frames.cidsForPathIn fuel (.load root) key) (Mst.cidsForPathIn maxDepth (.load root) key)
  add : Contained (Store.answer blocks.lookup) [] (Frames.addIn fuel (.load root) key value)
    (Mst.addIn maxDepth (.load root) key value)
  update : Contained (Store.answer blocks.lookup) [] (Frames.updateIn fuel (.load root) key value)
    (Mst.updateIn maxDepth (.load root) key value)
  delete : Contained (Store.answer blocks.lookup) [] (Frames.deleteIn fuel (.load root) key)
    (Mst.deleteIn maxDepth (.load root) key)
  unstoredBlocks : Contained (Store.answer blocks.lookup) []
    (Frames.unstoredBlocksIn fuel (.load root)) (Mst.unstoredBlocksIn maxDepth (.load root))
  /-- No more leaves than the blocks that were read have entries. -/
  count : ∀ found t, (Routine.exec (Store.answer blocks.lookup)
      (Frames.collectLeaves fuel (.load root)) (Meter.after [])).1 = .ok (found, t) →
    found.length ≤ ((Routine.exec (Store.answer blocks.lookup)
      (Frames.collectLeaves fuel (.load root)) (Meter.after [])).2.asked.map
        (Hostile.entriesIn blocks)).sum

/-- Every walker over the tree under a root, and all it asks its reader for. -/
structure WalkerContained (σ : Type) (blocks : BlockMap Cid) (root : Cid) : Prop where
  start : Contained (Store.answer blocks.lookup) [] (Frames.layer fuel (.load root))
    (Mst.layer maxDepth (.load root))
  height : ∀ w, Walker.Reached σ (Store.answer blocks.lookup) root w → w.stack.length ≤ maxDepth
  cid : ∀ w, Walker.Reached σ (Store.answer blocks.lookup) root w → ∀ t ∈ w.under,
    Contained (Store.answer blocks.lookup) w.seen (Frames.rootIn fuel t) (Mst.rootIn maxDepth t)
  stepInto : ∀ w, Walker.Reached σ (Store.answer blocks.lookup) root w → ∀ t ∈ w.under,
    Contained (Store.answer blocks.lookup) w.seen (Frames.levelOf fuel t) (Walker.levelOf t)

theorem traversalsContained (blocks : BlockMap Cid) (root : Cid) (key : Str) (value : Cid) :
    TraversalsContained blocks root key value where
  get := contained_of_tracks (Frames.getIn_tracks Walker.lt_fuel _ key) _ List.nodup_nil
  leaves := contained_of_tracks (Frames.collectLeaves_tracks Walker.lt_fuel _) _ List.nodup_nil
  cidsForPath :=
    contained_of_tracks (Frames.cidsForPathIn_tracks Walker.lt_fuel _ key) _ List.nodup_nil
  add := contained_of_tracks (Frames.addIn_tracks Walker.lt_fuel _ key value) _ List.nodup_nil
  update := contained_of_tracks (Frames.updateIn_tracks Walker.lt_fuel _ key value) _ List.nodup_nil
  delete := contained_of_tracks (Frames.deleteIn_tracks Walker.lt_fuel _ key) _ List.nodup_nil
  unstoredBlocks :=
    contained_of_tracks (Frames.unstoredBlocksIn_tracks Walker.lt_fuel _) _ List.nodup_nil
  count := by
    intro found t h
    have hrun := Frames.collectLeaves_tracks Walker.lt_fuel (Mst.load root)
      (Store.answer blocks.lookup) (Meter.after []) ⟨rfl, List.nodup_nil, Nat.zero_le _⟩
      (Nat.zero_add _)
    have hplain : Routine.exec (Store.answer blocks.lookup)
        (Mst.collectLeaves maxDepth (.load root)) [] = (.ok (found, t), (Routine.exec
          (Store.answer blocks.lookup) (Frames.collectLeaves fuel (.load root))
          (Meter.after [])).2.asked) := by
      rw [hrun.fine.asked, ← h]
      exact Prod.ext hrun.result.symm hrun.seen.symm
    obtain ⟨n, hn, hle⟩ := Hostile.weighs_collectLeaves maxDepth (Mst.load root) _ _ _ hplain
    dsimp only at hn
    rw [hn]
    refine le_trans ?_ (List.sum_le_sum fun cid _ => Hostile.held_le_entriesIn blocks cid)
    simpa [Hostile.read] using hle

theorem walkerContained (σ : Type) (blocks : BlockMap Cid) (root : Cid) :
    WalkerContained σ blocks root where
  start := contained_of_tracks (Frames.layer_tracks Walker.lt_fuel _) _ List.nodup_nil
  height := fun _ hw => hw.sound.height
  cid := fun _ hw t _ =>
    contained_of_tracks (Frames.rootIn_tracks Walker.lt_fuel t) _ hw.sound.nodup
  stepInto := fun _ hw t _ =>
    contained_of_tracks (Frames.levelOf_tracks Walker.lt_fuel t) _ hw.sound.nodup

theorem ends_dropped {σ : Type} (blocks : BlockMap Cid) (root prev : Cid) {rounds : ℕ}
    (h : 2 * (Hostile.total blocks + 1) < rounds) :
    Ends (Store.answer blocks.lookup) (fun _ => True)
      (Mst.dropped rounds (.load root) (.load prev) : Reads Cid σ _) := by
  refine (Walker.ends_new prev).bind fun left hleft => ?_
  refine (Walker.ends_new root).bind fun right hright => ?_
  exact Mst.ends_droppedFrom (fun seen hseen => Hostile.read_le_total blocks hseen) rounds
    (m := Hostile.total blocks + 1) (n := Hostile.total blocks + 1) hleft.1 hright.1
    (by have := hleft.2; omega) (by have := hright.2; omega) (by omega) _

/-- Whatever bytes are under whatever CIDs, no traversal panics or runs on, none reads a block twice
through one reader or has more frames than the limit, and a walk over two trees is over once it has
been round as often as there are entries to pass. -/
theorem hostile_store_contained {σ : Type} (blocks : BlockMap Cid) (root prev : Cid) (key : Str)
    (value : Cid) : TraversalsContained blocks root key value ∧ WalkerContained σ blocks root ∧
      WalkerContained σ blocks prev ∧ ∃ enough, ∀ rounds, enough < rounds → ∀ s : σ,
        Answered (Routine.exec (Store.answer blocks.lookup)
          (Mst.dropped rounds (.load root) (.load prev)) s).1 :=
  ⟨traversalsContained blocks root key value, walkerContained σ blocks root,
    walkerContained σ blocks prev, 2 * (Hostile.total blocks + 1),
    fun _ hrounds s => (ends_dropped blocks root prev hrounds s).1⟩

end

end Manapds
