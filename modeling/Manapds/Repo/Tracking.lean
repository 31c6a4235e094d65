import Mathlib.Data.List.InsertIdx
import Manapds.Repo.Frames

/-!
# The counted traversals come to what the plain ones come to

One rule for each way a traversal is put together, and then one lemma for each function: given more
fuel than there are levels left, it tracks its counterpart in `Mst` at that many levels.
-/

namespace Manapds

open QueryProgram

variable {Cid : Type}

/-- No block has been asked for twice and no frame has been past the last. -/
structure Meter.Fine (meter : Meter Cid) : Prop where
  asked : meter.asked = meter.seen
  nodup : meter.asked.Nodup
  deepest : meter.deepest ≤ maxDepth

namespace Frames

variable {α β : Type} {d : ℕ} {post : α → Prop} {post' : β → Prop}

/-- How one run of a counted traversal stands to a run of the plain one. -/
structure Agree (post : α → Prop) (depth : ℕ) (counted : Except (RepoError Cid) α × Meter Cid)
    (plain : Except (RepoError Cid) α × List Cid) : Prop where
  result : counted.1 = plain.1
  seen : counted.2.seen = plain.2
  fine : counted.2.Fine
  depth : counted.2.depth = depth
  answered : Answered counted.1
  post : ∀ a, counted.1 = .ok a → post a

/-- With `d` levels left, the two come to the same in every store, with a value that has `post`. -/
def Tracks (d : ℕ) (post : α → Prop) (counted : Traversal Cid α) (plain : Reading Cid α) : Prop :=
  ∀ env meter, meter.Fine → meter.depth + d = maxDepth →
    Agree post meter.depth (Routine.exec env counted meter) (Routine.exec env plain meter.seen)

variable {counted : Traversal Cid α} {plain : Reading Cid α}

theorem Tracks.mono {post₂ : α → Prop} (h : Tracks d post counted plain)
    (hp : ∀ a, post a → post₂ a) : Tracks d post₂ counted plain := by
  intro env meter hfine hdepth
  have hrun := h env meter hfine hdepth
  exact ⟨hrun.result, hrun.seen, hrun.fine, hrun.depth, hrun.answered,
    fun a ha => hp a (hrun.post a ha)⟩

theorem tracks_pure {a : α} (h : post a) : Tracks d post (pure a : Traversal Cid α) (pure a) := by
  intro env meter hfine hdepth
  refine ⟨rfl, rfl, hfine, rfl, answered_ok a, ?_⟩
  rintro _ ⟨⟩
  exact h

theorem tracks_throw {e : RepoError Cid} (h : e.Ordinary) :
    Tracks d post (Routine.throw e : Traversal Cid α) (Routine.throw e) := by
  intro env meter hfine hdepth
  refine ⟨rfl, rfl, hfine, rfl, answered_error h, ?_⟩
  rintro _ ⟨⟩

theorem tracks_ofExcept {r : Except (RepoError Cid) α} (h : Answered r) :
    Tracks d (fun a => r = .ok a) (Routine.ofExcept r : Traversal Cid α) (Routine.ofExcept r) := by
  cases r with
  | ok a => exact tracks_pure rfl
  | error e => exact tracks_throw (h e rfl)

theorem Tracks.bind {counted' : α → Traversal Cid β} {plain' : α → Reading Cid β}
    (h : Tracks d post counted plain) (h' : ∀ a, post a → Tracks d post' (counted' a) (plain' a)) :
    Tracks d post' (counted >>= counted') (plain >>= plain') := by
  intro env meter hfine hdepth
  have hrun := h env meter hfine hdepth
  rw [Routine.exec_bind, Routine.exec_bind]
  generalize Routine.exec env counted meter = run at hrun
  generalize Routine.exec env plain meter.seen = run' at hrun
  obtain ⟨r, m⟩ := run
  obtain ⟨r', seen⟩ := run'
  obtain ⟨hr, hs, hm, hd, ha, hp⟩ := hrun
  dsimp only at hr hs hm hd ha hp
  subst hr hs
  cases r with
  | error e =>
    refine ⟨rfl, rfl, hm, hd, ha.cast, ?_⟩
    rintro _ ⟨⟩
  | ok a =>
    have hrest := h' a (hp a rfl) env m hm (by omega)
    exact ⟨hrest.result, hrest.seen, hrest.fine, hrest.depth.trans hd, hrest.answered, hrest.post⟩

/-- A step of the counted traversal alone, where it is no panic. -/
theorem tracks_step {step : Traversal Cid α} {a : α} {counted : α → Traversal Cid β}
    {plain : Reading Cid β} (hstep : step = pure a) (h : Tracks d post' (counted a) plain) :
    Tracks d post' (step >>= counted) plain := by
  rw [hstep]
  exact h

theorem Tracks.attempt (h : Tracks d post counted plain) :
    Tracks d (fun r => Answered r ∧ ∀ a, r = .ok a → post a) counted.attempt plain.attempt := by
  intro env meter hfine hdepth
  have hrun := h env meter hfine hdepth
  rw [Routine.exec_attempt, Routine.exec_attempt]
  refine ⟨by rw [hrun.result], hrun.seen, hrun.fine, hrun.depth, answered_ok _, ?_⟩
  rintro r ⟨⟩
  exact ⟨hrun.answered, hrun.post⟩

/-- The level a frame takes is one of those left to its caller. -/
theorem Tracks.descend (h : Tracks d post counted plain) :
    Tracks (d + 1) post (descend counted) plain := by
  intro env meter hfine hdepth
  have hroom : ¬maxDepth < meter.depth + 1 := by omega
  have hfine' : Meter.Fine { meter with
      depth := meter.depth + 1, deepest := max meter.deepest (meter.depth + 1) } :=
    ⟨hfine.asked, hfine.nodup, max_le hfine.deepest (by omega)⟩
  have hrun := h env _ hfine' (by dsimp only; omega)
  have hexec : Routine.exec env (Frames.descend counted) meter =
      ((Routine.exec env counted { meter with
          depth := meter.depth + 1, deepest := max meter.deepest (meter.depth + 1) }).1,
        { (Routine.exec env counted { meter with
            depth := meter.depth + 1, deepest := max meter.deepest (meter.depth + 1) }).2 with
          depth := meter.depth }) := by
    have hback := hrun.depth
    unfold Frames.descend
    rw [Routine.exec_bind_ok _ _ (Routine.exec_get env meter), if_neg hroom,
      Routine.exec_bind_ok _ _ (Routine.exec_set env meter _),
      Routine.exec_bind_ok _ _ (Routine.exec_attempt env _ counted),
      Routine.exec_bind_ok _ _ (Routine.exec_get env _),
      Routine.exec_bind_ok _ _ (Routine.exec_set env _ _), hback]
    dsimp only
    cases (Routine.exec env counted { meter with
      depth := meter.depth + 1, deepest := max meter.deepest (meter.depth + 1) }).1 <;> rfl
  rw [hexec]
  exact ⟨hrun.result, hrun.seen, ⟨hrun.fine.asked, hrun.fine.nodup, hrun.fine.deepest⟩, rfl,
    hrun.answered, hrun.post⟩

theorem tracks_tooDeep : Tracks 0 post (descend counted) (Reader.tooDeep : Reading Cid α) := by
  intro env meter hfine hdepth
  have hfull : maxDepth < meter.depth + 1 := by omega
  have hexec : Routine.exec env (Frames.descend counted) meter =
      (.error (.malformedNode "a tree deeper than its keys allow"), meter) := by
    unfold Frames.descend
    rw [Routine.exec_bind_ok _ _ (Routine.exec_get env meter), if_pos hfull]
    rfl
  rw [hexec]
  refine ⟨rfl, rfl, hfine, rfl, answered_error trivial, ?_⟩
  rintro _ ⟨⟩

/-- A store is asked about a block without its being read. -/
theorem tracks_contains (cid : Cid) : Tracks d (fun _ => True)
    (Routine.ask (StoreQuery.contains cid) : Traversal Cid Bool) (Reader.contains cid) := by
  intro env meter hfine hdepth
  exact ⟨rfl, rfl, hfine, rfl, answered_ok _, fun _ _ => trivial⟩

theorem answered_ensureValidKey (key : Str) :
    Answered (ensureValidKey key : Except (RepoError Cid) Unit) := by
  intro e he
  unfold ensureValidKey at he
  dsimp only at he
  split_ifs at he
  cases he
  trivial

theorem answered_deserializeFrom (under : Option ℕ) (last : Str) (stored : List (TreeEntry Cid)) :
    Answered (Mst.deserializeFrom under last stored) := by
  induction stored generalizing last with
  | nil => exact answered_ok _
  | cons entry rest ih =>
    rw [Mst.deserializeFrom]
    split_ifs
    · cases last.getTo entry.p with
      | none => exact answered_error trivial
      | some shared =>
        exact (answered_ensureValidKey _).bind fun _ => (ih _).bind fun _ => answered_ok _
    · exact answered_error trivial

theorem answered_deserialize (data : NodeData Cid) (layer : Option ℕ) :
    Answered (Mst.deserialize data layer) :=
  (answered_deserializeFrom _ _ _).bind fun _ => answered_ok _

theorem position_le (es : List (Entry Cid)) (key : Str) : Mst.position es key ≤ es.length :=
  List.findIdx_le_length

theorem layerUnder_tracks {find : Mst Cid → Traversal Cid (Option ℕ × Mst Cid)}
    {find' : Mst Cid → Reading Cid (Option ℕ × Mst Cid)}
    (h : ∀ t, Tracks d (fun _ => True) (find t) (find' t)) (es : List (Entry Cid)) :
    Tracks d (fun _ => True) (layerUnder find es) (Mst.layerUnder find' es) := by
  induction es with
  | nil => exact tracks_pure trivial
  | cons e rest ih =>
    cases e with
    | leaf leaf => exact ih.bind fun p _ => tracks_pure trivial
    | tree subtree =>
      refine (h subtree).bind fun p _ => ?_
      obtain ⟨under, subtree⟩ := p
      cases under with
      | some under => exact tracks_pure trivial
      | none => exact ih.bind fun p _ => tracks_pure trivial

theorem unstoredUnder_tracks [DecidableEq Cid]
    {unstored : Mst Cid → Traversal Cid ((Cid × BlockMap Cid) × Mst Cid)}
    {unstored' : Mst Cid → Reading Cid ((Cid × BlockMap Cid) × Mst Cid)}
    (h : ∀ t, Tracks d (fun _ => True) (unstored t) (unstored' t)) (blocks : BlockMap Cid)
    (es : List (Entry Cid)) : Tracks d (fun _ => True) (unstoredUnder unstored blocks es)
      (Mst.unstoredUnder unstored' blocks es) := by
  induction es generalizing blocks with
  | nil => exact tracks_pure trivial
  | cons e rest ih =>
    cases e with
    | leaf leaf => exact (ih blocks).bind fun p _ => tracks_pure trivial
    | tree subtree =>
      exact (h subtree).bind fun p _ => (ih _).bind fun p _ => tracks_pure trivial

theorem leavesUnder_tracks {collect : Mst Cid → Traversal Cid (List (Leaf Cid) × Mst Cid)}
    {collect' : Mst Cid → Reading Cid (List (Leaf Cid) × Mst Cid)}
    (h : ∀ t, Tracks d (fun _ => True) (collect t) (collect' t)) (es : List (Entry Cid)) :
    Tracks d (fun _ => True) (leavesUnder collect es) (Mst.leavesUnder collect' es) := by
  induction es with
  | nil => exact tracks_pure trivial
  | cons e rest ih =>
    cases e with
    | leaf leaf => exact ih.bind fun p _ => tracks_pure trivial
    | tree subtree =>
      exact (h subtree).bind fun p _ => ih.bind fun p _ => tracks_pure trivial

theorem sharedPrefix_le (a b : Str) : sharedPrefix a b ≤ b.length := by
  have htake := (List.takeWhile_sublist (p := fun p : Byte × Byte => decide (p.1 = p.2))
    (l := a.zip b)).length_le
  rw [List.length_zip] at htake
  unfold sharedPrefix
  omega

theorem sliceFrom_sharedPrefix (last key : Str) :
    (sliceFrom key (sharedPrefix last key) : Traversal Cid Str) =
      pure (key.drop (sharedPrefix last key)) := if_pos (sharedPrefix_le last key)

theorem serializeFrom_tracks {root : Mst Cid → Traversal Cid (Cid × Mst Cid)}
    {root' : Mst Cid → Reading Cid (Cid × Mst Cid)}
    (h : ∀ t, Tracks d (fun _ => True) (root t) (root' t)) (last : Str) (es : List (Entry Cid)) :
    Tracks d (fun _ => True) (serializeFrom root last es) (Mst.serializeFrom root' last es) := by
  induction last, es using Mst.serializeFrom.induct with
  | case1 last => exact tracks_pure trivial
  | case2 last subtree rest => exact tracks_throw (e := .malformedNode _) trivial
  | case3 last leaf right rest ih =>
    rw [serializeFrom, Mst.serializeFrom]
    refine (h right).bind fun p _ => ?_
    refine (tracks_ofExcept (answered_ensureValidKey leaf.key)).bind fun _ _ => ?_
    apply tracks_step (sliceFrom_sharedPrefix last leaf.key)
    exact ih.bind fun p _ => tracks_pure trivial
  | case4 last leaf rest hrest ih =>
    rw [serializeFrom, Mst.serializeFrom]
    · refine (tracks_ofExcept (answered_ensureValidKey leaf.key)).bind fun _ _ => ?_
      apply tracks_step (sliceFrom_sharedPrefix last leaf.key)
      exact ih.bind fun p _ => tracks_pure trivial
    · exact hrest
    · exact hrest

theorem serialize_tracks {root : Mst Cid → Traversal Cid (Cid × Mst Cid)}
    {root' : Mst Cid → Reading Cid (Cid × Mst Cid)}
    (h : ∀ t, Tracks d (fun _ => True) (root t) (root' t)) (es : List (Entry Cid)) :
    Tracks d (fun _ => True) (serialize root es) (Mst.serialize root' es) := by
  have hplain : Tracks d (fun _ => True)
      (serializeFrom root [] es >>= fun p => pure ((⟨none, p.1⟩ : NodeData Cid), p.2))
      (Mst.serializeFrom root' [] es >>= fun p => pure (⟨none, p.1⟩, p.2)) :=
    (serializeFrom_tracks h [] es).bind fun p _ => tracks_pure trivial
  cases es with
  | nil => exact hplain
  | cons e rest =>
    cases e with
    | leaf leaf => exact hplain
    | tree subtree =>
      refine (h subtree).bind fun p _ => ?_
      exact (serializeFrom_tracks h [] rest).bind fun p _ => tracks_pure trivial

theorem answered_raiseBoth (n : ℕ) (left right : Option (Mst Cid)) :
    Answered (Mst.raiseBoth n left right) := by
  have hraise : ∀ half : Option (Mst Cid), Answered (Mst.raise half) := by
    intro half
    rcases half with _ | ⟨es, layer, pointer⟩
    · exact answered_ok _
    · cases layer with
      | none => exact answered_error trivial
      | some layer => exact answered_ok _
  induction n generalizing left right with
  | zero => exact answered_ok _
  | succ n ih => exact (hraise left).bind fun left => (hraise right).bind fun right => ih left right

/-! ## Indices that are in range -/

theorem lt_length_of_getElem? {xs : List α} {i : ℕ} {x : α} (h : xs[i]? = some x) :
    i < xs.length := (List.getElem?_eq_some_iff.mp h).1

theorem remove_eq {xs : List α} {i : ℕ} {x : α} (h : xs[i]? = some x) :
    (remove xs i : Traversal Cid (α × List α)) = pure (x, xs.eraseIdx i) := by
  rw [remove, h]

theorem splitOff_eq {xs : List α} {i : ℕ} (h : i ≤ xs.length) :
    (splitOff xs i : Traversal Cid (List α × List α)) = pure (xs.take i, xs.drop i) := if_pos h

theorem insertAt_eq {xs : List α} {i : ℕ} (h : i ≤ xs.length) (x : α) :
    (insertAt xs i x : Traversal Cid (List α)) = pure (xs.insertIdx i x) := if_pos h

theorem insertAt_eraseIdx {xs : List α} {i : ℕ} (h : i < xs.length) (x : α) :
    (insertAt (xs.eraseIdx i) i x : Traversal Cid (List α)) = pure (xs.set i x) := by
  have hlen : i ≤ (xs.eraseIdx i).length := by
    rw [List.length_eraseIdx_of_lt h]
    omega
  rw [insertAt_eq hlen, List.insertIdx_eraseIdx_self h.ne]

theorem splice_eraseIdx {xs : List α} {i : ℕ} (h : i < xs.length) (ys : List α) :
    (splice (xs.eraseIdx i) i ys : Traversal Cid (List α)) =
      pure (xs.take i ++ ys ++ xs.drop (i + 1)) := by
  have hlen : i ≤ (xs.eraseIdx i).length := by
    rw [List.length_eraseIdx_of_lt h]
    omega
  have hparts : xs.eraseIdx i = xs.take i ++ xs.drop (i + 1) := List.eraseIdx_eq_take_drop_succ xs i
  have htake : (xs.take i).length = i := List.length_take_of_le h.le
  rw [splice, if_pos hlen, hparts, List.take_left' htake, List.drop_left' htake]

theorem remove_append (xs ys : List α) (x : α) {i : ℕ} (h : i = xs.length) :
    (remove (xs ++ x :: ys) i : Traversal Cid (α × List α)) = pure (x, xs ++ ys) := by
  subst h
  have hget : (xs ++ x :: ys)[xs.length]? = some x := by simp
  rw [remove_eq hget, List.eraseIdx_append_of_length_le le_rfl, Nat.sub_self]
  rfl

theorem insertAt_append (xs ys : List α) (x : α) {i : ℕ} (h : i = xs.length) :
    (insertAt (xs ++ ys) i x : Traversal Cid (List α)) = pure (xs ++ x :: ys) := by
  subst h
  have hinsert : (xs ++ ys).insertIdx xs.length x = xs ++ x :: ys := by
    induction xs with
    | nil => rfl
    | cons a xs ih => simp [ih]
  rw [insertAt_eq (by simp), hinsert]

theorem eq_take_append_three {xs : List α} {i : ℕ} {a b c : α} (ha : xs[i]? = some a)
    (hb : xs[i + 1]? = some b) (hc : xs[i + 2]? = some c) :
    xs = xs.take i ++ a :: b :: c :: xs.drop (i + 3) := by
  obtain ⟨hi, rfl⟩ := List.getElem?_eq_some_iff.mp ha
  obtain ⟨hi₁, rfl⟩ := List.getElem?_eq_some_iff.mp hb
  obtain ⟨hi₂, rfl⟩ := List.getElem?_eq_some_iff.mp hc
  rw [← List.drop_eq_getElem_cons hi₂, ← List.drop_eq_getElem_cons hi₁,
    ← List.drop_eq_getElem_cons hi, List.take_append_drop]

theorem treeBefore_eq_some {es : List (Entry Cid)} {index i : ℕ} {t : Mst Cid}
    (h : Mst.treeBefore es index = some (i, t)) : index = i + 1 ∧ es[i]? = some (.tree t) := by
  cases index with
  | zero => cases h
  | succ j =>
    rw [Mst.treeBefore] at h
    split at h
    · next subtree hget =>
      cases h
      exact ⟨rfl, hget⟩
    · cases h

theorem leafAt_eq_some {es : List (Entry Cid)} {index : ℕ} {key : Str} {value : Cid}
    (h : Mst.leafAt es index key = some value) : ∃ leaf, es[index]? = some (.leaf leaf) := by
  unfold Mst.leafAt at h
  split at h
  · next leaf hleaf => exact ⟨leaf, hleaf⟩
  · cases h

theorem treeIndex_eq {es : List (Entry Cid)} {index : ℕ} (h : index ≤ es.length) :
    (treeIndex es index : Traversal Cid (Option ℕ)) =
      pure ((Mst.treeBefore es index).map Prod.fst) := by
  cases index with
  | zero => rfl
  | succ i =>
    rw [treeIndex, Mst.treeBefore, List.getElem?_eq_getElem (by omega)]
    cases es[i] <;> rfl

theorem between_eq {es : List (Entry Cid)} {index : ℕ} (h : index ≤ es.length) :
    (between es index : Traversal Cid Bool) = pure (Mst.treesAround es index).isSome := by
  rw [between, treeIndex_eq h, Mst.treesAround]
  rcases Mst.treeBefore es index with _ | ⟨i, left⟩
  · rfl
  · rcases es[index + 1]? with _ | leaf | right <;> rfl

section

variable [Codec Cid]

theorem answered_decodeNode (bytes : Bytes) :
    Answered (decodeNode bytes : Except (RepoError Cid) (NodeData Cid)) := by
  intro e he
  unfold decodeNode at he
  cases hslice : (Codec.nodeFromSlice bytes : Except String (NodeData Cid)) with
  | ok data =>
    rw [hslice] at he
    cases he
  | error why =>
    rw [hslice] at he
    cases he
    trivial

theorem answered_encode (v : Ipld Cid) : Answered (encode v) := by
  intro e he
  unfold encode at he
  cases hvec : Codec.toVec v with
  | ok bytes =>
    rw [hvec] at he
    cases he
  | error why =>
    rw [hvec] at he
    cases he
    trivial

theorem answered_add [DecidableEq Cid] {blocks : BlockMap Cid} (v : Ipld Cid) :
    Answered (BlockMap.add blocks v) := (answered_encode v).bind fun _ => answered_ok _

/-! ## Reading -/

variable [DecidableEq Cid]

theorem node_tracks (cid : Cid) : Tracks d (fun _ => True) (node cid) (Reader.node cid) := by
  intro env meter hfine hdepth
  unfold node Reader.node
  rw [Routine.exec_bind_ok _ _ (Routine.exec_get env meter),
    Routine.exec_bind_ok _ _ (Routine.exec_get env meter.seen)]
  by_cases hseen : cid ∈ meter.seen
  · rw [if_pos hseen, if_pos hseen]
    exact tracks_throw (e := .malformedNode _) trivial env meter hfine hdepth
  · rw [if_neg hseen, if_neg hseen, Routine.exec_bind_ok _ _ (Routine.exec_set env meter _),
      Routine.exec_bind_ok _ _ (Routine.exec_set env meter.seen _)]
    have hask : Tracks d (fun _ => True)
        (Routine.ask (StoreQuery.get cid) : Traversal Cid (Option Bytes)) (Reader.block cid) := by
      intro env meter hfine hdepth
      exact ⟨rfl, rfl, hfine, rfl, answered_ok _, fun _ _ => trivial⟩
    have hfine' : Meter.Fine { meter with
        seen := cid :: meter.seen, asked := cid :: meter.asked } :=
      ⟨by rw [hfine.asked], by
        rw [hfine.asked]
        exact List.nodup_cons.mpr ⟨hseen, hfine.asked ▸ hfine.nodup⟩, hfine.deepest⟩
    refine (hask.bind fun held _ => ?_ : Tracks d (fun _ => True) _ _) env _ hfine' hdepth
    cases held with
    | none => exact tracks_throw trivial
    | some bytes => exact (tracks_ofExcept (answered_decodeNode bytes)).mono fun _ _ => trivial

theorem fill_tracks (t : Mst Cid) :
    Tracks d (fun t' => ∃ es, t'.entries? = some es) (fill t) t.fill := by
  obtain ⟨es, layer, pointer⟩ := t
  cases es with
  | some es => exact tracks_pure ⟨es, rfl⟩
  | none =>
    cases pointer with
    | none => exact tracks_throw trivial
    | some cid =>
      refine (node_tracks cid).bind fun data _ => ?_
      exact (tracks_ofExcept (answered_deserialize data _)).bind fun es _ => tracks_pure ⟨es, rfl⟩

theorem entries_tracks (t : Mst Cid) :
    Tracks d (fun p => p.2.entries? = some p.1) (entries t) t.entries := by
  refine (fill_tracks t).bind fun t' ht' => ?_
  obtain ⟨es, hes⟩ := ht'
  rw [hes]
  exact tracks_pure hes

theorem takeEntries_eq {t : Mst Cid} {es : List (Entry Cid)} (h : t.entries? = some es) :
    takeEntries t = pure es := by
  obtain ⟨held, layer, pointer⟩ := t
  cases h
  rfl

theorem takeEntries_tracks (t : Mst Cid) :
    Tracks d (fun es => ∀ es', t.entries? = some es' → es = es') (takeEntries t) t.takeEntries := by
  cases hes : t.entries? with
  | none =>
    exact (entries_tracks t).bind fun p _ => tracks_pure fun _ h => by cases h
  | some es =>
    have hplain : t.takeEntries = pure es := by
      obtain ⟨held, layer, pointer⟩ := t
      cases hes
      rfl
    rw [takeEntries_eq hes, hplain]
    exact tracks_pure fun _ h => Option.some.inj h

theorem indexOf_tracks (t : Mst Cid) (key : Str) :
    Tracks d (fun p => ∃ es, p.2.entries? = some es ∧ p.1 = Mst.position es key) (indexOf t key)
      (t.indexOf key) :=
  (entries_tracks t).bind fun p hp => tracks_pure ⟨p.1, hp, rfl⟩

theorem findLayer_tracks {fuel : ℕ} (hd : d < fuel) (t : Mst Cid) :
    Tracks d (fun _ => True) (findLayer fuel t) (Mst.findLayer d t) := by
  induction fuel generalizing d t with
  | zero => omega
  | succ fuel ih =>
    cases d with
    | zero => exact tracks_tooDeep
    | succ d =>
      rw [findLayer, Mst.findLayer]
      apply Tracks.descend
      cases t.layer? with
      | some layer => exact tracks_pure trivial
      | none =>
        refine (entries_tracks t).bind fun p _ => ?_
        obtain ⟨es, t⟩ := p
        dsimp only
        cases Mst.leafLayer es with
        | some layer => exact tracks_pure trivial
        | none =>
          exact (layerUnder_tracks (ih (by omega)) es).bind fun p _ => tracks_pure trivial

theorem layer_tracks {fuel : ℕ} (hd : d < fuel) (t : Mst Cid) :
    Tracks d (fun _ => True) (layer fuel t) (Mst.layer d t) :=
  (findLayer_tracks hd t).bind fun _ _ => tracks_pure trivial

theorem levelOf_tracks {fuel : ℕ} (hd : maxDepth < fuel) (t : Mst Cid) :
    Tracks maxDepth (fun _ => True) (levelOf fuel t) (Walker.levelOf t) :=
  (layer_tracks hd t).bind fun p _ => (entries_tracks p.2).bind fun _ _ => tracks_pure trivial

/-! ## Hashing -/

theorem nodeData_tracks {root : Mst Cid → Traversal Cid (Cid × Mst Cid)}
    {root' : Mst Cid → Reading Cid (Cid × Mst Cid)}
    (h : ∀ t, Tracks d (fun _ => True) (root t) (root' t)) (t : Mst Cid) :
    Tracks d (fun _ => True) (nodeData root t) (Mst.nodeData root' t) :=
  (entries_tracks t).bind fun p _ =>
    (serialize_tracks h p.1).bind fun _ _ => tracks_pure trivial

theorem rootIn_tracks {fuel : ℕ} (hd : d < fuel) (t : Mst Cid) :
    Tracks d (fun _ => True) (rootIn fuel t) (Mst.rootIn d t) := by
  induction fuel generalizing d t with
  | zero => omega
  | succ fuel ih =>
    cases d with
    | zero => exact tracks_tooDeep
    | succ d =>
      rw [rootIn, Mst.rootIn]
      apply Tracks.descend
      cases t.pointer? with
      | some cid => exact tracks_pure trivial
      | none =>
        refine (nodeData_tracks (ih (by omega)) t).bind fun p _ => ?_
        exact (tracks_ofExcept (answered_encode _)).bind fun _ _ => tracks_pure trivial

theorem unstoredBlocksIn_tracks {fuel : ℕ} (hd : d < fuel) (t : Mst Cid) :
    Tracks d (fun _ => True) (unstoredBlocksIn fuel t) (Mst.unstoredBlocksIn d t) := by
  induction fuel generalizing d t with
  | zero => omega
  | succ fuel ih =>
    cases d with
    | zero => exact tracks_tooDeep
    | succ d =>
      have hd' : d < fuel := by omega
      rw [unstoredBlocksIn, Mst.unstoredBlocksIn]
      apply Tracks.descend
      refine (rootIn_tracks hd' t).bind fun p _ => ?_
      obtain ⟨root, t⟩ := p
      refine (tracks_contains root).bind fun stored _ => ?_
      cases stored with
      | true => exact tracks_pure trivial
      | false =>
        refine (nodeData_tracks (fun t => rootIn_tracks hd' t) t).bind fun p _ => ?_
        obtain ⟨data, t⟩ := p
        refine (tracks_ofExcept (answered_add _)).bind fun p _ => ?_
        obtain ⟨-, blocks⟩ := p
        refine (entries_tracks t).bind fun p _ => ?_
        obtain ⟨es, t⟩ := p
        exact (unstoredUnder_tracks (ih hd') blocks es).bind fun p _ => tracks_pure trivial

/-! ## Lookups -/

theorem getIn_tracks {fuel : ℕ} (hd : d < fuel) (t : Mst Cid) (key : Str) :
    Tracks d (fun _ => True) (getIn fuel t key) (Mst.getIn d t key) := by
  induction fuel generalizing d t with
  | zero => omega
  | succ fuel ih =>
    cases d with
    | zero => exact tracks_tooDeep
    | succ d =>
      rw [getIn, Mst.getIn]
      apply Tracks.descend
      refine (indexOf_tracks t key).bind fun p _ => ?_
      obtain ⟨index, t⟩ := p
      refine (entries_tracks t).bind fun p _ => ?_
      obtain ⟨es, t⟩ := p
      dsimp only
      cases Mst.leafAt es index key with
      | some value => exact tracks_pure trivial
      | none =>
        cases Mst.treeBefore es index with
        | none => exact tracks_pure trivial
        | some p => exact (ih (by omega) p.2).bind fun p _ => tracks_pure trivial

theorem cidsForPathIn_tracks {fuel : ℕ} (hd : d < fuel) (t : Mst Cid) (key : Str) :
    Tracks d (fun _ => True) (cidsForPathIn fuel t key) (Mst.cidsForPathIn d t key) := by
  induction fuel generalizing d t with
  | zero => omega
  | succ fuel ih =>
    cases d with
    | zero => exact tracks_tooDeep
    | succ d =>
      rw [cidsForPathIn, Mst.cidsForPathIn]
      apply Tracks.descend
      refine (rootIn_tracks (by omega) t).bind fun p _ => ?_
      obtain ⟨root, t⟩ := p
      refine (indexOf_tracks t key).bind fun p _ => ?_
      obtain ⟨index, t⟩ := p
      refine (entries_tracks t).bind fun p _ => ?_
      obtain ⟨es, t⟩ := p
      dsimp only
      cases Mst.leafAt es index key with
      | some value => exact tracks_pure trivial
      | none =>
        cases Mst.treeBefore es index with
        | none => exact tracks_pure trivial
        | some p => exact (ih (by omega) p.2).bind fun p _ => tracks_pure trivial

theorem collectLeaves_tracks {fuel : ℕ} (hd : d < fuel) (t : Mst Cid) :
    Tracks d (fun _ => True) (collectLeaves fuel t) (Mst.collectLeaves d t) := by
  induction fuel generalizing d t with
  | zero => omega
  | succ fuel ih =>
    cases d with
    | zero => exact tracks_tooDeep
    | succ d =>
      rw [collectLeaves, Mst.collectLeaves]
      apply Tracks.descend
      refine (entries_tracks t).bind fun p _ => ?_
      exact (leavesUnder_tracks (ih (by omega)) p.1).bind fun p _ => tracks_pure trivial

/-! ## Building -/

theorem splitAround_tracks {fuel : ℕ} (hd : d < fuel) (t : Mst Cid) (key : Str) :
    Tracks d (fun _ => True) (splitAround fuel t key) (Mst.splitAround d t key) := by
  induction fuel generalizing d t with
  | zero => omega
  | succ fuel ih =>
    cases d with
    | zero => exact tracks_tooDeep
    | succ d =>
      rw [splitAround, Mst.splitAround]
      apply Tracks.descend
      refine (indexOf_tracks t key).bind fun p hp => ?_
      obtain ⟨index, t⟩ := p
      obtain ⟨es, hes, rfl⟩ := hp
      dsimp only at hes ⊢
      refine (takeEntries_tracks t).bind fun es' hes' => ?_
      obtain rfl := hes' es hes
      apply tracks_step (splitOff_eq (position_le es' key))
      dsimp only
      generalize es'.take (Mst.position es' key) = left
      generalize es'.drop (Mst.position es' key) = right
      rcases left.getLast? with _ | leaf | subtree
      · exact tracks_pure trivial
      · exact tracks_pure trivial
      · apply tracks_step (a := subtree) rfl
        exact (ih (by omega) subtree).bind fun p _ => tracks_pure trivial

theorem appendMerge_tracks {fuel : ℕ} (hd : d < fuel) (t other : Mst Cid) :
    Tracks d (fun _ => True) (appendMerge fuel t other) (Mst.appendMerge d t other) := by
  induction fuel generalizing d t other with
  | zero => omega
  | succ fuel ih =>
    cases d with
    | zero => exact tracks_tooDeep
    | succ d =>
      have hd' : d < fuel := by omega
      rw [appendMerge, Mst.appendMerge]
      apply Tracks.descend
      refine (layer_tracks hd' t).bind fun p _ => ?_
      obtain ⟨here, t⟩ := p
      refine (layer_tracks hd' other).bind fun p _ => ?_
      obtain ⟨there, other⟩ := p
      dsimp only
      by_cases hlayer : here ≠ there
      · rw [if_pos hlayer, if_pos hlayer]
        exact tracks_throw trivial
      · rw [if_neg hlayer, if_neg hlayer]
        refine (takeEntries_tracks t).bind fun left _ => ?_
        refine (takeEntries_tracks other).bind fun right _ => ?_
        rcases left.getLast? with _ | leaf | innerLeft
        · exact tracks_pure trivial
        · exact tracks_pure trivial
        · rcases right with _ | ⟨leaf | innerRight, right⟩
          · exact tracks_pure trivial
          · exact tracks_pure trivial
          · apply tracks_step (a := innerLeft) rfl
            apply tracks_step (remove_eq rfl)
            apply tracks_step (a := innerRight) rfl
            refine (ih hd' innerLeft innerRight).bind fun inner _ => ?_
            have hjoin : left.dropLast ++ [.tree inner] ++ right =
                left.dropLast ++ .tree inner :: right := by simp
            rw [← hjoin]
            exact tracks_pure trivial

theorem insert_tracks {fuel : ℕ} (hd : d < fuel) (t : Mst Cid) (key : Str) (value : Cid)
    (zeros : ℕ) : Tracks d (fun _ => True) (insert fuel t key value zeros)
      (Mst.insert d t key value zeros) := by
  induction fuel generalizing d t with
  | zero => omega
  | succ fuel ih =>
    cases d with
    | zero => exact tracks_tooDeep
    | succ d =>
      have hd' : d < fuel := by omega
      rw [insert, Mst.insert]
      apply Tracks.descend
      refine (layer_tracks hd' t).bind fun p _ => ?_
      obtain ⟨layer, t⟩ := p
      dsimp only
      by_cases habove : layer < zeros
      · rw [if_pos habove, if_pos habove]
        refine (splitAround_tracks hd' t key).bind fun p _ => ?_
        exact (tracks_ofExcept (answered_raiseBoth _ _ _)).bind fun p _ => tracks_pure trivial
      · rw [if_neg habove, if_neg habove]
        refine (indexOf_tracks t key).bind fun p hp => ?_
        obtain ⟨index, t⟩ := p
        obtain ⟨es, hes, rfl⟩ := hp
        dsimp only at hes ⊢
        refine (takeEntries_tracks t).bind fun es' hes' => ?_
        obtain rfl := hes' es hes
        have hindex := position_le es' key
        apply tracks_step (treeIndex_eq hindex)
        by_cases hbelow : zeros < layer
        · rw [if_pos hbelow, if_pos hbelow]
          rcases hprev : Mst.treeBefore es' (Mst.position es' key) with _ | ⟨i, subtree⟩
          · refine (ih hd' _).bind fun grown _ => ?_
            exact tracks_step (insertAt_eq hindex _) (tracks_pure trivial)
          · obtain ⟨-, hget⟩ := treeBefore_eq_some hprev
            apply tracks_step (remove_eq hget)
            apply tracks_step (a := subtree) rfl
            refine (ih hd' subtree).bind fun grown _ => ?_
            exact tracks_step (insertAt_eraseIdx (lt_length_of_getElem? hget) _)
              (tracks_pure trivial)
        · rw [if_neg hbelow, if_neg hbelow]
          cases Mst.leafAt es' (Mst.position es' key) key with
          | some held => exact tracks_throw trivial
          | none =>
            rcases hprev : Mst.treeBefore es' (Mst.position es' key) with _ | ⟨i, subtree⟩
            · exact tracks_step (insertAt_eq hindex _) (tracks_pure trivial)
            · obtain ⟨-, hget⟩ := treeBefore_eq_some hprev
              apply tracks_step (remove_eq hget)
              apply tracks_step (a := subtree) rfl
              refine (splitAround_tracks hd' subtree key).bind fun p _ => ?_
              exact tracks_step (splice_eraseIdx (lt_length_of_getElem? hget) _)
                (tracks_pure trivial)

theorem addIn_tracks {fuel : ℕ} (hd : d < fuel) (t : Mst Cid) (key : Str) (value : Cid) :
    Tracks d (fun _ => True) (addIn fuel t key value) (Mst.addIn d t key value) :=
  (tracks_ofExcept (answered_ensureValidKey key)).bind fun _ _ => insert_tracks hd t key value _

theorem updateIn_tracks {fuel : ℕ} (hd : d < fuel) (t : Mst Cid) (key : Str) (value : Cid) :
    Tracks d (fun _ => True) (updateIn fuel t key value) (Mst.updateIn d t key value) := by
  induction fuel generalizing d t with
  | zero => omega
  | succ fuel ih =>
    cases d with
    | zero => exact tracks_tooDeep
    | succ d =>
      rw [updateIn, Mst.updateIn]
      apply Tracks.descend
      refine (tracks_ofExcept (answered_ensureValidKey key)).bind fun _ _ => ?_
      refine (indexOf_tracks t key).bind fun p hp => ?_
      obtain ⟨index, t⟩ := p
      obtain ⟨es, hes, rfl⟩ := hp
      dsimp only at hes ⊢
      refine (takeEntries_tracks t).bind fun es' hes' => ?_
      obtain rfl := hes' es hes
      cases Mst.leafAt es' (Mst.position es' key) key with
      | some held => exact tracks_pure trivial
      | none =>
        apply tracks_step (treeIndex_eq (position_le es' key))
        rcases hprev : Mst.treeBefore es' (Mst.position es' key) with _ | ⟨i, subtree⟩
        · exact tracks_throw trivial
        · obtain ⟨-, hget⟩ := treeBefore_eq_some hprev
          apply tracks_step (remove_eq hget)
          apply tracks_step (a := subtree) rfl
          refine (ih (by omega) subtree).bind fun subtree _ => ?_
          exact tracks_step (insertAt_eraseIdx (lt_length_of_getElem? hget) _) (tracks_pure trivial)

/-- The two subtrees either side of a leaf that is taken out become one. -/
theorem deleteBetween_tracks {fuel : ℕ} (hd : d < fuel) {es : List (Entry Cid)} {index : ℕ}
    {leaf : Leaf Cid} {left right : Mst Cid} (hleaf : es[index]? = some (.leaf leaf))
    (haround : Mst.treesAround es index = some (left, right)) (layer : Option ℕ) :
    Tracks d (fun _ => True)
      (do
        let (right, entries) ← remove es (index + 1)
        let right ← expectTree (some right)
        let (_, entries) ← remove entries index
        let (left, entries) ← remove entries (index - 1)
        let left ← expectTree (some left)
        let merged ← appendMerge fuel left right
        let entries ← insertAt entries (index - 1) (.tree merged)
        return Mst.fromEntries entries layer)
      (do
        let merged ← Mst.appendMerge d left right
        return Mst.fromEntries
          (es.take (index - 1) ++ .tree merged :: es.drop (index + 2)) layer) := by
  unfold Mst.treesAround at haround
  split at haround
  · next i before after hbefore hafter =>
    cases haround
    obtain ⟨rfl, hget⟩ := treeBefore_eq_some hbefore
    have hes := eq_take_append_three hget hleaf hafter
    have hlen : i = (es.take i).length :=
      (List.length_take_of_le (lt_length_of_getElem? hget).le).symm
    have hdrop : es.drop (i + 1 + 2) = es.drop (i + 3) := rfl
    rw [Nat.add_sub_cancel, hdrop]
    generalize es.take i = pre at hes hlen ⊢
    generalize es.drop (i + 3) = post at hes ⊢
    subst hes
    have hright : (remove (pre ++ .tree left :: .leaf leaf :: .tree right :: post) (i + 1 + 1) :
        Traversal Cid _) = pure (.tree right, pre ++ [.tree left, .leaf leaf] ++ post) := by
      have hsplit : pre ++ Entry.tree left :: .leaf leaf :: .tree right :: post =
        (pre ++ [.tree left, .leaf leaf]) ++ .tree right :: post := by simp
      rw [hsplit]
      exact remove_append _ post _ (by simp [hlen])
    have hmiddle : (remove (pre ++ [.tree left, .leaf leaf] ++ post) (i + 1) :
        Traversal Cid _) = pure (.leaf leaf, pre ++ [.tree left] ++ post) := by
      have hsplit : (pre ++ [Entry.tree left, .leaf leaf]) ++ post =
        (pre ++ [.tree left]) ++ .leaf leaf :: post := by simp
      rw [hsplit]
      exact remove_append _ post _ (by simp [hlen])
    have hleft : (remove (pre ++ [.tree left] ++ post) i : Traversal Cid _) =
        pure (.tree left, pre ++ post) := by
      have hsplit : (pre ++ [Entry.tree left]) ++ post = pre ++ .tree left :: post := by simp
      rw [hsplit]
      exact remove_append _ post _ hlen
    apply tracks_step hright
    apply tracks_step (a := right) rfl
    apply tracks_step hmiddle
    apply tracks_step hleft
    apply tracks_step (a := left) rfl
    refine (appendMerge_tracks hd left right).bind fun merged _ => ?_
    exact tracks_step (insertAt_append pre post _ hlen) (tracks_pure trivial)
  · cases haround

theorem deleteRecurse_tracks {fuel : ℕ} (hd : d < fuel) (t : Mst Cid) (key : Str) :
    Tracks d (fun _ => True) (deleteRecurse fuel t key) (Mst.deleteRecurse d t key) := by
  induction fuel generalizing d t with
  | zero => omega
  | succ fuel ih =>
    cases d with
    | zero => exact tracks_tooDeep
    | succ d =>
      have hd' : d < fuel := by omega
      rw [deleteRecurse, Mst.deleteRecurse]
      apply Tracks.descend
      refine (indexOf_tracks t key).bind fun p hp => ?_
      obtain ⟨index, t⟩ := p
      obtain ⟨es, hes, rfl⟩ := hp
      dsimp only at hes ⊢
      refine (takeEntries_tracks t).bind fun es' hes' => ?_
      obtain rfl := hes' es hes
      have hindex := position_le es' key
      cases hleaf : Mst.leafAt es' (Mst.position es' key) key with
      | some held =>
        obtain ⟨leaf, hget⟩ := leafAt_eq_some hleaf
        apply tracks_step (between_eq hindex)
        rcases haround : Mst.treesAround es' (Mst.position es' key) with _ | ⟨left, right⟩
        · exact tracks_step (remove_eq hget) (tracks_pure trivial)
        · exact deleteBetween_tracks hd' hget haround t.layer?
      | none =>
        apply tracks_step (treeIndex_eq hindex)
        rcases hprev : Mst.treeBefore es' (Mst.position es' key) with _ | ⟨i, subtree⟩
        · exact tracks_throw trivial
        · obtain ⟨-, hget⟩ := treeBefore_eq_some hprev
          apply tracks_step (remove_eq hget)
          apply tracks_step (a := subtree) rfl
          refine (ih hd' subtree).bind fun shrunk _ => ?_
          refine (entries_tracks shrunk).bind fun p _ => ?_
          obtain ⟨inside, shrunk⟩ := p
          cases inside with
          | nil => exact tracks_pure trivial
          | cons e inside =>
            exact tracks_step (insertAt_eraseIdx (lt_length_of_getElem? hget) _)
              (tracks_pure trivial)

theorem trimTop_tracks {fuel : ℕ} (hd : d < fuel) (t : Mst Cid) :
    Tracks d (fun _ => True) (trimTop fuel t) (Mst.trimTop d t) := by
  induction fuel generalizing d t with
  | zero => omega
  | succ fuel ih =>
    cases d with
    | zero => exact tracks_tooDeep
    | succ d =>
      rw [trimTop, Mst.trimTop]
      apply Tracks.descend
      refine (fill_tracks t).attempt.bind fun r hr => ?_
      obtain ⟨hanswered, hfilled⟩ := hr
      cases r with
      | error e =>
        cases e
        case missingBlock cid => exact tracks_pure trivial
        all_goals exact tracks_throw (hanswered _ rfl)
      | ok t' =>
        obtain ⟨es, hes⟩ := hfilled t' rfl
        have htake := takeEntries_eq hes
        dsimp only
        rw [hes]
        rcases es with _ | ⟨leaf | subtree, _ | ⟨e, es⟩⟩
        · exact tracks_pure trivial
        · exact tracks_pure trivial
        · exact tracks_pure trivial
        · apply tracks_step htake
          apply tracks_step (remove_eq rfl)
          apply tracks_step (a := subtree) rfl
          exact ih (by omega) subtree
        · exact tracks_pure trivial

theorem deleteIn_tracks {fuel : ℕ} (hd : d < fuel) (t : Mst Cid) (key : Str) :
    Tracks d (fun _ => True) (deleteIn fuel t key) (Mst.deleteIn d t key) :=
  (deleteRecurse_tracks hd t key).bind fun t _ => trimTop_tracks hd t

end

end Frames

end Manapds
