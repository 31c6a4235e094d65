import Manapds.Account.Subject
import Manapds.Repo.Session

/-!
# What a consumer makes of the log

A consumer keeps the keys of a repository and what is at them, and carries out the operations of an
entry one by one, each of which says what it finds at its key. What an operation says was read
before the batch, so it tells the truth where nothing before it in the batch has changed its key.
Requests ask for a key each. It is the records a request takes out, to make way for its own, that
may be at a key some other request writes, or at its own.
-/

namespace Manapds

open KeyedList

variable {Cid : Type} [DecidableEq Cid]

/-- One operation, carried out by a consumer that holds it to what it says it finds. -/
def Op.apply (op : Op Cid) (held : Str → Option Cid) : Option (Str → Option Cid) :=
  match op.action with
  | .create =>
    if held op.path = none ∧ op.prev = none then some (Function.update held op.path op.cid) else none
  | .update =>
    if op.prev ≠ none ∧ held op.path = op.prev then some (Function.update held op.path op.cid)
    else none
  | .delete =>
    if op.prev ≠ none ∧ held op.path = op.prev then some (Function.update held op.path none)
    else none

def replay : List (Op Cid) → (Str → Option Cid) → Option (Str → Option Cid)
  | [], held => some held
  | op :: rest, held => (op.apply held).bind (replay rest)

/-! ## Keys touched more than once -/

section

variable {κ β : Type} [DecidableEq κ]

/-- Every key is found to hold what it did before, while each in turn is given something new. -/
def Found (before : κ → β) : List (κ × β) → (κ → β) → Prop
  | [], _ => True
  | touch :: rest, held =>
    held touch.1 = before touch.1 ∧ Found before rest (Function.update held touch.1 touch.2)

theorem found_iff {before : κ → β} {touches : List (κ × β)} {held : κ → β} :
    Found before touches held ↔ (∀ touch ∈ touches, held touch.1 = before touch.1) ∧
      touches.Pairwise fun touch later => touch.1 = later.1 → touch.2 = before touch.1 := by
  induction touches generalizing held with
  | nil => simp [Found]
  | cons touch rest ih =>
    have hupdate : ∀ later : κ × β, held touch.1 = before touch.1 →
        (Function.update held touch.1 touch.2 later.1 = before later.1 ↔
          if touch.1 = later.1 then touch.2 = before touch.1 else held later.1 = before later.1) := by
      intro later _
      by_cases hk : touch.1 = later.1
      · rw [if_pos hk, ← hk, Function.update_self]
      · rw [if_neg hk, Function.update_of_ne (Ne.symm hk)]
    rw [Found, ih, List.forall_mem_cons, List.pairwise_cons]
    constructor
    · rintro ⟨hself, hrest, hpair⟩
      refine ⟨⟨hself, ?_⟩, ?_, hpair⟩
      · intro later hm
        have h := (hupdate later hself).mp (hrest later hm)
        split_ifs at h with hk
        · rw [← hk, hself]
        · exact h
      · intro later hm hk
        have h := (hupdate later hself).mp (hrest later hm)
        rwa [if_pos hk] at h
    · rintro ⟨⟨hself, hrest⟩, hagain, hpair⟩
      refine ⟨hself, ?_, hpair⟩
      intro later hm
      apply (hupdate later hself).mpr
      split_ifs with hk
      · exact hagain later hm hk
      · exact hrest later hm

end

/-! ## What the operations tell -/

section

variable [Codec Cid] {xs ys zs : List (Leaf Cid)} {did : Did} {tables : Tables Cid} {plan : Plan Cid}

omit [DecidableEq Cid] in
theorem Write.cid_of_encoded {write : Write Cid} {cid : Option Cid} (h : write.encoded = .ok cid) :
    write.cid = cid := by
  unfold Write.encoded at h
  unfold Write.cid
  cases hv : write.record with
  | none =>
    rw [hv] at h
    cases h
    rfl
  | some value =>
    rw [hv] at h
    dsimp only at h
    rw [Option.bind_some]
    cases he : (encode value.ipld : Except (RepoError Cid) Bytes) with
    | error e =>
      rw [he] at h
      cases h
    | ok bytes =>
      rw [he] at h
      cases h
      rfl

/-- An operation of the log tells its write, and what was at its key in some leaves. -/
structure Planned.Tells (held : Str → Option Cid) (p : Planned Cid) : Prop where
  path : p.op.path = p.write.key
  cid : p.op.cid = p.write.cid
  action : p.op.action = p.write.action p.op.prev
  prev : p.op.prev = held p.write.key

def Planned.touch (p : Planned Cid) : Str × Option Cid := (p.write.key, p.write.cid)

omit [DecidableEq Cid] in
theorem Write.contentsOf_after {write : Write Cid} (ho : Ordered Leaf.key ys)
    (h : write.after ys = some zs) :
    contentsOf zs = Function.update (contentsOf ys) write.key write.cid := by
  rcases Write.after_cases h with ⟨value, cid, -, hc, rfl⟩ | ⟨hv, -, rfl⟩
  · rw [contentsOf_put ho, hc]
  · have hc : write.cid = none := by
      rw [Write.cid, hv]
      rfl
    rw [contentsOf_take ho, hc]

omit [DecidableEq Cid] in
/-- A write finds its key as it wants it. -/
theorem Write.found_of_after {write : Write Cid} (h : write.after ys = some zs) (prev : Option Cid)
    (hp : contentsOf ys write.key = prev) :
    write.action prev = .create ∧ prev = none ∨ write.action prev = .update ∧ prev ≠ none ∨
      write.action prev = .delete ∧ prev ≠ none ∧ write.cid = none := by
  subst hp
  have hfind : (find Leaf.key write.key ys).isSome = (contentsOf ys write.key).isSome := by
    rw [contentsOf, Option.isSome_map]
  unfold Write.after at h
  dsimp only at h
  rw [hfind] at h
  cases write with
  | create collection rkey value =>
    dsimp only at h
    split_ifs at h with hheld
    exact Or.inl ⟨rfl, Option.not_isSome_iff_eq_none.mp hheld⟩
  | update collection rkey value =>
    dsimp only at h
    split_ifs at h with hheld
    exact Or.inr (Or.inl ⟨rfl, Option.isSome_iff_ne_none.mp hheld⟩)
  | put collection rkey value =>
    by_cases hheld : (contentsOf ys (Write.put collection rkey value).key).isSome = true
    · exact Or.inr (Or.inl ⟨if_pos hheld, Option.isSome_iff_ne_none.mp hheld⟩)
    · exact Or.inl ⟨if_neg hheld, Option.not_isSome_iff_eq_none.mp hheld⟩
  | delete collection rkey =>
    dsimp only at h
    split_ifs at h with hheld
    exact Or.inr (Or.inr ⟨rfl, Option.isSome_iff_ne_none.mp hheld, rfl⟩)

/-- An operation whose write goes through is accepted where it tells what is there. -/
theorem Op.apply_eq {held : Str → Option Cid} {p : Planned Cid} (ht : p.Tells held)
    (ho : Ordered Leaf.key ys) (h : p.write.after ys = some zs) :
    p.op.apply (contentsOf ys) =
      if contentsOf ys p.write.key = held p.write.key then some (contentsOf zs) else none := by
  rw [Write.contentsOf_after ho h]
  obtain ⟨hpath, hcid, haction, hprev⟩ := ht
  rw [← hprev]
  by_cases hfound : contentsOf ys p.write.key = p.op.prev
  · rw [if_pos hfound, Op.apply, hpath, hcid, haction]
    rcases Write.found_of_after h _ hfound with ⟨ha, hp⟩ | ⟨ha, hp⟩ | ⟨ha, hp, hnone⟩
    · rw [ha]
      exact if_pos ⟨hfound.trans hp, hp⟩
    · rw [ha]
      exact if_pos ⟨hp, hfound⟩
    · rw [ha, hnone]
      exact if_pos ⟨hp, hfound⟩
  · rw [if_neg hfound, Op.apply, hpath]
    cases p.op.action with
    | create => exact if_neg fun hc => hfound (hc.1.trans hc.2.symm)
    | update => exact if_neg fun hc => hfound hc.2
    | delete => exact if_neg fun hc => hfound hc.2

/-- Operations whose writes go through are accepted where each finds its key as it was. -/
theorem replay_iff {held : Str → Option Cid} {planned : List (Planned Cid)}
    (ht : ∀ p ∈ planned, p.Tells held) (ho : Ordered Leaf.key ys)
    (h : leavesAfter (planned.map Planned.write) ys = some zs) :
    replay (planned.map Planned.op) (contentsOf ys) = some (contentsOf zs) ↔
      Found held (planned.map Planned.touch) (contentsOf ys) := by
  induction planned generalizing ys with
  | nil =>
    obtain rfl := Option.some.inj h
    exact ⟨fun _ => trivial, fun _ => rfl⟩
  | cons p rest ih =>
    obtain ⟨next, hnext, hrest⟩ := Option.bind_eq_some_iff.mp h
    have hih := ih (fun q hq => ht q (List.mem_cons_of_mem p hq)) (Write.after_ordered hnext ho) hrest
    rw [List.map_cons, List.map_cons, replay, Found, Op.apply_eq (ht p List.mem_cons_self) ho hnext]
    have htouch : Function.update (contentsOf ys) p.touch.1 p.touch.2 = contentsOf next :=
      (Write.contentsOf_after ho hnext).symm
    rw [htouch, ← hih]
    by_cases hfound : contentsOf ys p.write.key = held p.write.key
    · rw [if_pos hfound, Option.bind_some]
      exact (and_iff_right hfound).symm
    · rw [if_neg hfound]
      exact ⟨fun hc => (Option.some_ne_none _ hc.symm).elim, fun hc => absurd hc.1 hfound⟩

/-! ## What a plan touches -/

/-- A request that asks to be left out where its key holds nothing, and finds nothing there. -/
def Requested.skips (asked : Requested Cid) (held : Str → Option Cid) : Bool :=
  (held asked.write.key).isNone && decide (asked.missing = .skip)

/-- The keys a request takes records out from, to make way for its own. -/
def Tables.makesWay (tables : Tables Cid) (asked : Requested Cid) : List Str :=
  if asked.conflicts = .supersede ∧ Backlink.heldToOne asked.write.collection = true then
    asked.write.links.flatMap fun link =>
      (tables.pointingAt asked.write.collection link).map (recordPath asked.write.collection)
  else []

/-- The keys a request touches in turn, and what it leaves there. -/
def Tables.touches (tables : Tables Cid) (asked : Requested Cid) : List (Str × Option Cid) :=
  (tables.makesWay asked).map (fun key => (key, none)) ++ [(asked.write.key, asked.write.cid)]

omit [DecidableEq Cid] in
theorem supersededOn_touches (asked : Requested Cid) :
    (tables.supersededOn xs asked).map Planned.touch =
      (tables.makesWay asked).map (fun key => (key, none)) ∧
    ∀ p ∈ tables.supersededOn xs asked, p.Tells (contentsOf xs) := by
  constructor
  · unfold Tables.supersededOn Tables.makesWay
    split_ifs
    · rw [List.map_flatMap, List.map_flatMap]
      congr 1
      funext link
      rw [List.map_map, List.map_map]
      rfl
    · rfl
  · intro p hp
    obtain ⟨-, -, link, -, held, -, rfl⟩ := Tables.mem_supersededOn hp
    exact ⟨rfl, rfl, rfl, rfl⟩

variable [CidText Cid]

/-- What a plan touches, and that what its operations say is of before the batch. -/
theorem planOn_touches {requested : List (Requested Cid)}
    (h : tables.planOn did xs requested = .ok plan) :
    plan.planned.map Planned.touch =
      (requested.filter fun asked => !asked.skips (contentsOf xs)).flatMap tables.touches ∧
    ∀ p ∈ plan.planned, p.Tells (contentsOf xs) := by
  induction requested generalizing plan with
  | nil =>
    cases h
    exact ⟨rfl, fun p hp => absurd hp List.not_mem_nil⟩
  | cons asked rest ih =>
    by_cases hskip : (heldAt xs asked.write.collection asked.write.rkey).isNone = true ∧
        asked.missing = .skip
    · have hskips : asked.skips (contentsOf xs) = true :=
        Bool.and_eq_true_iff.mpr ⟨hskip.1, decide_eq_true hskip.2⟩
      unfold Tables.planOn at h
      dsimp only at h
      rw [if_pos hskip] at h
      rw [List.filter_cons_of_neg (by simp [hskips])]
      exact ih h
    · have hskips : ¬asked.skips (contentsOf xs) = true := by
        intro hs
        obtain ⟨hnone, hmissing⟩ := Bool.and_eq_true_iff.mp hs
        exact hskip ⟨hnone, of_decide_eq_true hmissing⟩
      rcases Tables.planOn_cons h with ⟨hnone, hmissing, -⟩ |
        ⟨blobs, cid, others, -, -, hc, hrest, rfl⟩
      · exact absurd ⟨Option.isNone_iff_eq_none.mpr hnone, hmissing⟩ hskip
      obtain ⟨htouches, htells⟩ := ih hrest
      have htaken : (tables.supersededOn xs asked).map Planned.touch =
          (tables.makesWay asked).map (fun key => (key, none)) := (supersededOn_touches asked).1
      have htakes : ∀ p ∈ tables.supersededOn xs asked, p.Tells (contentsOf xs) :=
        (supersededOn_touches asked).2
      have hcid := Write.cid_of_encoded hc
      constructor
      · rw [List.filter_cons_of_pos (by simp [hskips]), List.flatMap_cons, ← htouches]
        rw [List.map_append, List.map_cons, htaken, Tables.touches, List.append_assoc,
          List.singleton_append, Planned.touch]
      · intro p hp
        rcases List.mem_append.mp hp with hp | hp
        · exact htakes p hp
        · rcases List.mem_cons.mp hp with rfl | hp
          · exact ⟨rfl, hcid.symm, rfl, rfl⟩
          · exact htells p hp

end

/-! ## Where the operations replay -/

/-- No request takes out a record at its own key, nor one that a later request writes or takes out
too, and where one takes out what an earlier request wrote, that was what was there before. -/
structure Tables.Apart [Codec Cid] (tables : Tables Cid) (held : Str → Option Cid)
    (requested : List (Requested Cid)) : Prop where
  own : ∀ asked ∈ requested, asked.write.key ∉ tables.makesWay asked
  others : requested.Pairwise fun earlier later =>
    (∀ key ∈ tables.makesWay earlier, key ≠ later.write.key ∧ key ∉ tables.makesWay later) ∧
    (earlier.write.key ∈ tables.makesWay later → earlier.write.cid = held earlier.write.key)

section

variable [Codec Cid] {tables : Tables Cid} {held : Str → Option Cid} {asked earlier later : Requested Cid}

/-- A touch that leaves its key as it was, for whatever touches it later. -/
def Leaves (held : Str → Option Cid) (touch later : Str × Option Cid) : Prop :=
  touch.1 = later.1 → touch.2 = held touch.1

omit [DecidableEq Cid] in
theorem mem_touches {touch : Str × Option Cid} : touch ∈ tables.touches asked ↔
    (∃ key ∈ tables.makesWay asked, (key, none) = touch) ∨
      touch = (asked.write.key, asked.write.cid) := by
  rw [Tables.touches, List.mem_append, List.mem_map, List.mem_singleton]

omit [DecidableEq Cid] in
theorem pairwise_touches_iff (hheld : ∀ key ∈ tables.makesWay asked, held key ≠ none)
    (hnodup : (tables.makesWay asked).Nodup) :
    (tables.touches asked).Pairwise (Leaves held) ↔ asked.write.key ∉ tables.makesWay asked := by
  rw [Tables.touches, List.pairwise_append, List.pairwise_map]
  constructor
  · rintro ⟨-, -, hlast⟩ hmem
    have hnone := hlast _ (List.mem_map_of_mem hmem) _ List.mem_cons_self rfl
    exact hheld _ hmem hnone.symm
  · intro hnot
    refine ⟨hnodup.imp fun hne heq => absurd heq hne, List.pairwise_singleton _ _, ?_⟩
    intro touch htouch last hlast heq
    obtain ⟨key, hkey, rfl⟩ := List.mem_map.mp htouch
    obtain rfl := List.mem_singleton.mp hlast
    obtain rfl : key = asked.write.key := heq
    exact absurd hkey hnot

omit [DecidableEq Cid] in
theorem touches_leave_iff (hheld : ∀ key ∈ tables.makesWay earlier, held key ≠ none)
    (hne : earlier.write.key ≠ later.write.key) :
    (∀ touch ∈ tables.touches earlier, ∀ after ∈ tables.touches later, Leaves held touch after) ↔
      (∀ key ∈ tables.makesWay earlier, key ≠ later.write.key ∧ key ∉ tables.makesWay later) ∧
      (earlier.write.key ∈ tables.makesWay later → earlier.write.cid = held earlier.write.key) := by
  constructor
  · intro h
    refine ⟨fun key hkey => ⟨?_, ?_⟩, ?_⟩
    · intro heq
      have hnone := h _ (mem_touches.mpr (Or.inl ⟨key, hkey, rfl⟩)) _ (mem_touches.mpr (Or.inr rfl)) heq
      exact hheld key hkey hnone.symm
    · intro hagain
      have hnone := h _ (mem_touches.mpr (Or.inl ⟨key, hkey, rfl⟩)) _
        (mem_touches.mpr (Or.inl ⟨key, hagain, rfl⟩)) rfl
      exact hheld key hkey hnone.symm
    · intro hmem
      exact h _ (mem_touches.mpr (Or.inr rfl)) _ (mem_touches.mpr (Or.inl ⟨_, hmem, rfl⟩)) rfl
  · rintro ⟨htaken, hwritten⟩ touch htouch after hafter heq
    rcases mem_touches.mp htouch with ⟨key, hkey, rfl⟩ | rfl
    · rcases mem_touches.mp hafter with ⟨key', hkey', rfl⟩ | rfl
      · obtain rfl : key = key' := heq
        exact absurd hkey' (htaken key hkey).2
      · exact absurd heq (htaken key hkey).1
    · rcases mem_touches.mp hafter with ⟨key', hkey', rfl⟩ | rfl
      · obtain rfl : earlier.write.key = key' := heq
        exact hwritten hkey'
      · exact absurd heq hne

omit [DecidableEq Cid] in
theorem apart_iff {requested : List (Requested Cid)}
    (hheld : ∀ asked : Requested Cid, ∀ key ∈ tables.makesWay asked, held key ≠ none)
    (hnodup : ∀ asked : Requested Cid, (tables.makesWay asked).Nodup)
    (hkeys : (requested.map fun asked => asked.write.key).Nodup) :
    (requested.flatMap tables.touches).Pairwise (Leaves held) ↔ tables.Apart held requested := by
  have hne := List.pairwise_map.mp hkeys
  rw [List.pairwise_flatMap]
  constructor
  · rintro ⟨hown, hothers⟩
    refine ⟨fun asked hm => (pairwise_touches_iff (hheld asked) (hnodup asked)).mp (hown asked hm), ?_⟩
    apply (hne.and hothers).imp
    intro earlier later h
    exact (touches_leave_iff (hheld earlier) h.1).mp h.2
  · rintro ⟨hown, hothers⟩
    refine ⟨fun asked hm => (pairwise_touches_iff (hheld asked) (hnodup asked)).mpr (hown asked hm), ?_⟩
    apply (hne.and hothers).imp
    intro earlier later h
    exact (touches_leave_iff (hheld earlier) h.1).mpr h.2

end

section

variable [Codec Cid] [LawfulCodec Cid] {did : Did} {tables : Tables Cid} {repo : Repo Cid} {ℓ : ℕ}
  {xs : List (Leaf Cid)}

/-- A record that makes way is in the tree, and is named once. -/
theorem Tables.Carries.makesWay (h : tables.Carries did repo ℓ xs) (asked : Requested Cid) :
    (∀ key ∈ tables.makesWay asked, contentsOf xs key ≠ none) ∧ (tables.makesWay asked).Nodup := by
  unfold Tables.makesWay
  split_ifs
  · constructor
    · intro key hkey
      obtain ⟨link, -, hkey⟩ := List.mem_flatMap.mp hkey
      obtain ⟨rkey, hrkey, rfl⟩ := List.mem_map.mp hkey
      rw [contentsOf, ← Option.isSome_iff_ne_none, Option.isSome_map]
      exact h.isSome_find_pointingAt hrkey
    · cases hl : asked.write.links with
      | nil => exact List.nodup_nil
      | cons link rest =>
        have hone : asked.write.links = [link] := by
          have hmem : link ∈ asked.write.links := by
            rw [hl]
            exact List.mem_cons_self
          unfold Write.links at hmem ⊢
          cases hv : asked.write.record with
          | none =>
            rw [hv] at hmem
            cases hmem
          | some value =>
            rw [hv] at hmem
            exact Backlink.of_eq_singleton hmem
        rw [← hl, hone, List.flatMap_singleton]
        apply (h.mirrors.nodup_pointingAt asked.write.collection link).map
        intro rkey rkey' heq
        exact (recordPath_inj.mp heq).2
  · exact ⟨fun key hkey => absurd hkey List.not_mem_nil, List.nodup_nil⟩

variable [CidText Cid] {m : Moved Cid} {worked : Worked Cid} {next : Repo Cid} {ℓ' : ℕ}
  {xs' : List (Leaf Cid)}

theorem Moved.Lands.replay_iff (h : m.Lands did repo ℓ xs worked next ℓ' xs')
    (hkeys : (m.job.requested.map fun asked => asked.write.key).Nodup) :
    replay worked.plan.ops (contentsOf xs) = some (contentsOf xs') ↔
      m.before.Apart (contentsOf xs)
        (m.job.requested.filter fun asked => !asked.skips (contentsOf xs)) := by
  obtain ⟨start, -, -, hworks⟩ := h.alone
  obtain ⟨-, -, -, -, -, -, -, hplan, -⟩ := hworks.exists_apply
  obtain ⟨htouches, htells⟩ := planOn_touches hplan
  have hway := fun asked => h.before.makesWay asked
  rw [Plan.ops, Manapds.replay_iff htells h.before.stands.data.keyed.ordered h.leaves, found_iff,
    htouches, ← apart_iff (fun asked => (hway asked).1) (fun asked => (hway asked).2)
      (hkeys.sublist (List.filter_sublist.map _))]
  exact and_iff_right fun touch _ => rfl

/-- What the log says of a batch replays to the revision it left where the records that make way in it
keep apart from what else it writes, and nowhere else. -/
theorem ops_replay_iff {w : World Cid} (h : World.Reachable did w) : ∀ m ∈ w.moved,
    (m.job.requested.map fun asked => asked.write.key).Nodup →
    (∃ repo ℓ xs worked next ℓ' xs', m.Lands did repo ℓ xs worked next ℓ' xs') ∧
    ∀ repo ℓ xs worked next ℓ' xs' committed, m.Lands did repo ℓ xs worked next ℓ' xs' →
      m.outcome = .done (.ok (some (worked.landed committed))) →
      (replay (worked.landed committed).ops (contentsOf xs) = some (contentsOf xs') ↔
        m.before.Apart (contentsOf xs)
          (m.job.requested.filter fun asked => !asked.skips (contentsOf xs))) :=
  fun m hm hkeys => ⟨h.sound.lands m hm, fun _ _ _ _ _ _ _ _ hlands _ => hlands.replay_iff hkeys⟩

end

section

open DagCbor

/-- A follow made at another key takes out the one there was, and the log tells both. -/
theorem ops_replay_iff_followed : ∃ (w : World RawCid) (m : Moved RawCid) (xs xs' : List (Leaf RawCid))
    (worked : Worked RawCid) (committed : Committed RawCid), m ∈ w.moved ∧
    m.job.requested = [createRecord followCollection otherKey (followRecord (text "2"))] ∧
    m.outcome = .done (.ok (some (worked.landed committed))) ∧
    contentsOf xs (recordPath followCollection recordKey) ≠ none ∧
    contentsOf xs' (recordPath followCollection recordKey) = none ∧
    replay (worked.landed committed).ops (contentsOf xs) = some (contentsOf xs') := by
  obtain ⟨w, first, second, hw, hmoved, hd, hd', hasked, hasked', hbefore, hempty⟩ :=
    exists_followed recordKey otherKey (text "1") (text "2")
  have hfirst : first ∈ w.moved := by simp [hmoved]
  have hsecond : second ∈ w.moved := by simp [hmoved]
  obtain ⟨_, _, _, _, _, _, _, hl⟩ := hw.sound.lands first hfirst
  obtain ⟨hself, hother⟩ := hl.find_record hd hasked rfl (followLink_mem _)
  have hkeys : (second.job.requested.map fun asked => asked.write.key).Nodup := by
    rw [hasked']
    exact List.nodup_singleton _
  obtain ⟨⟨repo, ℓ, xs, worked, next, ℓ', xs', hlands⟩, hiff⟩ := ops_replay_iff hw second hsecond hkeys
  obtain ⟨committed, hcommitted⟩ := hlands.outcome
  have hne : uri recordDid followCollection recordKey ≠ uri recordDid followCollection otherKey := by
    decide
  have hpoints : recordKey ∈ second.before.pointingAt followCollection followLink := by
    apply hlands.before.mirrors.mem_pointingAt.mpr
    rw [hbefore]
    exact ⟨_, hself, followLink_mem _⟩
  have hstood : contentsOf xs (recordPath followCollection recordKey) ≠ none := by
    rw [contentsOf, ← Option.isSome_iff_ne_none, Option.isSome_map]
    exact hlands.before.isSome_find_pointingAt hpoints
  have hgone : contentsOf xs' (recordPath followCollection recordKey) = none := by
    obtain ⟨-, hother'⟩ := hlands.find_record hd' hasked' rfl (followLink_mem _)
    have hagree := hlands.after.agree (recordPath followCollection recordKey)
    rw [← uri_eq_uriAt, hother' _ hne, if_pos (List.mem_map_of_mem hpoints)] at hagree
    exact hagree.symm
  refine ⟨w, second, xs, xs', worked, committed, hsecond, hasked', hcommitted, hstood, hgone, ?_⟩
  apply (hiff repo ℓ xs worked next ℓ' xs' committed hlands hcommitted).mpr
  -- The one follow that makes way is at a key of its own.
  have hway : recordPath followCollection otherKey ∉ second.before.makesWay
      (createRecord followCollection otherKey (followRecord (text "2"))) := by
    unfold Tables.makesWay
    rw [if_pos ⟨rfl, followCollection_heldToOne⟩]
    intro hmem
    obtain ⟨link, hlink, hmem⟩ := List.mem_flatMap.mp hmem
    obtain rfl : link = followLink := List.mem_singleton.mp hlink
    obtain ⟨rkey, hrkey, hpath⟩ := List.mem_map.mp hmem
    obtain rfl : rkey = otherKey := (recordPath_inj.mp hpath).2
    obtain ⟨held, ⟨row, bytes, hrow, he, hcid⟩, -⟩ := hlands.before.mirrors.mem_pointingAt.mp hrkey
    change Table.find RecordRow.uri (uri recordDid followCollection otherKey) _ = _ at hrow
    rw [hbefore, hother _ hne.symm] at hrow
    split_ifs at hrow
    exact hempty _ held ⟨row, bytes, hrow, he, hcid⟩
  constructor
  · intro asked hmem
    replace hmem := List.mem_of_mem_filter hmem
    rw [hasked'] at hmem
    obtain rfl := List.mem_singleton.mp hmem
    exact hway
  · apply List.Pairwise.sublist List.filter_sublist
    rw [hasked']
    exact List.pairwise_singleton _ _

/-- A follow made again at the key the first is at is told as made where something stood. -/
theorem not_replay_followed : ∃ (w : World RawCid) (m : Moved RawCid) (repo : Repo RawCid) (ℓ : ℕ)
    (xs : List (Leaf RawCid)) (worked : Worked RawCid) (next : Repo RawCid) (ℓ' : ℕ)
    (xs' : List (Leaf RawCid)), World.Reachable recordDid w ∧ m ∈ w.moved ∧
    m.job.requested = [createRecord followCollection recordKey (followRecord (text "2"))] ∧
    m.Lands recordDid repo ℓ xs worked next ℓ' xs' ∧
    replay worked.plan.ops (contentsOf xs) ≠ some (contentsOf xs') := by
  obtain ⟨w, first, second, hw, hmoved, hd, -, hasked, hasked', hbefore, -⟩ :=
    exists_followed recordKey recordKey (text "1") (text "2")
  have hfirst : first ∈ w.moved := by simp [hmoved]
  have hsecond : second ∈ w.moved := by simp [hmoved]
  obtain ⟨_, _, _, _, _, _, _, hl⟩ := hw.sound.lands first hfirst
  obtain ⟨hself, -⟩ := hl.find_record hd hasked rfl (followLink_mem _)
  obtain ⟨repo, ℓ, xs, worked, next, ℓ', xs', hlands⟩ := hw.sound.lands second hsecond
  refine ⟨w, second, repo, ℓ, xs, worked, next, ℓ', xs', hw, hsecond, hasked', hlands, ?_⟩
  have hpoints : recordKey ∈ second.before.pointingAt followCollection followLink := by
    apply hlands.before.mirrors.mem_pointingAt.mpr
    rw [hbefore]
    exact ⟨_, hself, followLink_mem _⟩
  have hway : recordPath followCollection recordKey ∈ second.before.makesWay
      (createRecord followCollection recordKey (followRecord (text "2"))) := by
    unfold Tables.makesWay
    rw [if_pos ⟨rfl, followCollection_heldToOne⟩]
    exact List.mem_flatMap.mpr ⟨followLink, followLink_mem (text "2"), List.mem_map_of_mem hpoints⟩
  have hkeys : (second.job.requested.map fun asked => asked.write.key).Nodup := by
    rw [hasked']
    exact List.nodup_singleton _
  intro hreplay
  have hapart := (hlands.replay_iff hkeys).mp hreplay
  rw [hasked'] at hapart
  have hskips : (createRecord followCollection recordKey (followRecord (text "2"))).skips
      (contentsOf xs) = false := Bool.and_false _
  have hmem : createRecord followCollection recordKey (followRecord (text "2")) ∈
      [createRecord followCollection recordKey (followRecord (text "2"))].filter
        fun asked => !asked.skips (contentsOf xs) := by
    rw [List.filter_cons_of_pos (by rw [hskips]; rfl)]
    exact List.mem_cons_self
  exact hapart.own _ hmem hway

end

end Manapds
