import Manapds.Account.Incremental
import Manapds.Repo.Session
import Manapds.Xrpc.Records

/-!
# Walking a repository

A repository says which collections it has records in. Whoever follows the cursors of one after
another, by pages of any size and from either end, is shown the records of the tree, each once; and
the tree they make, added in the order they came, is the one the commit names, unless that has a
lone pointer for its top node.
-/

namespace Manapds

open KeyedList Shape QueryProgram Routine

variable {Cid : Type}

/-- Every collection the index has a record in. -/
def Tables.collections (tables : Tables Cid) : List Nsid :=
  Paging.sorted (fun collection : Nsid => OrderDual.toDual collection.str)
    (tables.record.map RecordRow.collection).dedup

/-- How a collection is asked for: how many records to a page, and from which end. -/
abbrev Asking := Nsid → Option ℕ × Bool

section

variable [DecidableEq Cid] [JsonCodec Cid] [ValueCodec Cid]

/-- Follows the cursors of one collection after another. -/
def Tables.walk (tables : Tables Cid) (did : Did) (asking : Asking) (rounds : ℕ) :
    List Nsid → Option (Except (RepoError Cid) (List Held))
  | [] => some (.ok [])
  | collection :: rest => do
    let held ← Paging.follow (listRecords tables did collection (asking collection).1
      (asking collection).2) rounds none
    let more ← walk tables did asking rounds rest
    return held.bind fun held => more.map (held ++ ·)

end

/-! ## The collections -/

section

variable {tables : Tables Cid}

theorem Tables.mem_collections {collection : Nsid} :
    collection ∈ tables.collections ↔ ∃ row ∈ tables.record, row.collection = collection := by
  rw [collections, Paging.sorted_perm.mem_iff, List.mem_dedup, List.mem_map]

theorem Tables.pairwise_collections :
    tables.collections.Pairwise fun a b => a.str < b.str := by
  have hnodup : ((tables.record.map RecordRow.collection).dedup.map
      fun collection : Nsid => OrderDual.toDual collection.str).Nodup := by
    apply List.Nodup.map _ (List.nodup_dedup _)
    intro a b hab
    exact Nsid.ext hab
  have hpairwise : tables.collections.Pairwise _ := Paging.pairwise_sorted_lt hnodup
  exact hpairwise.imp fun hab => OrderDual.toDual_lt_toDual.mp hab

theorem Tables.nodup_collections : tables.collections.Nodup :=
  Tables.pairwise_collections.imp fun hab he => by
    rw [he] at hab
    exact lt_irrefl _ hab

end

/-! ## What a walk shows -/

section

variable [DecidableEq Cid] {tables : Tables Cid} {did : Did} {asking : Asking}

/-- The records of some collections, in the order a walk comes by them. -/
def Tables.walked (tables : Tables Cid) (asking : Asking) (collections : List Nsid) :
    List (Record Cid) :=
  collections.flatMap fun collection => tables.collected collection (asking collection).2

theorem Tables.length_collected_le (collection : Nsid) (reverse : Bool) :
    (tables.collected collection reverse).length ≤ tables.record.length := by
  rw [collected, inOrder_perm.length_eq]
  exact (List.length_filterMap_le _ _).trans (List.length_filter_le _ _)

/-- A walk shows the records of the collections it goes through. -/
theorem Tables.Indexed.walk_eq [JsonCodec Cid] [ValueCodec Cid] (h : tables.Indexed did)
    {rounds : ℕ} (hr : tables.record.length < rounds) (collections : List Nsid) :
    tables.walk did asking rounds collections =
      some ((tables.walked asking collections).mapM shown) := by
  induction collections with
  | nil => rfl
  | cons collection rest ih =>
    have hlists : Paging.Lists (tables.collected collection (asking collection).2)
        (clamp 50 100 (asking collection).1) (fun held => keyOf held.uri) shown
        (listRecords tables did collection (asking collection).1 (asking collection).2) :=
      h.lists_records
    have hlength : (tables.collected collection (asking collection).2).length < rounds :=
      Nat.lt_of_le_of_lt (Tables.length_collected_le _ _) hr
    have hfollow := hlists.follow_eq one_le_clamp hlength
    have hmore : tables.walked asking (collection :: rest) =
        tables.collected collection (asking collection).2 ++ tables.walked asking rest := rfl
    rw [Tables.walk, hfollow, ih, hmore, Paging.mapM_append_eq]
    rfl

theorem Tables.Indexed.nodup_walked (h : tables.Indexed did) {collections : List Nsid}
    (hn : collections.Nodup) : ((tables.walked asking collections).map Record.uri).Nodup := by
  rw [Tables.walked, List.map_flatMap, List.nodup_flatMap]
  constructor
  · intro collection _
    exact (inOrder_perm.map Record.uri).nodup_iff.mpr (h.nodup_joined collection)
  · apply hn.imp
    intro a b hab at_ ha hb
    obtain ⟨r, hr, rfl⟩ := List.mem_map.mp ha
    obtain ⟨r', hr', he⟩ := List.mem_map.mp hb
    obtain ⟨rkey, hu⟩ := h.exists_uri hr
    obtain ⟨rkey', hu'⟩ := h.exists_uri hr'
    rw [hu, hu'] at he
    exact hab (uri_eq_iff.mp he).2.1.symm

theorem Tables.Indexed.mem_walked (h : tables.Indexed did) {at_ : Str} {cid : Cid} :
    (at_, cid) ∈ (tables.walked asking tables.collections).map (fun r => (r.uri, r.cid)) ↔
      ∃ row ∈ tables.record, row.uri = at_ ∧ row.cid = cid := by
  rw [List.mem_map]
  constructor
  · rintro ⟨r, hr, he⟩
    obtain ⟨collection, -, hr⟩ := List.mem_flatMap.mp hr
    obtain ⟨row, hrow, -, huri, hcid, -⟩ := Tables.mem_collected.mp hr
    obtain ⟨rfl, rfl⟩ := Prod.mk.inj he
    exact ⟨row, hrow, huri.symm, hcid.symm⟩
  · rintro ⟨row, hrow, rfl, rfl⟩
    obtain ⟨value, hvalue⟩ := Option.isSome_iff_exists.mp (h.held row hrow)
    refine ⟨⟨row.uri, row.cid, value⟩, ?_, rfl⟩
    exact List.mem_flatMap.mpr ⟨row.collection, Tables.mem_collections.mpr ⟨row, hrow, rfl⟩,
      Tables.mem_collected.mpr ⟨row, hrow, rfl, rfl, rfl, hvalue⟩⟩

/-- What a walk comes by is the leaves of the tree, in an order of its own. -/
theorem Tables.Carries.exists_walked [Codec Cid] [LawfulCodec Cid] {repo : Repo Cid} {ℓ : ℕ}
    {xs : List (Leaf Cid)} (h : tables.Carries did repo ℓ xs) (asking : Asking) :
    ∃ order : List (Leaf Cid), order.Perm xs ∧
      order.map (fun x => (uriAt did x.key, x.value)) =
        (tables.walked asking tables.collections).map fun r => (r.uri, r.cid) := by
  have hperm : ((tables.walked asking tables.collections).map fun r => (r.uri, r.cid)).Perm
      (xs.map fun x => (uriAt did x.key, x.value)) := by
    rw [List.perm_ext_iff_of_nodup]
    · rintro ⟨at_, cid⟩
      rw [h.indexed.mem_walked, h.exact_rows.2, List.mem_map]
      simp only [Prod.mk.injEq, eq_comm]
    · apply List.Nodup.of_map Prod.fst
      rw [List.map_map]
      exact h.indexed.nodup_walked Tables.nodup_collections
    · apply List.Nodup.of_map Prod.fst
      rw [List.map_map]
      have hkeys : (xs.map Leaf.key).Nodup := h.stands.data.keyed.ordered.nodup_keys
      have hinj : Function.Injective (uriAt did) := fun key key' => uriAt_inj.mp
      have huris := hkeys.map hinj
      rwa [List.map_map] at huris
  have hcomp := List.eq_map_comp_perm fun x : Leaf Cid => (uriAt did x.key, x.value)
  obtain ⟨order, he, hp⟩ := (congrFun₂ hcomp _ xs).mpr hperm
  exact ⟨order, hp, he.symm⟩

omit [DecidableEq Cid] in
/-- A page shows records under their own addresses and CIDs. -/
theorem map_shown [JsonCodec Cid] [ValueCodec Cid] {all : List (Record Cid)} {held : List Held}
    (h : all.mapM shown = .ok held) : held.map (fun one => (one.uri, one.cid)) =
      all.map fun r => (r.uri, CidText.toText r.cid) := by
  induction all generalizing held with
  | nil =>
    obtain rfl : [] = held := Except.ok.inj h
    rfl
  | cons r all ih =>
    rw [List.mapM_cons] at h
    obtain ⟨one, hone, h⟩ := bind_ok_iff.mp h
    obtain ⟨rest, hrest, h⟩ := bind_ok_iff.mp h
    obtain ⟨value, -, hone⟩ := bind_ok_iff.mp hone
    obtain ⟨J, -, hone⟩ := bind_ok_iff.mp hone
    obtain rfl := Except.ok.inj hone
    obtain rfl := Except.ok.inj h
    rw [List.map_cons, List.map_cons, ih hrest]

end

/-! ## A tree made of what is shown -/

section

variable [Codec Cid] [LawfulCodec Cid] [DecidableEq Cid]

def Leaf.adding (x : Leaf Cid) : TreeOp Cid := .add x.key x.value

/-- Adding leaves one by one succeeds, and leaves a tree of them at the layer of the highest. -/
theorem Session.Holding.steps_adding {s : Session Cid} {ℓ : ℕ} {xs order : List (Leaf Cid)}
    (h : s.Holding ℓ xs) (htop : AtTop ℓ xs) (hempty : xs = [] → layerOf s.tree ℓ xs = 0)
    (hn : (order.map Leaf.key).Nodup) (hnew : ∀ x ∈ order, ∀ y ∈ xs, y.key ≠ x.key)
    (hv : ∀ x ∈ order, (ensureValidKey x.key : Except (RepoError Cid) Unit) = .ok ()) :
    ∃ ℓ' xs', (s.steps (order.map Leaf.adding)).2.Holding ℓ' xs' ∧ AtTop ℓ' xs' ∧
      s.Succeeds (order.map Leaf.adding) ∧ ∀ x, x ∈ xs' ↔ x ∈ order ∨ x ∈ xs := by
  induction order generalizing s ℓ xs with
  | nil => exact ⟨ℓ, xs, h, htop, by simp [Session.Succeeds, Session.steps], by simp⟩
  | cons x order ih =>
    rw [List.map_cons, List.nodup_cons] at hn
    have hkey := hnew x List.mem_cons_self
    obtain ⟨t, he, ht⟩ := exec_add () h.holds (hv x List.mem_cons_self) hkey x.value
    have hstep : s.step x.adding = (.ok .done, ⟨t, s.store⟩) := by
      simp only [Leaf.adding, Session.step, Session.attempt, Session.run, he]
      rfl
    have hzeros : leadingZeros Cid x.key = x.zeros := rfl
    have htop' : AtTop (max (layerOf s.tree ℓ xs) (leadingZeros Cid x.key))
        (put Leaf.key x xs) := by
      intro _
      refine (topLayer_put h.holds.fits htop ?_ hkey).symm
      rw [← hzeros]
      split_ifs with hx
      · rw [hempty hx, Nat.zero_max]
      · rw [layerOf_of_ne _ _ hx]
    have hput : put Leaf.key x xs ≠ [] :=
      List.ne_nil_of_mem (mem_put.mpr (Or.inl rfl))
    have hmem : ∀ y, y ∈ put Leaf.key x xs ↔ y = x ∨ y ∈ xs := by
      intro y
      rw [mem_put]
      exact or_congr_right (and_iff_left_of_imp fun hy => hkey y hy)
    have hnew' : ∀ z ∈ order, ∀ y ∈ put Leaf.key x xs, y.key ≠ z.key := by
      intro z hz y hy
      rcases (hmem y).mp hy with rfl | hy
      · intro he
        exact hn.1 (List.mem_map.mpr ⟨z, hz, he.symm⟩)
      · exact hnew z (List.mem_cons_of_mem x hz) y hy
    obtain ⟨ℓ', xs', hh, ha, hs, hm⟩ := ih (s := ⟨t, s.store⟩) ⟨ht, h.closed, h.sound⟩ htop'
      (fun hnil => absurd hnil hput) hn.2 hnew' fun y hy => hv y (List.mem_cons_of_mem x hy)
    refine ⟨ℓ', xs', ?_, ha, ?_, ?_⟩
    · rw [List.map_cons, Session.steps, hstep]
      exact hh
    · intro r hr
      rw [List.map_cons, Session.steps, hstep] at hr
      rcases List.mem_cons.mp hr with rfl | hr
      · rfl
      · exact hs r hr
    · intro y
      rw [hm, hmem, List.mem_cons]
      tauto

/-- A node that is nothing but a pointer to the one below it. -/
def NodeData.lone (node : NodeData Cid) : Bool := node.e.isEmpty && node.l.isSome

omit [LawfulCodec Cid] [DecidableEq Cid] in
/-- The node over some leaves is a lone pointer unless it is at the layer of the highest of them. -/
theorem lone_nodeAt_iff {ℓ : ℕ} {xs : List (Leaf Cid)} (hf : Fits ℓ xs) :
    (nodeAt ℓ xs).lone = false ↔ AtTop ℓ xs := by
  by_cases hne : xs = []
  · subst hne
    rw [nodeAt_nil]
    exact iff_of_true rfl fun h => absurd rfl h
  cases hg : (group ℓ xs).2 with
  | nil =>
    -- No leaf is of this layer, so the node points to the one over all of them.
    have hall := group_of_leafless hg
    have hrun : IsRun ℓ xs xs := Or.inl hall.symm
    obtain ⟨k, -, -, hchild⟩ := childAt_of_mem_runs hf (mem_runs.mpr ⟨hne, hrun⟩)
    have hlone : (nodeAt ℓ xs).lone = true := by
      simp only [NodeData.lone, nodeAt, nodeOf, hg, hall, hchild, storedFrom, List.isEmpty_nil,
        Option.isSome_some, Bool.and_self]
    rw [hlone]
    refine iff_of_false Bool.noConfusion fun htop => ?_
    obtain ⟨x, hx, hz⟩ := exists_zeros_eq_topLayer hne
    exact hrun.ne hx (hz.trans (htop hne).symm)
  | cons p rest =>
    have hp : p ∈ (group ℓ xs).2 := by
      rw [hg]
      exact List.mem_cons_self
    refine iff_of_true ?_ fun _ =>
      (topLayer_eq hf (mem_of_mem_group hp) (group_leaf_zeros hp)).symm
    simp only [NodeData.lone, nodeAt, nodeOf, hg, storedFrom, List.isEmpty_cons, Bool.false_and]

/-- Leaves in whatever order, added to an empty tree: the tree has them, and the root it has is that
of a node over them where that node is no lone pointer. -/
theorem steps_adding_start {ℓ : ℕ} {xs order : List (Leaf Cid)} (hk : WellKeyed xs)
    (hf : Fits ℓ xs) (hp : order.Perm xs) :
    (Session.start : Session Cid).Succeeds (order.map Leaf.adding) ∧
      (((Session.start : Session Cid).steps (order.map Leaf.adding)).2.step .leaves).1 =
        .ok (.leaves xs) ∧
      (((Session.start : Session Cid).steps (order.map Leaf.adding)).2.root =
        .ok (cidAt ℓ xs) ↔ (nodeAt ℓ xs).lone = false) := by
  have hkeys : (order.map Leaf.key).Nodup :=
    (hp.map Leaf.key).nodup_iff.mpr hk.ordered.nodup_keys
  have hvalid : ∀ x ∈ order, (ensureValidKey x.key : Except (RepoError Cid) Unit) = .ok () :=
    fun x hx => hk.valid x (hp.mem_iff.mp hx)
  obtain ⟨ℓ', xs', hh, htop, hs, hm⟩ := Session.holding_start.steps_adding
    (fun hn => absurd rfl hn) (fun _ => rfl) hkeys (fun _ _ y hy => absurd hy List.not_mem_nil)
    hvalid
  have hsame : xs' = xs := by
    apply hh.holds.keyed.ordered.ext hk.ordered
    intro x
    rw [hm, hp.mem_iff]
    exact or_iff_left List.not_mem_nil
  subst hsame
  obtain ⟨t, hleaves, -⟩ := exec_leaves () hh.holds
  obtain ⟨t', hroot, -⟩ := exec_root () hh.holds
  refine ⟨hs, ?_, ?_⟩
  · simp only [Session.step, Session.attempt, Session.run, hleaves]
    rfl
  · have heq : ((Session.start : Session Cid).steps (order.map Leaf.adding)).2.root =
        .ok (cidAt ℓ' xs') := by
      simp only [Session.root, Session.run, hroot]
      rfl
    rw [heq, lone_nodeAt_iff hf, Except.ok.injEq]
    by_cases hne : xs' = []
    · subst hne
      exact iff_of_true (cidAt_nil ℓ' ℓ) fun hn => absurd rfl hn
    · rw [AtTop, imp_iff_right hne]
      constructor
      · intro hcid
        rw [← (cidAt_inj hk hk hh.holds.fits hf hne hcid).1]
        exact htop hne
      · intro hℓ
        rw [hℓ, htop hne]

end

/-! ## What calls have written -/

section

variable [Codec Cid] [LawfulCodec Cid] [DecidableEq Cid]

/-- Every record is data that a caller can be shown. -/
def Tables.AllData (tables : Tables Cid) : Prop :=
  ∀ row ∈ tables.record, ∃ (value : Value Cid) (bytes : Bytes), value.ipld.isRecordData = true ∧
    encode value.ipld = .ok bytes ∧ row.cid = cidFor bytes

variable {did : Did} {w : World Cid}

omit [LawfulCodec Cid] in
/-- A revision that was asked for with such data leaves no other. -/
theorem Moved.Lands.allData [CidText Cid] {m : Moved Cid} {repo next : Repo Cid} {ℓ ℓ' : ℕ}
    {xs xs' : List (Leaf Cid)} {worked : Worked Cid} (h : m.Lands did repo ℓ xs worked next ℓ' xs')
    (hb : m.before.AllData) (ha : ∀ asked ∈ m.job.requested, ∀ value,
      asked.write.record = some value → value.ipld.isRecordData = true) : m.after.AllData := by
  obtain ⟨start, -, -, hworks⟩ := h.alone
  obtain ⟨-, -, -, -, -, -, -, hplan, -⟩ := hworks.exists_apply
  intro row hrow
  rw [h.record] at hrow
  rcases Indexed.mem_foldl_indexRow hrow with hold | ⟨-, collection, rkey, links, blobs, hput⟩
  · exact hb row hold
  · obtain ⟨p, hp, hindex⟩ := List.mem_map.mp hput
    rcases (Tables.planOn_indexes hplan p hp).eq_put_or_delete with
      ⟨value, bytes, blobs', hvalue, he, -, hwritten⟩ | ⟨-, htaken⟩
    · rcases Tables.planOn_asked hplan p hp with hnone | ⟨asked, hasked, hwrite⟩
      · rw [hvalue] at hnone
        cases hnone
      · rw [hwrite] at hvalue
        rw [hwritten] at hindex
        injection hindex with _ _ hcid
        exact ⟨value, bytes, ha asked hasked value hvalue, he, hcid.symm⟩
    · rw [htaken] at hindex
      cases hindex

/-- Where every write was some call's, every record is data. -/
theorem World.Reachable.allData [JsonCodec Cid] (h : World.Reachable did w)
    (hcalls : ∀ m ∈ w.moved, ∃ (call : Records.Call) (fresh : ℕ → RecordKey),
      call.requests fresh = .ok (m.job.requested, m.job.swap)) : w.actor.tables.AllData := by
  induction h with
  | founded hf =>
    obtain ⟨hc, hl⟩ := hf
    intro row hrow
    obtain ⟨x, hx, -⟩ := ((Tables.Carries.genesis hc hl).exact_rows.2 row.uri row.cid).mp
      ⟨row, hrow, rfl, rfl⟩
    cases hx
  | @step who w w' h hs ih =>
    rcases hs.same_or_landed with ⟨hmoved, hsame⟩ | ⟨m, committed, hmoved, hbefore, hafter, hc⟩
    · rw [hmoved] at hcalls
      have hold := ih hcalls
      intro row hrow
      rw [hsame.record] at hrow
      exact hold row hrow
    · rw [hmoved] at hcalls
      have hmem : m ∈ w'.moved := by
        rw [hmoved]
        exact List.mem_cons_self
      obtain ⟨repo, ℓ, xs, worked, next, ℓ', xs', hl⟩ := (h.step hs).sound.lands m hmem
      obtain ⟨call, fresh, hcall⟩ := hcalls m List.mem_cons_self
      rw [← hafter]
      apply hl.allData
      · rw [hbefore]
        exact ih fun m' hm => hcalls m' (List.mem_cons_of_mem m hm)
      · exact Records.Call.requests_isRecordData hcall

end

section

variable [Codec Cid] [LawfulCodec Cid] [DecidableEq Cid] [JsonCodec Cid] [LawfulJsonCodec Cid]
  [ValueCodec Cid] [LawfulValueCodec Cid] {did : Did} {w : World Cid}

/-- Whoever walks a repository that calls have written is shown its records, each once, and the tree
they make of them is the one its commit names, unless that has a lone pointer for its top node. -/
theorem walk_rebuilds (h : World.Reachable did w)
    (hcalls : ∀ m ∈ w.moved, ∃ (call : Records.Call) (fresh : ℕ → RecordKey),
      call.requests fresh = .ok (m.job.requested, m.job.swap)) :
    (w.actor.tables.collections.Pairwise fun a b => a.str < b.str) ∧
    (∀ c, c ∈ w.actor.tables.collections ↔
      ∃ row ∈ w.actor.tables.record, row.collection = c) ∧
    ∃ (root : Root Cid) (repo : Repo Cid) (leaves : List (Leaf Cid)) (repo' : Repo Cid)
        (bytes : Bytes) (node : NodeData Cid), w.actor.tables.repoRoot = some root ∧
      exec (Store.answer w.actor.tables.stored) (Repo.load root.cid) () = (.ok repo, ()) ∧
      exec (Store.answer w.actor.tables.stored) repo.records () = (.ok (leaves, repo'), ()) ∧
      w.actor.tables.stored repo.commit.data = some bytes ∧ decodeNode bytes = .ok node ∧
      ∀ (asking : Asking) (rounds : ℕ), w.actor.tables.record.length < rounds →
        ∃ (held : List Held) (order : List (Leaf Cid)),
          w.actor.tables.walk did asking rounds w.actor.tables.collections = some (.ok held) ∧
          order.Perm leaves ∧
          held.map (fun one => (one.uri, one.cid)) =
            order.map (fun x => (uriAt did x.key, CidText.toText x.value)) ∧
          (Session.start : Session Cid).Succeeds (order.map Leaf.adding) ∧
          (((Session.start : Session Cid).steps (order.map Leaf.adding)).2.step .leaves).1 =
            .ok (.leaves leaves) ∧
          (((Session.start : Session Cid).steps (order.map Leaf.adding)).2.root =
            .ok repo.commit.data ↔ node.lone = false) := by
  obtain ⟨⟨repo, ℓ, xs, hc, -⟩, -, -, -, -⟩ := h.sound
  have hstand := hc.exact.standing hc.stands
  obtain ⟨t, ht⟩ := hstand.exec_leaves ()
  have hdecode : decodeNode (blockAt ℓ xs) = .ok (nodeAt ℓ xs) :=
    decodeNode_encode (encode_nodeAt hstand.keyed)
  have hstored : w.actor.tables.stored repo.commit.data = some (blockAt ℓ xs) := by
    rw [hc.stands.root]
    exact hstand.stored _ (self_mem_nodesOf ℓ xs)
  refine ⟨Tables.pairwise_collections, fun c => Tables.mem_collections, _, _, xs,
    ⟨repo.cid, repo.commit, t⟩, _, _, hc.root, hstand.exec_load (), ?_, hstored, hdecode, ?_⟩
  · simp only [Repo.records, exec_bind, ht, exec_pure]
  intro asking rounds hr
  obtain ⟨held, hheld⟩ : ∃ held,
      (w.actor.tables.walked asking w.actor.tables.collections).mapM shown = .ok held := by
    apply exists_shown
    intro r hr
    obtain ⟨collection, -, hr⟩ := List.mem_flatMap.mp hr
    obtain ⟨row, hrow, -, -, -, hvalue⟩ := Tables.mem_collected.mp hr
    obtain ⟨value, bytes, hdata, he, hcid⟩ := h.allData hcalls row hrow
    have hcids : cidFor r.value = (cidFor bytes : Cid) := by
      rw [← hc.exact.sound _ _ hvalue, hcid]
    rw [LawfulCodec.cidFor_injective hcids]
    exact ⟨value.ipld, hdata, LawfulValueCodec.fromSlice_toVec (encode_eq_ok.mp he)⟩
  obtain ⟨order, hperm, horder⟩ := hc.exists_walked asking
  obtain ⟨hs, hleaves, hroot⟩ := steps_adding_start hstand.keyed hstand.fits hperm
  refine ⟨held, order, ?_, hperm, ?_, hs, hleaves, ?_⟩
  · rw [hc.indexed.walk_eq hr, hheld]
  · have hpair := congrArg (List.map fun p : Str × Cid => (p.1, CidText.toText p.2)) horder
    rw [List.map_map, List.map_map] at hpair
    rw [map_shown hheld]
    exact hpair.symm
  · rw [hc.stands.root]
    exact hroot

end

section

open DagCbor

/-- A walk of a repository of two records, a record to a page and from the end. -/
theorem walk_rebuilds_first : ∃ (w : World RawCid) (held : List Held) (order : List (Leaf RawCid)),
    World.Reachable recordDid w ∧ w.moved.length = 2 ∧
    @Tables.walk RawCid _ _ recordValues w.actor.tables recordDid (fun _ => (some 1, true))
      (w.actor.tables.record.length + 1) w.actor.tables.collections = some (.ok held) ∧
    held.map (fun one => (one.uri, one.cid)) =
      order.map (fun x => (uriAt recordDid x.key, CidText.toText x.value)) ∧
    order.Perm [firstLeaf, secondLeaf] ∧
    (Session.start : Session RawCid).Succeeds (order.map Leaf.adding) := by
  obtain ⟨w, first, second, repo, ℓ, hw, hmoved, hfirst, hsecond, hc⟩ := exists_second_landed
  have hcalls : ∀ m ∈ w.moved, ∃ (call : Records.Call) (fresh : ℕ → RecordKey),
      call.requests fresh = .ok (m.job.requested, m.job.swap) := by
    intro m hm
    rw [hmoved] at hm
    rcases List.mem_cons.mp hm with rfl | hm
    · rw [hsecond]
      exact ⟨_, fun _ => recordKey, creating_requests _
        (show [(otherKey, text "second")].length ≤ Records.WRITES by decide)⟩
    · obtain rfl := List.mem_singleton.mp hm
      rw [hfirst]
      exact ⟨_, fun _ => recordKey, creating_requests _
        (show [(recordKey, text "first")].length ≤ Records.WRITES by decide)⟩
  obtain ⟨-, -, root, repo', leaves, repo'', _, _, hroot, hload, hleaves, -, -, hwalk⟩ :=
    @walk_rebuilds RawCid _ _ _ _ _ recordValues lawful_recordValues recordDid w hw hcalls
  obtain ⟨held, order, hheld, hperm, hmap, hs, -, -⟩ :=
    hwalk (fun _ => (some 1, true)) _ (Nat.lt_succ_self _)
  refine ⟨w, held, order, hw, by rw [hmoved]; rfl, hheld, hmap, ?_, hs⟩
  have hstand := hc.exact.standing hc.stands
  obtain ⟨t, ht⟩ := hstand.exec_leaves ()
  obtain rfl : ⟨repo.cid, repo.rev⟩ = root := Option.some.inj (hc.root.symm.trans hroot)
  rw [hstand.exec_load ()] at hload
  obtain rfl := Except.ok.inj (Prod.mk.inj hload).1
  simp only [Repo.records, exec_bind, ht, exec_pure] at hleaves
  obtain rfl := (Prod.mk.inj (Except.ok.inj (Prod.mk.inj hleaves).1)).1
  exact hperm

end

end Manapds
