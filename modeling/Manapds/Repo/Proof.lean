import Manapds.Repo.Car
import Manapds.Repo.Difference

/-!
# Proving a record

`Mst.cidsForPath` names the nodes from a root down to a key and the record at it. Those blocks are
enough for `Mst.get` to answer, since the two go through the same nodes, and no blocks at all under
their own CIDs lead it to any other answer: a node that hashes to a CID the tree links to is the
node of the tree.
-/

namespace Manapds

open KeyedList Shape QueryProgram Routine

variable {Cid : Type}

/-- Every block hashes to the CID it is under, as `Car.read` insists. -/
def Hashed [CarCodec Cid] (blocks : Cid → Option Bytes) : Prop :=
  ∀ c b, blocks c = some b → Car.hashesTo c b = true

/-- A store with only some blocks of another. -/
def onlyBlocks [DecidableEq Cid] (st : Cid → Option Bytes) (cids : List Cid) :
    Cid → Option Bytes := fun c =>
  if c ∈ cids then st c else none

/-! ## Reading one node of a proof -/

section

variable {child : List (Leaf Cid) → Option Cid} {under : Option ℕ} {ys : List (Leaf Cid)}
  {u : Mst Cid}

theorem unread_of_mem_lazyRun (h : Entry.tree u ∈ lazyRun child under ys) : u.entries? = none := by
  unfold lazyRun at h
  cases hc : child ys with
  | none =>
    rw [hc] at h
    cases h
  | some c =>
    rw [hc] at h
    cases List.mem_singleton.mp h
    rfl

/-- Nothing under a node that was just read is in memory. -/
theorem unread_of_mem_lazyEntries {g : List (Leaf Cid) × List (Leaf Cid × List (Leaf Cid))}
    (h : Entry.tree u ∈ lazyEntries child under g) : u.entries? = none := by
  rcases List.mem_append.mp h with h | h
  · exact unread_of_mem_lazyRun h
  · obtain ⟨p, -, hp⟩ := List.mem_flatMap.mp h
    rcases List.mem_cons.mp hp with hp | hp
    · cases hp
    · exact unread_of_mem_lazyRun hp

end

variable [Codec Cid] {st proof : Cid → Option Bytes} {S : List Cid} {ℓ depth : ℕ} {t : Mst Cid}
  {xs : List (Leaf Cid)}

section

variable [LawfulCodec Cid] [DecidableEq Cid]

/-- Reading a stored node asks for its block alone, and leaves what is under it to be read. -/
theorem exec_entries_unread (h : Rep st S ℓ t xs) (hn : t.entries? = none) : ∃ es S',
    Shows (RepUnder st S' ℓ) ℓ es xs ∧ (∀ u, Entry.tree u ∈ es → u.entries? = none) ∧
      (∀ proof, proof (cidAt ℓ xs) = some (blockAt ℓ xs) →
        exec (Store.answer proof) t.entries S = (.ok (es, t.withEntries es), S')) ∧
      ∀ proof, proof (cidAt ℓ xs) = none →
        exec (Store.answer proof) t.entries S = (.error (.missingBlock (cidAt ℓ xs)), S') := by
  obtain ⟨entries, layer, pointer⟩ := t
  obtain rfl : entries = none := hn
  have hr := rep_iff.mp h
  obtain ⟨hp, hs, hu⟩ := hr.unread rfl
  obtain rfl : pointer = some (cidAt ℓ xs) := hp
  have hseen : cidAt ℓ xs ∉ S := hu (ℓ, xs) (self_mem_nodesOf ℓ xs)
  have hdec : decodeNode (blockAt ℓ xs) = .ok (nodeAt ℓ xs) :=
    decodeNode_encode (encode_nodeAt hr.keyed)
  have hdes : Mst.deserialize (nodeAt ℓ xs)
      ((nodeAt ℓ xs).e.head?.map fun entry => leadingZeros Cid entry.k) = _ :=
    deserialize_nodeOf hr.keyed.valid
  refine ⟨_, cidAt ℓ xs :: S, shows_lazyEntries hr.keyed hr.fits hs hu,
    fun u hm => unread_of_mem_lazyEntries hm, fun proof hproof => ?_, fun proof hproof => ?_⟩
  · simp only [Mst.entries, Mst.fill, Mst.entries?, Mst.pointer?, Reader.node, Reader.block,
      exec_bind, Routine.exec_get, hseen, if_false, exec_set, exec_ask, Store.answer_get, hproof,
      hdec, exec_ofExcept_ok, hdes, exec_pure, Mst.withEntries]
  · simp only [Mst.entries, Mst.fill, Mst.entries?, Mst.pointer?, Reader.node, Reader.block,
      exec_bind, Routine.exec_get, hseen, if_false, exec_set, exec_ask, Store.answer_get, hproof,
      exec_throw]

end

variable [CarCodec Cid] [LawfulCarCodec Cid]

/-- Blocks that hash to their CIDs have a node of the tree as it is, or not at all. -/
theorem Hashed.node (hp : Hashed proof) (ℓ : ℕ) (xs : List (Leaf Cid)) :
    proof (cidAt ℓ xs) = none ∨ proof (cidAt ℓ xs) = some (blockAt ℓ xs) := by
  cases hb : proof (cidAt ℓ xs) with
  | none => exact Or.inl rfl
  | some b =>
    have hbytes : blockAt ℓ xs = b := Car.hashesTo_cidFor.mp (hp _ b hb)
    exact Or.inr (by rw [hbytes])

/-! ## A walk to a key -/

variable [LawfulCodec Cid] [DecidableEq Cid]

/-- A lookup over a proof comes to what it does over the whole store, or stops at a node that the
proof lacks. -/
def Proves (st : Cid → Option Bytes) (S : List Cid) (depth : ℕ) (t : Mst Cid) (key : Str)
    (proof : Cid → Option Bytes) : Prop :=
  exec (Store.answer proof) (Mst.getIn depth t key) S =
    exec (Store.answer st) (Mst.getIn depth t key) S

def Lacks (S : List Cid) (depth : ℕ) (t : Mst Cid) (key : Str) (proof : Cid → Option Bytes) :
    Prop :=
  ∃ c S', exec (Store.answer proof) (Mst.getIn depth t key) S = (.error (.missingBlock c), S')

/-- The blocks on the way to a key are the ones a lookup reads. -/
theorem exec_cidsForPathIn (h : Rep st S ℓ t xs) (hn : t.entries? = none) (hd : ℓ + 1 < depth)
    (key : Str) : ∃ cids t' S',
    exec (Store.answer st) (Mst.cidsForPathIn depth t key) S = (.ok (cids, t'), S') ∧
      (∀ proof, (∀ c ∈ cids, proof c = st c) → Proves st S depth t key proof) ∧
      ∀ proof, Hashed proof → Lacks S depth t key proof ∨ Proves st S depth t key proof := by
  induction depth generalizing ℓ t xs S with
  | zero => omega
  | succ depth ih =>
    obtain ⟨d, rfl⟩ : ∃ d, depth = d + 1 := ⟨depth - 1, by omega⟩
    obtain ⟨hpointer, hs, -⟩ := (rep_iff.mp h).unread hn
    have hblock : st (cidAt ℓ xs) = some (blockAt ℓ xs) := hs (ℓ, xs) (self_mem_nodesOf ℓ xs)
    obtain ⟨es, S', hshows, hunread, hread, hmissing⟩ := exec_entries_unread h hn
    have hroot : exec (Store.answer st) (Mst.rootIn (d + 1) t) S = (.ok (cidAt ℓ xs, t), S) := by
      rw [Mst.rootIn, hpointer]
      rfl
    have hnode : ∀ proof, Hashed proof →
        proof (cidAt ℓ xs) = none ∨ proof (cidAt ℓ xs) = some (blockAt ℓ xs) :=
      fun proof hproof => hproof.node ℓ xs
    have hlocated := hshows.locate h.keyed key
    have hchild : ∀ k ys u, ℓ = k + 1 → Rep st S' k u ys → Entry.tree u ∈ es → _ :=
      fun k ys u hk hu hm => ih hu (hunread u hm) (by omega)
    clear h hn hpointer hs hshows hunread ih
    generalize cidAt ℓ xs = c, blockAt ℓ xs = b at hblock hread hmissing hroot hnode
    -- A proof that lacks this node fails here, whichever way the key lies.
    have hlacks : ∀ proof : Cid → Option Bytes, proof c = none →
        Lacks S (d + 2) t key proof := by
      intro proof hproof
      refine ⟨c, S', ?_⟩
      simp only [Mst.getIn, Mst.indexOf, exec_bind, hmissing proof hproof]
    cases hlocated with
    | @leaf pre post xpre xpost value hpre hpost hz hi hbelow habove =>
      have hleaf := leafAt_length pre post ⟨key, value⟩
      have hproves : ∀ proof : Cid → Option Bytes, proof c = some b →
          Proves st S (d + 2) t key proof := by
        intro proof hproof
        simp only [Proves, Mst.getIn, exec_bind, exec_indexOf (hread proof hproof),
          exec_indexOf (hread st hblock), entries_withEntries, exec_pure, hi, hleaf]
      refine ⟨[c, value], t.withEntries (pre ++ .leaf ⟨key, value⟩ :: post), S', ?_,
        fun proof hproof => ?_,
        fun proof hsound => (hnode proof hsound).imp (hlacks proof) (hproves proof)⟩
      · simp only [Mst.cidsForPathIn, hroot, exec_bind, exec_indexOf (hread st hblock),
          entries_withEntries, exec_pure, hi, hleaf]
      · exact hproves proof ((hproof c List.mem_cons_self).trans hblock)
    | @tree pre post xpre ys xpost u hpre hpost hne hfu hu hi hleaf hlast hhead hbelow habove =>
      obtain ⟨k, hk, -, hrep⟩ := childAt_of_repUnder hne hu
      obtain ⟨cids, u', S'', hcids, hcomplete, hsound⟩ := hchild k ys u hk hrep (by simp)
      have hget : ∀ proof : Cid → Option Bytes, proof c = some b →
          exec (Store.answer proof) (Mst.getIn (d + 2) t key) S = exec (Store.answer proof)
            (Mst.getIn (d + 1) u key >>= fun found => pure (found.1,
              (t.withEntries (pre ++ .tree u :: post)).withEntries (pre ++ .tree found.2 :: post)))
            S' := by
        intro proof hproof
        rw [Mst.getIn]
        simp only [exec_bind, exec_indexOf (hread proof hproof), entries_withEntries, exec_pure, hi,
          hleaf, treeBefore_length, set_length]
      have hproves : ∀ proof : Cid → Option Bytes, proof c = some b →
          Proves st S' (d + 1) u key proof → Proves st S (d + 2) t key proof := by
        intro proof hproof hunder
        rw [Proves, hget proof hproof, hget st hblock, exec_bind, exec_bind, hunder]
        rfl
      refine ⟨c :: cids, (t.withEntries (pre ++ .tree u :: post)).withEntries
        (pre ++ .tree u' :: post), S'', ?_, fun proof hproof => ?_, fun proof hproof => ?_⟩
      · rw [Mst.cidsForPathIn]
        simp only [hroot, exec_bind, exec_indexOf (hread st hblock), entries_withEntries, exec_pure,
          hi, hleaf, treeBefore_length, hcids, set_length]
      · exact hproves proof ((hproof c List.mem_cons_self).trans hblock)
          (hcomplete proof fun c' hc' => hproof c' (List.mem_cons_of_mem c hc'))
      · rcases hnode proof hproof with hb | hb
        · exact Or.inl (hlacks proof hb)
        · refine (hsound proof hproof).imp (fun hl => ?_) (hproves proof hb)
          obtain ⟨c', S₃, hl⟩ := hl
          exact ⟨c', S₃, (hget proof hb).trans (exec_bind_error _ _ hl _)⟩
    | @gap pre post xpre xpost hpre hpost hi hleaf htree hlast hhead hbelow habove =>
      have hproves : ∀ proof : Cid → Option Bytes, proof c = some b →
          Proves st S (d + 2) t key proof := by
        intro proof hproof
        simp only [Proves, Mst.getIn, exec_bind, exec_indexOf (hread proof hproof),
          exec_indexOf (hread st hblock), entries_withEntries, exec_pure, hi, hleaf, htree]
      refine ⟨[c], t.withEntries (pre ++ post), S', ?_, fun proof hproof => ?_,
        fun proof hsound => (hnode proof hsound).imp (hlacks proof) (hproves proof)⟩
      · simp only [Mst.cidsForPathIn, hroot, exec_bind, exec_indexOf (hread st hblock),
          entries_withEntries, exec_pure, hi, hleaf, htree]
      · exact hproves proof ((hproof c List.mem_cons_self).trans hblock)

namespace Session

/-- The record at a key is proved by the blocks `cidsForPath` names, and by no blocks at all is
anything else proved of that key. -/
theorem record_proof (ops : List (TreeOp Cid)) (st : Cid → Option Bytes) (s : Session Cid)
    (hs : s = ((Session.start : Session Cid).steps ops).2)
    (hsucceeds : (Session.start : Session Cid).Succeeds ops)
    (hst : ∀ c b, s.saved c = some b → st c = some b) (key : Str) :
    ∃ root cids, s.root = .ok root ∧
      ((exec (Store.answer st) ((Mst.load root).cidsForPath key) ()).1.map Prod.fst) = .ok cids ∧
      ((exec (Store.answer st) ((Mst.load root).get key) ()).1.map Prod.fst) =
        .ok (mapAfter ops key) ∧
      ((exec (Store.answer (onlyBlocks st cids)) ((Mst.load root).get key) ()).1.map Prod.fst) =
        .ok (mapAfter ops key) ∧
      ∀ blocks : BlockMap Cid, (∀ c b, blocks.lookup c = some b → Car.hashesTo c b = true) →
        ∀ found, ((exec (Store.answer blocks.lookup) ((Mst.load root).get key) ()).1.map Prod.fst) =
          .ok found → found = mapAfter ops key := by
  obtain ⟨ℓ, xs, h, hmap, -⟩ := Session.holding_start.steps (valid_of_succeeds hsucceeds)
  rw [← hs] at h
  have hanswer : (find Leaf.key key xs).map Leaf.value = mapAfter ops key :=
    congrFun (hmap.eq_foldl hsucceeds) key
  have hstored : Stored st ℓ xs := fun p hp => hst _ _ (h.stored_saved p hp)
  have hload := holds_load h.holds.keyed h.holds.fits h.holds.le hstored
  obtain ⟨t', S', hget, -, -⟩ := exec_getIn hload.rep (Nat.lt_of_succ_lt hload.lt_maxDepth) key
  rw [hanswer] at hget
  obtain ⟨cids, t'', S'', hcids, hcomplete, hsound⟩ :=
    exec_cidsForPathIn hload.rep rfl hload.lt_maxDepth key
  have hagree : ∀ c ∈ cids, onlyBlocks st cids c = st c := fun c hc => if_pos hc
  refine ⟨cidAt ℓ xs, cids, h.root_eq, ?_, ?_, ?_, fun blocks hblocks found hfound => ?_⟩
  · rw [Mst.cidsForPath, Reader.exec_new, hcids]
    rfl
  · rw [Mst.get, Reader.exec_new, hget]
    rfl
  · rw [Mst.get, Reader.exec_new, hcomplete _ hagree, hget]
    rfl
  · rw [Mst.get, Reader.exec_new] at hfound
    rcases hsound blocks.lookup hblocks with ⟨c, S₃, hlacks⟩ | hproves
    · rw [hlacks] at hfound
      cases hfound
    · rw [hproves, hget] at hfound
      cases hfound
      rfl

open DagCbor in
/-- A record two layers below the root, and a key between the two that are there. -/
theorem record_proof_twoRecords : leadingZeros RawCid lowKey = 0 ∧ leadingZeros RawCid highKey = 2 ∧
    ∃ root cids absent, ((Session.start : Session RawCid).steps twoRecords).2.root = .ok root ∧
      ((exec (Store.answer (onlyBlocks ((Session.start : Session RawCid).steps twoRecords).2.saved
        cids)) ((Mst.load root).get lowKey) ()).1.map Prod.fst) =
        .ok (some (textCid (text "first"))) ∧
      ((exec (Store.answer (onlyBlocks ((Session.start : Session RawCid).steps twoRecords).2.saved
        absent)) ((Mst.load root).get (text "com.example.record/3jqfcqzm3fp2j")) ()).1.map
        Prod.fst) = .ok none := by
  refine ⟨rfl, rfl, ?_⟩
  obtain ⟨root, cids, hroot, -, -, hproof, -⟩ := record_proof twoRecords _ _ rfl twoRecords_succeeds
    (fun _ _ hb => hb) lowKey
  obtain ⟨root', absent, hroot', -, -, hnone, -⟩ := record_proof twoRecords _ _ rfl
    twoRecords_succeeds (fun _ _ hb => hb) (text "com.example.record/3jqfcqzm3fp2j")
  obtain rfl : root = root' := Except.ok.inj (hroot.symm.trans hroot')
  rw [mapAfter_twoRecords, if_neg (by decide), if_pos rfl] at hproof
  rw [mapAfter_twoRecords, if_neg (by decide), if_neg (by decide)] at hnone
  exact ⟨root, cids, absent, hroot, hproof, hnone⟩

end Session

end Manapds
