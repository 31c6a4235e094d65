import Manapds.Account.Export
import Manapds.Account.Progress

/-!
# One revision after another

Whatever writers do to an account's database and in whatever order, its tables are those of one
revision exactly, and each revision was worked out alone on the one before it.
-/

namespace Manapds

open KeyedList Shape QueryProgram Routine

section

variable {Cid : Type} [Codec Cid] [LawfulCodec Cid] [DecidableEq Cid] [CidText Cid] {did : Did}
  {w : World Cid}

omit [CidText Cid] in
/-- The blocks of a revision are those its commit reaches, and the index has its leaves. -/
theorem Tables.Carries.exact_rows {tables : Tables Cid} {repo : Repo Cid} {ℓ : ℕ}
    {xs : List (Leaf Cid)} (h : tables.Carries did repo ℓ xs) :
    (∀ c, (∃ row ∈ tables.repoBlock, row.cid = c) ↔ Reached tables.stored repo.cid c) ∧
    ∀ at_ cid, (∃ row ∈ tables.record, row.uri = at_ ∧ row.cid = cid) ↔
      ∃ x ∈ xs, at_ = uriAt did x.key ∧ cid = x.value := by
  have hstand := h.exact.standing h.stands
  constructor
  · intro c
    rw [hstand.reached_iff, ← h.exact.mem, Tables.stored, Option.isSome_map, Table.isSome_find]
  · intro at_ cid
    constructor
    · rintro ⟨row, hm, rfl, rfl⟩
      have hat := h.agree (recordPath row.collection row.rkey)
      rw [← uri_eq_uriAt, ← h.mirrors.named row hm, h.mirrors.keyed.find_eq_some.mpr ⟨hm, rfl⟩,
        Option.map_some] at hat
      obtain ⟨x, hx, hv⟩ := Option.map_eq_some_iff.mp hat.symm
      obtain ⟨hmem, hkey⟩ := find_mem hx
      refine ⟨x, hmem, ?_, hv.symm⟩
      rw [hkey, ← uri_eq_uriAt]
      exact h.mirrors.named row hm
    · rintro ⟨x, hx, rfl, rfl⟩
      have hat := h.agree x.key
      rw [h.stands.data.keyed.ordered.find_eq_some.mpr ⟨hx, rfl⟩, Option.map_some] at hat
      obtain ⟨row, hrow, hc⟩ := Option.map_eq_some_iff.mp hat
      exact ⟨row, Table.mem_of_find hrow, Table.key_of_find hrow, hc⟩

end

section

open DagCbor

def firstAsked : Requested RawCid := ⟨firstWrite, .anything, .refuse, .ignore⟩

def firstLeaf : Leaf RawCid := ⟨firstWrite.key, DagCbor.cidFor (enc (textRecord (text "first")).ipld)⟩

/-- A plan of what is asked for and nothing else, where no record names a blob. -/
theorem exists_plan_of {tables : Tables RawCid} {xs xs' : List (Leaf RawCid)}
    {requested : List (Requested RawCid)} (index : List (Indexed RawCid)) (h : ∃ plan,
      tables.planOn recordDid xs requested = .ok plan ∧
      plan.writes = requested.map Requested.write ∧ plan.index = index) (hne : requested ≠ [])
    (hn : requested.all (·.write.named) = true)
    (hl : leavesAfter (requested.map Requested.write) xs = some xs')
    (hb : index.all (·.blobs.isEmpty) = true) : ∃ plan,
    tables.planOn recordDid xs requested = .ok plan ∧ plan.writes ≠ [] ∧
    (∀ write ∈ plan.writes, write.named = true) ∧ leavesAfter plan.writes xs = some xs' ∧
    ∀ record ∈ plan.index, record.blobs = [] := by
  obtain ⟨plan, hplan, hwrites, rfl⟩ := h
  refine ⟨plan, hplan, ?_, ?_, ?_, ?_⟩
  · rw [hwrites]
    exact List.map_eq_nil_iff.not.mpr hne
  · rw [hwrites]
    intro write hm
    obtain ⟨asked, hasked, rfl⟩ := List.mem_map.mp hm
    exact List.all_eq_true.mp hn asked hasked
  · rw [hwrites]
    exact hl
  · intro record hm
    exact List.isEmpty_iff.mp (List.all_eq_true.mp hb record hm)

theorem exists_first_plan (tables : Tables RawCid) : ∃ plan,
    tables.planOn recordDid [] [firstAsked] = .ok plan ∧ plan.writes ≠ [] ∧
    (∀ write ∈ plan.writes, write.named = true) ∧
    leavesAfter plan.writes [] = some [firstLeaf] ∧ ∀ record ∈ plan.index, record.blobs = [] :=
  exists_plan_of [.put recordCollection recordKey firstLeaf.value [] []] ⟨_, rfl, rfl, rfl⟩
    (List.cons_ne_nil _ _) rfl rfl rfl

theorem otherKey_valid : RecordKey.validate (text "3jqfcqzm3fx2j") = .ok () := rfl

/-- With its collection, `highKey`. -/
def otherKey : RecordKey := ⟨text "3jqfcqzm3fx2j", otherKey_valid⟩

def secondWrite : Write RawCid := .create recordCollection otherKey (textRecord (text "second"))

def secondAsked : Requested RawCid := ⟨secondWrite, .anything, .refuse, .ignore⟩

def secondLeaf : Leaf RawCid := ⟨secondWrite.key, DagCbor.cidFor (enc (textRecord (text "second")).ipld)⟩

theorem exists_second_plan (tables : Tables RawCid) : ∃ plan,
    tables.planOn recordDid [firstLeaf] [secondAsked] = .ok plan ∧ plan.writes ≠ [] ∧
    (∀ write ∈ plan.writes, write.named = true) ∧
    leavesAfter plan.writes [firstLeaf] = some [firstLeaf, secondLeaf] ∧
    ∀ record ∈ plan.index, record.blobs = [] :=
  exists_plan_of [.put recordCollection otherKey secondLeaf.value [] []] ⟨_, rfl, rfl, rfl⟩
    (List.cons_ne_nil _ _) rfl rfl rfl

/-- A database nothing has been written to yet. -/
theorem exists_first_founded : ∃ (actor : ActorState RawCid) (repo : Repo RawCid),
    Founded recordDid actor ∧ actor.tables.Carries recordDid repo 0 [] ∧
    repo.rev.toParts.1 + 1 < Tid.ceiling := by
  obtain ⟨actor, repo, hf, hc, hroom⟩ :=
    World.exists_founded recordDid blankKey (⟨[], []⟩ : BlobFiles RawCid)
  refine ⟨actor, repo, hf, hc, ?_⟩
  rw [hroom, Tid.ceiling_eq]
  omega

/-- A database one write has landed in. -/
theorem exists_first_landed : ∃ (w : World RawCid) (m : Moved RawCid) (repo : Repo RawCid) (ℓ : ℕ),
    World.Reachable recordDid w ∧ w.moved = [m] ∧ m.job.requested = [firstAsked] ∧
      w.actor.tables.Carries recordDid repo ℓ [firstLeaf] := by
  obtain ⟨actor, repo, hf, hc, hroom⟩ := exists_first_founded
  obtain ⟨plan, hplan, hne, hnamed, hleaves, hblobs⟩ := exists_first_plan actor.tables
  obtain ⟨w, m, worked, committed, next, ℓ', hw, hmoved, -, -, hjob, -, -, -, hcarries, -⟩ :=
    (World.Reachable.founded hf).exists_landed hc (Nat.lt_of_succ_lt hroom) blankKey hplan hne hnamed
      hleaves (ActorState.ready_of_blobless hblobs)
  exact ⟨w, m, next, ℓ', hw, hmoved, by rw [hjob], hcarries⟩

/-- A database two writes have landed in, one after the other. -/
theorem exists_second_landed : ∃ (w : World RawCid) (first second : Moved RawCid)
    (repo : Repo RawCid) (ℓ : ℕ), World.Reachable recordDid w ∧ w.moved = [second, first] ∧
      (first.job.requested, first.job.swap) = ([firstAsked], none) ∧
      (second.job.requested, second.job.swap) = ([secondAsked], none) ∧
      w.actor.tables.Carries recordDid repo ℓ [firstLeaf, secondLeaf] := by
  obtain ⟨actor, repo, hf, hc, hroom⟩ := exists_first_founded
  obtain ⟨plan, hplan, hne, hnamed, hleaves, hblobs⟩ := exists_first_plan actor.tables
  obtain ⟨w1, first, _, _, repo1, ℓ1, hw1, hmoved1, -, -, hjob1, -, -, -, hc1, hrev⟩ :=
    (World.Reachable.founded hf).exists_landed hc (Nat.lt_of_succ_lt hroom) blankKey hplan hne hnamed
      hleaves (ActorState.ready_of_blobless hblobs)
  obtain ⟨plan', hplan', hne', hnamed', hleaves', hblobs'⟩ := exists_second_plan w1.actor.tables
  obtain ⟨w2, second, _, _, repo2, ℓ2, hw2, hmoved2, -, -, hjob2, -, -, -, hc2, -⟩ :=
    hw1.exists_landed hc1 (hrev.trans_lt hroom) blankKey hplan' hne' hnamed' hleaves'
      (ActorState.ready_of_blobless hblobs')
  refine ⟨w2, first, second, repo2, ℓ2, hw2, ?_, by rw [hjob1], by rw [hjob2], hc2⟩
  rw [hmoved2, hmoved1]

end

section

variable {Cid : Type} [Codec Cid] [LawfulCodec Cid] [DecidableEq Cid] [CidText Cid] {did : Did}
  {w : World Cid}

/-- The block table is exact, and the index agrees with the tree. -/
theorem tables_exact (h : World.Reachable did w) :
    ∃ root repo leaves repo', w.actor.tables.repoRoot = some root ∧
      exec (Store.answer w.actor.tables.stored) (Repo.load root.cid) () = (.ok repo, ()) ∧
      exec (Store.answer w.actor.tables.stored) repo.records () = (.ok (leaves, repo'), ()) ∧
      (w.actor.tables.repoBlock.map BlockRow.cid).Nodup ∧
      (∀ c, (∃ row ∈ w.actor.tables.repoBlock, row.cid = c) ↔
        Reached w.actor.tables.stored root.cid c) ∧
      (w.actor.tables.record.map RecordRow.uri).Nodup ∧
      ∀ at_ cid, (∃ row ∈ w.actor.tables.record, row.uri = at_ ∧ row.cid = cid) ↔
        ∃ x ∈ leaves, at_ = uriAt did x.key ∧ cid = x.value := by
  obtain ⟨⟨repo, ℓ, xs, hc, -⟩, -, -, -, -⟩ := h.sound
  have hstand := hc.exact.standing hc.stands
  obtain ⟨t, ht⟩ := hstand.exec_leaves ()
  obtain ⟨hblocks, hrecords⟩ := hc.exact_rows
  refine ⟨_, _, xs, ⟨repo.cid, repo.commit, t⟩, hc.root, hstand.exec_load (), ?_, hc.blocks, hblocks,
    hc.mirrors.keyed, hrecords⟩
  simp only [Repo.records, exec_bind, ht, exec_pure]

end

section

open DagCbor

theorem tables_exact_first : ∃ (w : World RawCid) (root : Root RawCid), w.moved ≠ [] ∧
    w.actor.tables.repoRoot = some root ∧
    (∀ c, (∃ row ∈ w.actor.tables.repoBlock, row.cid = c) ↔
      Reached w.actor.tables.stored root.cid c) ∧
    ∃ row ∈ w.actor.tables.record, row.uri = uriAt recordDid firstWrite.key := by
  obtain ⟨w, m, repo, ℓ, hw, hmoved, -, hc⟩ := exists_first_landed
  obtain ⟨root, _, _, _, hroot, -, -, -, hblocks, -, -⟩ := tables_exact hw
  refine ⟨w, root, by simp [hmoved], hroot, hblocks, ?_⟩
  obtain ⟨row, hrow, hat, -⟩ :=
    (hc.exact_rows.2 (uriAt recordDid firstWrite.key) firstLeaf.value).mpr
      ⟨firstLeaf, List.mem_singleton_self _, rfl, rfl⟩
  exact ⟨row, hrow, hat⟩

end

section

variable {Cid : Type} [Codec Cid] [LawfulCodec Cid] [DecidableEq Cid] [CidText Cid] {did : Did}
  {w : World Cid}

/-- Writes are linearizable and none is lost: each revision was worked out alone on the one before
it, and a step that lands nothing leaves every table as it was. -/
theorem writes_linearizable (h : World.Reachable did w) :
    (∀ m ∈ w.moved, ∃ repo ℓ xs worked next ℓ' xs',
      m.Lands did repo ℓ xs worked next ℓ' xs') ∧
    (w.moved.IsChain fun later earlier => earlier.after.Same later.before) ∧
    (∀ m ∈ w.moved.head?, m.after.Same w.actor.tables) ∧
    (∃ first, Founded did first ∧ first.tables.Same w.opened) ∧
    ∀ i w', World.Step did (some i) w w' → w'.moved = w.moved →
      w'.actor.tables = w.actor.tables := by
  have hsound := h.sound
  refine ⟨hsound.lands, hsound.chain, hsound.current, hsound.founded, fun i w' hs hm => ?_⟩
  cases hs with
  | landed hi hc => exact absurd hm (List.cons_ne_self _ _)
  | lost hi hc hn => exact (ActorState.commit_lost_unchanged hc hn).1
  | start | root | read | fault | leave => rfl

end

section

open DagCbor

theorem exists_rival_plan (tables : Tables RawCid) : ∃ plan,
    tables.planOn recordDid [] [secondAsked] = .ok plan ∧ plan.writes ≠ [] ∧
    (∀ write ∈ plan.writes, write.named = true) ∧
    leavesAfter plan.writes [] = some [secondLeaf] ∧ ∀ record ∈ plan.index, record.blobs = [] :=
  exists_plan_of [.put recordCollection otherKey secondLeaf.value [] []] ⟨_, rfl, rfl, rfl⟩
    (List.cons_ne_nil _ _) rfl rfl rfl

/-- Two writers have worked out a revision on one root. The first one lands and the second loses. -/
theorem exists_contended : ∃ (w w' : World RawCid) (m : Moved RawCid) (repo : Repo RawCid) (ℓ : ℕ)
    (worked : Worked RawCid) (rival : Job RawCid)
    (answered : Except (StoreError RawCid) (Option (Committed RawCid)) →
      Writes RawCid (Outcome RawCid)), World.Reachable recordDid w ∧ w.moved = [m] ∧
      m.job.requested = [firstAsked] ∧ w.actor.tables.Carries recordDid repo ℓ [firstLeaf] ∧
      repo.rev.toParts.1 < Tid.ceiling ∧ rival.requested = [secondAsked] ∧
      w.writers 1 = some ⟨rival, .ask (.commit worked.revision) answered⟩ ∧
      worked.revision.start = m.revision.start ∧ World.Step recordDid (some 1) w w' ∧
      w'.moved = w.moved ∧ w'.writers 1 = some ⟨rival, answered (.ok none)⟩ := by
  obtain ⟨actor, repo, hf, hc, hroom⟩ := exists_first_founded
  obtain ⟨plan, hplan, hne, hnamed, hleaves, hblobs⟩ := exists_first_plan actor.tables
  obtain ⟨job, hjob⟩ : ∃ job : Job RawCid, job = ⟨recordDid, blankKey, [firstAsked], none,
    roundsFor 0 [] [firstLeaf]⟩ := ⟨_, rfl⟩
  obtain ⟨rival, hrival⟩ : ∃ job : Job RawCid, job = ⟨recordDid, blankKey, [secondAsked], none,
    roundsFor 0 [] [secondLeaf]⟩ := ⟨_, rfl⟩
  have hfounded : World.Reachable recordDid ⟨actor, fun _ => none, []⟩ := .founded hf
  have hdid : job.did = recordDid := by rw [hjob]
  have hdid' : rival.did = recordDid := by rw [hrival]
  have hstarted := (hfounded.step (.start (i := 0) rfl hdid)).step (.start (i := 1) rfl hdid')
  obtain ⟨w0, hw0, hactor0, hmoved0, hfirst0, hsecond0⟩ : ∃ w0, World.Reachable recordDid w0 ∧
      w0.actor = actor ∧ w0.moved = [] ∧ w0.writers 0 = some ⟨job, commitWrites job⟩ ∧
      w0.writers 1 = some ⟨rival, commitWrites rival⟩ :=
    ⟨_, hstarted, rfl, rfl, rfl, rfl⟩
  rw [← hactor0] at hc hplan
  -- The first one gets to where it can land, and then the second one, before either does.
  obtain ⟨w1, worked, answered, committed, landed, next, ℓ', hgoes, hactor1, hmoved1, hready, -, -,
    hstart, -, hcommit, hnext, hrev⟩ :=
      World.exists_ready hc (Nat.lt_of_succ_lt hroom) hjob hfirst0 hplan hne hnamed hleaves
        (ActorState.ready_of_blobless hblobs)
  have hc1 := hc
  rw [← hactor1] at hc1
  obtain ⟨plan', hplan', hne', hnamed', hleaves', hblobs'⟩ := exists_rival_plan w1.actor.tables
  have hsecond1 := (hgoes.other (j := 1) (by simp)).trans hsecond0
  obtain ⟨w2, worked', answered', _, _, _, _, hgoes', hactor2, hmoved2, hready', -, -, hstart',
    hrecords', -, -, -⟩ := World.exists_ready hc1 (Nat.lt_of_succ_lt hroom) hrival hsecond1 hplan'
      hne' hnamed' hleaves' (ActorState.ready_of_blobless hblobs')
  have hfirst2 := (hgoes'.other (j := 0) (by simp)).trans hready
  rw [← hactor1, ← hactor2] at hcommit
  have hw2 := (hw0.goes hgoes).goes hgoes'
  have hlanded := hw2.step (.landed hfirst2 hcommit)
  -- The root is another one now.
  have hother : next.cid ≠ repo.cid := by
    intro he
    have hat := hnext.stands.commit
    rw [he] at hat
    have hsame : next.rev = repo.rev := congrArg Commit.rev (hat.inj hc.stands.commit)
    rw [hsame] at hrev
    omega
  have hready : landed.begun.Ready worked'.revision.records := by
    rw [hrecords']
    exact ActorState.ready_of_blobless hblobs'
  obtain ⟨lost, hlost⟩ := ActorState.commit_loses recordDid landed worked'.revision hready hnext.root
    hstart' hother
  have hsecond3 : Function.update w2.writers 0 (some ⟨job, answered (.ok (some committed))⟩) 1 =
      some ⟨rival, .ask (.commit worked'.revision) answered'⟩ := by
    rw [Function.update_of_ne (by simp)]
    exact hready'
  refine ⟨_, _, ⟨job, worked.revision, answered (.ok (some committed)), w2.actor.tables,
    landed.tables⟩, next, ℓ', worked', rival, answered', hlanded, ?_, ?_, hnext, ?_, ?_, hsecond3, ?_,
    .lost hsecond3 hlost (by simp), rfl, by simp [World.resume]⟩
  · rw [hmoved2, hmoved1, hmoved0]
  · rw [hjob]
  · rw [hrev]
    exact hroom
  · rw [hrival]
  · exact hstart'.trans hstart.symm

/-- The second of two writers that have read one root loses, and what it was asked for lands on what
the first one left. -/
theorem writes_linearizable_first : ∃ (w w' w'' : World RawCid) (m later : Moved RawCid)
    (worked : Worked RawCid) (rival : Job RawCid)
    (answered : Except (StoreError RawCid) (Option (Committed RawCid)) →
      Writes RawCid (Outcome RawCid)),
    w.moved = [m] ∧ w.writers 1 = some ⟨rival, .ask (.commit worked.revision) answered⟩ ∧
    worked.revision.start = m.revision.start ∧ World.Step recordDid (some 1) w w' ∧
    w'.writers 1 = some ⟨rival, answered (.ok none)⟩ ∧ w'.actor.tables = w.actor.tables ∧
    w''.moved = [later, m] ∧ later.job.requested = rival.requested ∧ m.after.Same later.before ∧
    later.after.Same w''.actor.tables ∧ ∀ m ∈ w''.moved, ∃ repo ℓ xs worked next ℓ' xs',
      m.Lands recordDid repo ℓ xs worked next ℓ' xs' := by
  obtain ⟨w, w', m, repo, ℓ, worked, rival, answered, hw, hmoved, hasked, hc, hroom, hrival, hready,
    hstart, hlost, hmoved', hwriter'⟩ := exists_contended
  obtain ⟨-, -, -, -, hstill⟩ := writes_linearizable hw
  have htables := hstill 1 w' hlost hmoved'
  rw [← htables] at hc
  obtain ⟨plan, hplan, hne, hnamed, hleaves, hblobs⟩ := exists_second_plan w'.actor.tables
  obtain ⟨w'', later, _, _, _, _, hw'', hmoved'', -, -, hjob, -⟩ :=
    (hw.step hlost).exists_landed hc hroom blankKey hplan hne hnamed hleaves
      (ActorState.ready_of_blobless hblobs)
  have hboth : w''.moved = [later, m] := by rw [hmoved'', hmoved', hmoved]
  obtain ⟨hlands, hchain, hcurrent, -, -⟩ := writes_linearizable hw''
  rw [hboth] at hchain hcurrent
  refine ⟨w, w', w'', m, later, worked, rival, answered, hmoved, hready, hstart, hlost, hwriter',
    htables, hboth, ?_, ?_, hcurrent later rfl, hlands⟩
  · rw [hjob, hrival]
  · exact (List.isChain_cons_cons.mp hchain).1

end

end Manapds
