import Manapds.Account.Linear

/-!
# Exporting what is new

A block is dated by the revision that wrote it, and keeps its date for as long as it stays. One
that was let go of and is written again has its row deleted and inserted anew, so what is dated no
later than some revision has been there ever since. A download of what was written after a
revision leaves out no block that the revision was without.
-/

namespace Manapds

open QueryProgram Routine

variable {Cid : Type} {did : Did}

/-- The tables at each revision of a repository, the latest first. -/
def World.history (w : World Cid) : List (Tables Cid) := w.moved.map Moved.after ++ [w.opened]

/-! ## How old a block is -/

/-- What is dated no later than the root of `old` was in `old`. -/
structure Tables.KeptSince (old now : Tables Cid) (root current : Root Cid) : Prop where
  then_ : old.repoRoot = some root
  now_ : now.repoRoot = some current
  later : ¬current.rev < root.rev
  rows : ∀ row ∈ now.repoBlock, ¬root.rev < row.repoRev → row ∈ old.repoBlock

section

variable [Codec Cid] [LawfulCodec Cid] [DecidableEq Cid] [CidText Cid] {w w' : World Cid}

omit [Codec Cid] [LawfulCodec Cid] [CidText Cid] in
/-- A row of the tables a commit leaves was there before or is dated by it. -/
theorem ActorState.mem_repoBlock_of_commit {actor actor' : ActorState Cid} {revision : Revision Cid}
    {committed : Committed Cid} (hk : Table.Keyed BlockRow.cid actor.tables.repoBlock)
    (h : actor.commit did revision = (.ok (some committed), actor')) {row : BlockRow Cid}
    (hm : row ∈ actor'.tables.repoBlock) :
    row ∈ actor.tables.repoBlock ∨ row.repoRev = revision.root.rev := by
  obtain ⟨s, hs, -, htab, -, -⟩ := ActorState.commit_landed h
  obtain ⟨-, -, -, hblock, -⟩ := Landing.store_ok hs
  have hrows : actor'.tables.repoBlock = s.tables.repoBlock := by rw [htab]
  rw [hrows, hblock] at hm
  have hfind := ((Landing.keyed_blocksLeft hk _ _ _).find_eq_some).mpr ⟨hm, rfl⟩
  rw [Landing.find_blocksLeft hk] at hfind
  split_ifs at hfind
  rcases Option.or_eq_some_iff.mp hfind with hheld | ⟨-, hwritten⟩
  · exact Or.inl (Table.mem_of_find hheld)
  · obtain ⟨bytes, -, hrow⟩ := Option.map_eq_some_iff.mp hwritten
    right
    rw [← hrow]

omit [Codec Cid] [LawfulCodec Cid] [DecidableEq Cid] [CidText Cid] in
theorem Tables.KeptSince.of_same {old old' now now' : Tables Cid} {root current : Root Cid}
    (h : old.KeptSince now root current) (ho : old.Same old') (hn : now.Same now') :
    old'.KeptSince now' root current := by
  refine ⟨ho.repoRoot.trans h.then_, hn.repoRoot.trans h.now_, h.later, ?_⟩
  rw [ho.repoBlock, hn.repoBlock]
  exact h.rows

namespace World

omit [LawfulCodec Cid] in
/-- A step leaves the tables the same but for the blobs, or lands a revision. -/
theorem Step.same_or_landed {who : Option ℕ} (hs : Step did who w w') :
    (w'.moved = w.moved ∧ w.actor.tables.Same w'.actor.tables) ∨
    ∃ m committed, w'.moved = m :: w.moved ∧ m.before = w.actor.tables ∧
      m.after = w'.actor.tables ∧
      w.actor.commit did m.revision = (.ok (some committed), w'.actor) := by
  cases hs with
  | start | root | read | fault | leave | disk => exact Or.inl ⟨rfl, Tables.Same.refl _⟩
  | addBlob | takeStale => exact Or.inl ⟨rfl, rfl, rfl, rfl, rfl, rfl⟩
  | lost hi hc hn =>
    exact Or.inl ⟨rfl, Tables.Same.of_eq (ActorState.commit_lost_unchanged hc hn).1⟩
  | landed hi hc => exact Or.inr ⟨_, _, rfl, rfl, rfl, hc⟩

omit [Codec Cid] [LawfulCodec Cid] [DecidableEq Cid] [CidText Cid] in
theorem exists_mem_history (hm : w'.moved = w.moved) (hs : w.actor.tables.Same w'.actor.tables)
    {old : Tables Cid} (h : old ∈ w'.history) : ∃ old' ∈ w.history, old'.Same old := by
  unfold history opened at h ⊢
  rw [hm] at h
  rcases List.mem_append.mp h with h | h
  · exact ⟨old, List.mem_append_left _ h, Tables.Same.refl old⟩
  · obtain rfl := List.mem_singleton.mp h
    refine ⟨_, List.mem_append_right _ List.mem_cons_self, ?_⟩
    cases w.moved.getLast? with
    | none => exact hs
    | some m => exact Tables.Same.refl _

omit [Codec Cid] [LawfulCodec Cid] [DecidableEq Cid] [CidText Cid] in
/-- A revision that lands is one more in the history. -/
theorem mem_history_landed {m : Moved Cid} (hm : w'.moved = m :: w.moved)
    (hb : m.before = w.actor.tables) {old : Tables Cid} (h : old ∈ w'.history) :
    old = m.after ∨ old ∈ w.history := by
  have hopened : w'.opened = w.opened := by
    unfold opened
    rw [hm, List.getLast?_cons]
    cases w.moved.getLast? with
    | none => exact hb
    | some first => rfl
  rw [history, hm, hopened] at h
  exact List.mem_cons.mp h

/-- The tables of each revision hold what is dated no later than it. -/
theorem Reachable.keptSince (h : Reachable did w) : ∀ old ∈ w.history, ∃ root current,
    old.KeptSince w.actor.tables root current := by
  induction h with
  | @founded actor hf =>
    intro old hold
    obtain rfl : old = actor.tables := List.mem_singleton.mp hold
    obtain ⟨hc, hl⟩ := hf
    have hcar := Tables.Carries.genesis hc hl
    refine ⟨_, _, hcar.root, hcar.root, ?_, fun row hm _ => hm⟩
    exact lt_irrefl (α := Str) _
  | @step who w w' h hs ih =>
    intro old hold
    rcases hs.same_or_landed with ⟨hm, hsame⟩ | ⟨m, committed, hm, hbefore, hafter, hc⟩
    · obtain ⟨old', hold', hsame'⟩ := exists_mem_history hm hsame hold
      obtain ⟨root, current, hkept⟩ := ih old' hold'
      exact ⟨root, current, hkept.of_same hsame' hsame⟩
    · have hmem : m ∈ w'.moved := by
        rw [hm]
        exact List.mem_cons_self
      obtain ⟨repo, ℓ, xs, worked, next, ℓ', xs', hl⟩ := (h.step hs).sound.lands m hmem
      have hroot' := hl.after.root
      rw [hafter] at hroot'
      rcases mem_history_landed hm hbefore hold with rfl | hold
      · refine ⟨_, _, hl.after.root, hroot', lt_irrefl next.rev.str, ?_⟩
        rw [hafter]
        exact fun row hrow _ => hrow
      · obtain ⟨root, current, hkept⟩ := ih old hold
        have hcurrent : current.rev < next.rev := by
          have hroot := hl.before.root
          rw [hbefore, hkept.now_] at hroot
          rw [Option.some.inj hroot]
          exact hl.rev
        have hle : root.rev.str ≤ current.rev.str := not_lt.mp hkept.later
        have hlt : root.rev < next.rev := hle.trans_lt hcurrent
        have hnot : ¬next.rev.str < root.rev.str := lt_asymm (α := Str) hlt
        refine ⟨root, _, hkept.then_, hroot', hnot, ?_⟩
        intro row hrow hdate
        have hkeyed : Table.Keyed BlockRow.cid w.actor.tables.repoBlock := by
          rw [← hbefore]
          exact hl.before.blocks
        rcases ActorState.mem_repoBlock_of_commit hkeyed hc hrow with hheld | hrev
        · exact hkept.rows row hheld hdate
        · rw [hrev, hl.revision, hl.root] at hdate
          exact absurd hlt hdate

/-- What the tables of a revision hold is what its root reaches. -/
theorem Reachable.exact_history (h : Reachable did w) {old : Tables Cid} (hold : old ∈ w.history) :
    ∃ root, old.repoRoot = some root ∧ Table.Keyed BlockRow.cid old.repoBlock ∧
      ∀ c, (∃ row ∈ old.repoBlock, row.cid = c) ↔ Reached old.stored root.cid c := by
  have hsound := h.sound
  rcases List.mem_append.mp hold with hold | hold
  · obtain ⟨m, hm, rfl⟩ := List.mem_map.mp hold
    obtain ⟨repo, ℓ, xs, worked, next, ℓ', xs', hl⟩ := hsound.lands m hm
    exact ⟨_, hl.after.root, hl.after.blocks, hl.after.exact_rows.1⟩
  · obtain rfl := List.mem_singleton.mp hold
    obtain ⟨first, ⟨hc, hl⟩, hsame⟩ := hsound.founded
    have hcar := Tables.Carries.genesis hc hl
    have hstored : w.opened.stored = first.tables.stored := by
      funext cid
      unfold Tables.stored
      rw [hsame.repoBlock]
    refine ⟨_, hsame.repoRoot.trans hcar.root, ?_, ?_⟩
    · rw [hsame.repoBlock]
      exact hcar.blocks
    · rw [hsame.repoBlock, hstored]
      exact hcar.exact_rows.1

omit [LawfulCodec Cid] in
theorem Sound.carries_history (h : w.Sound did) :
    ∀ tables ∈ w.history, ∃ repo ℓ xs, tables.Carries did repo ℓ xs := by
  intro tables hm
  rcases List.mem_append.mp hm with hm | hm
  · obtain ⟨m, hmem, rfl⟩ := List.mem_map.mp hm
    obtain ⟨_, _, _, _, next, ℓ', xs', hl⟩ := h.lands m hmem
    exact ⟨next, ℓ', xs', hl.after⟩
  · obtain rfl := List.mem_singleton.mp hm
    unfold opened
    cases hlast : w.moved.getLast? with
    | none =>
      obtain ⟨repo, ℓ, xs, hc, -⟩ := h.carries
      exact ⟨repo, ℓ, xs, hc⟩
    | some m =>
      obtain ⟨repo, ℓ, xs, _, _, _, _, hl⟩ := h.lands m (List.mem_of_getLast? hlast)
      exact ⟨repo, ℓ, xs, hl.before⟩

end World

variable [LawfulCidText Cid]

/-- An incremental export is complete: what the current root reaches, the root of `old` reaches or
the pages hold. The pages hold nothing the current root does not reach, and every block that some
revision since `old` was without. -/
theorem incremental_complete (h : World.Reachable did w) : ∀ old ∈ w.history, ∃ root current,
    old.repoRoot = some root ∧ w.actor.tables.repoRoot = some current ∧
    ∀ limit, 1 ≤ limit → ∀ rounds, w.actor.tables.repoBlock.length < rounds →
      ∃ blocks, w.actor.tables.blockPages (some root.rev) limit rounds none = some blocks ∧
        (∀ c, Reached w.actor.tables.stored current.cid c →
          Reached old.stored root.cid c ∨ ∃ bytes, (c, bytes) ∈ blocks) ∧
        (∀ c bytes, (c, bytes) ∈ blocks →
          Reached w.actor.tables.stored current.cid c ∧ w.actor.tables.stored c = some bytes) ∧
        ∀ mid ∈ w.history, ∀ root', mid.repoRoot = some root' → ¬root'.rev < root.rev →
          ∀ c, Reached w.actor.tables.stored current.cid c → ¬Reached mid.stored root'.cid c →
            ∃ bytes, (c, bytes) ∈ blocks := by
  intro old hold
  obtain ⟨root, current, hkept⟩ := h.keptSince old hold
  refine ⟨root, current, hkept.then_, hkept.now_, ?_⟩
  intro limit hlimit rounds hrounds
  obtain ⟨⟨repo, ℓ, xs, hcar, -⟩, -, -, -, -⟩ := h.sound
  have hreached := hcar.exact_rows.1
  have hcurrent : current = ⟨repo.cid, repo.rev⟩ := Option.some.inj (hkept.now_.symm.trans hcar.root)
  obtain ⟨blocks, hblocks, hperm⟩ : ∃ blocks,
      w.actor.tables.blockPages (some root.rev) limit rounds none = some blocks ∧
      blocks.Perm ((w.actor.tables.writtenSince (some root.rev)).map BlockRow.block) :=
    ⟨_, Tables.blockPages_sorted hcar.blocks (some root.rev) hlimit hrounds,
      Paging.sorted_perm.map BlockRow.block⟩
  have hmem : ∀ c bytes, (c, bytes) ∈ blocks ↔
      ∃ row ∈ w.actor.tables.repoBlock, root.rev < row.repoRev ∧ row.block = (c, bytes) := by
    intro c bytes
    rw [hperm.mem_iff, List.mem_map]
    simp [Tables.writtenSince, and_assoc]
  have hwithout : ∀ mid ∈ w.history, ∀ root', mid.repoRoot = some root' → ¬root'.rev < root.rev →
      ∀ c, Reached w.actor.tables.stored current.cid c → ¬Reached mid.stored root'.cid c →
        ∃ bytes, (c, bytes) ∈ blocks := by
    intro mid hmid root' hroot' hsince c hc hnot
    rw [hcurrent, ← hreached] at hc
    obtain ⟨row, hrow, rfl⟩ := hc
    refine ⟨row.content, (hmem _ _).mpr ⟨row, hrow, ?_, rfl⟩⟩
    by_contra hdate
    obtain ⟨root1, current1, hkept'⟩ := h.keptSince mid hmid
    obtain ⟨root2, hroot2, -, hexact⟩ := h.exact_history hmid
    obtain rfl := Option.some.inj (hkept'.then_.symm.trans hroot')
    obtain rfl := Option.some.inj (hkept'.then_.symm.trans hroot2)
    have hle : row.repoRev.str ≤ root.rev.str := not_lt.mp hdate
    have hle' : root.rev.str ≤ root1.rev.str := not_lt.mp hsince
    have hold' : ¬root1.rev < row.repoRev := not_lt.mpr (hle.trans hle')
    exact hnot ((hexact row.cid).mp ⟨row, hkept'.rows row hrow hold', rfl⟩)
  refine ⟨blocks, hblocks, ?_, ?_, hwithout⟩
  · intro c hc
    by_cases hin : Reached old.stored root.cid c
    · exact Or.inl hin
    · exact Or.inr (hwithout old hold root hkept.then_ (lt_irrefl (α := Str) _) c hc hin)
  · intro c bytes hb
    obtain ⟨row, hrow, -, hblock⟩ := (hmem c bytes).mp hb
    obtain ⟨rfl, rfl⟩ := Prod.mk.inj hblock
    refine ⟨?_, ?_⟩
    · rw [hcurrent, ← hreached]
      exact ⟨row, hrow, rfl⟩
    · rw [Tables.stored, hcar.blocks.find_eq_some.mpr ⟨hrow, rfl⟩]
      rfl

end

section

open DagCbor Shape

/-- The record goes again. -/
def firstGone : Requested RawCid := ⟨.delete recordCollection recordKey, .anything, .refuse, .ignore⟩

theorem exists_gone_plan (tables : Tables RawCid) : ∃ plan,
    tables.planOn recordDid [firstLeaf] [firstGone] = .ok plan ∧ plan.writes ≠ [] ∧
    (∀ write ∈ plan.writes, write.named = true) ∧ leavesAfter plan.writes [firstLeaf] = some [] ∧
    ∀ record ∈ plan.index, record.blobs = [] :=
  exists_plan_of [.delete recordCollection recordKey] ⟨_, rfl, rfl, rfl⟩ (List.cons_ne_nil _ _) rfl
    rfl rfl

/-- A record goes in, comes out and goes in again. -/
theorem exists_again_landed : ∃ (w : World RawCid) (first second third : Moved RawCid)
    (there gone again : Repo RawCid) (ℓ ℓ' ℓ'' : ℕ), World.Reachable recordDid w ∧
      w.moved = [third, second, first] ∧ first.after.Carries recordDid there ℓ [firstLeaf] ∧
      second.before = first.after ∧ second.after.Carries recordDid gone ℓ' [] ∧
      w.actor.tables.Carries recordDid again ℓ'' [firstLeaf] := by
  obtain ⟨actor, repo, hf, hc, hrev⟩ :=
    World.exists_founded recordDid blankKey (⟨[], []⟩ : BlobFiles RawCid)
  obtain ⟨plan, hplan, hne, hnamed, hleaves, hblobs⟩ := exists_first_plan actor.tables
  obtain ⟨w1, first, _, _, repo1, ℓ1, hw1, hmoved1, -, hafter1, -, -, -, -, hc1, hrev1⟩ :=
    (World.Reachable.founded hf).exists_landed hc (by rw [hrev, Tid.ceiling_eq]; omega) blankKey
      hplan hne hnamed hleaves (ActorState.ready_of_blobless hblobs)
  obtain ⟨plan', hplan', hne', hnamed', hleaves', hblobs'⟩ := exists_gone_plan w1.actor.tables
  obtain ⟨w2, second, _, _, repo2, ℓ2, hw2, hmoved2, hbefore2, hafter2, -, -, -, -, hc2, hrev2⟩ :=
    hw1.exists_landed hc1 (by rw [hrev1, hrev, Tid.ceiling_eq]; omega) blankKey hplan' hne' hnamed'
      hleaves' (ActorState.ready_of_blobless hblobs')
  obtain ⟨plan'', hplan'', hne'', hnamed'', hleaves'', hblobs''⟩ := exists_first_plan w2.actor.tables
  obtain ⟨w3, third, _, _, repo3, ℓ3, hw3, hmoved3, -, -, -, -, -, -, hc3, -⟩ :=
    hw2.exists_landed hc2 (by rw [hrev2, hrev1, hrev, Tid.ceiling_eq]; omega) blankKey hplan'' hne''
      hnamed'' hleaves'' (ActorState.ready_of_blobless hblobs'')
  refine ⟨w3, first, second, third, repo1, repo2, repo3, ℓ1, ℓ2, ℓ3, hw3, ?_, ?_, ?_, ?_, hc3⟩
  · rw [hmoved3, hmoved2, hmoved1]
  · rw [hafter1]
    exact hc1
  · rw [hbefore2, hafter1]
  · rw [hafter2]
    exact hc2

/-- The block of a record that came out and went in again is in the pages, though the revision they
are asked since had it. -/
theorem incremental_complete_again : ∃ (w : World RawCid) (first second third : Moved RawCid)
    (root : Root RawCid) (blocks : List (RawCid × Bytes)), w.moved = [third, second, first] ∧
    first.after.repoRoot = some root ∧ Reached first.after.stored root.cid firstLeaf.value ∧
    (∀ root', second.after.repoRoot = some root' →
      ¬Reached second.after.stored root'.cid firstLeaf.value) ∧
    w.actor.tables.blockPages (some root.rev) 1 (w.actor.tables.repoBlock.length + 1) none =
      some blocks ∧ ∃ bytes, (firstLeaf.value, bytes) ∈ blocks := by
  obtain ⟨w, first, second, third, there, gone, again, ℓ, ℓ', ℓ'', hw, hmoved, hthere, hbefore, hgone,
    hagain⟩ := exists_again_landed
  have hold : first.after ∈ w.history := by simp [World.history, hmoved]
  have hmid : second.after ∈ w.history := by simp [World.history, hmoved]
  obtain ⟨root, current, hroot, hcurrent, hpages⟩ := incremental_complete hw first.after hold
  obtain ⟨blocks, hblocks, -, -, hwritten⟩ := hpages 1 le_rfl _ (Nat.lt_succ_self _)
  obtain rfl : root = ⟨there.cid, there.rev⟩ := Option.some.inj (hroot.symm.trans hthere.root)
  obtain rfl : current = ⟨again.cid, again.rev⟩ := Option.some.inj (hcurrent.symm.trans hagain.root)
  have hin : ∀ (repo : Repo RawCid) (k : ℕ) (tables : Tables RawCid),
      tables.Carries recordDid repo k [firstLeaf] →
      Reached tables.stored repo.cid firstLeaf.value := by
    intro repo k tables hc
    rw [(hc.exact.standing hc.stands).reached_iff, mem_preorder hc.stands.data.fits]
    exact Or.inr (Or.inr ⟨firstLeaf, List.mem_singleton_self _, rfl⟩)
  have hrecord : IsRecord firstLeaf.value :=
    ⟨recordCollection, textRecord (text "first"), _, rfl, rfl, rfl⟩
  have hout : ¬Reached second.after.stored gone.cid firstLeaf.value := by
    rw [(hgone.exact.standing hgone.stands).reached_iff, mem_preorder hgone.stands.data.fits]
    rintro (he | ⟨p, hp, he⟩ | ⟨x, hx, -⟩)
    · exact hrecord.ne_commit (he ▸ hgone.stands.commit)
    · have hkeyed := hgone.stands.data.keyed.sublist
        (of_mem_nodesOf hgone.stands.data.fits hp).2.1
      exact hrecord.ne_cidAt hkeyed he
    · cases hx
  have hlater : there.rev < gone.rev := by
    obtain ⟨repo, _, _, _, next, _, _, hlands⟩ :=
      hw.sound.lands second (by simp [hmoved])
    have hfrom := hlands.before.root
    rw [hbefore, hthere.root] at hfrom
    have hto := hlands.after.root
    rw [hgone.root] at hto
    have hrev := hlands.rev
    simp only [Option.some.injEq, Root.mk.injEq] at hfrom hto
    rwa [← hfrom.2, ← hto.2] at hrev
  refine ⟨w, first, second, third, _, blocks, hmoved, hroot, hin there ℓ _ hthere, ?_, hblocks, ?_⟩
  · intro root' hroot'
    rw [Option.some.inj (hroot'.symm.trans hgone.root)]
    exact hout
  · have hnot : ¬gone.rev < there.rev := fun hrev => lt_asymm (a := there.rev.str) hlater hrev
    exact hwritten second.after hmid ⟨gone.cid, gone.rev⟩ hgone.root hnot firstLeaf.value
      (hin again ℓ'' _ hagain) hout

end

end Manapds
