import Manapds.Repo.Reach
import Manapds.Repo.DagCbor

/-!
# Publishing a repository revision by revision

A store that holds exactly what a commit reaches is enough for `Repo.apply` to work from, and the
blocks it hands back are just what such a store needs to hold the next revision. A consumer that
only ever adds the blocks of each revision to those it has can read every revision it was sent.
-/

namespace Manapds

open KeyedList Shape QueryProgram Routine

variable {Cid : Type} [Codec Cid] [DecidableEq Cid]

/-- A revision a store can be asked for: the commit, every record in key order, and every block
they reach. -/
def Readable (st : Cid → Option Bytes) (cid : Cid) : Prop :=
  (∃ repo leaves repo', exec (Store.answer st) (Repo.load cid) () = (.ok repo, ()) ∧
    exec (Store.answer st) repo.records () = (.ok (leaves, repo'), ())) ∧
  ∀ c, Reached st cid c → (st c).isSome

/-- A repository from its first commit on: the store behind it, the blocks a consumer has been
handed, and its revisions, the current one first. -/
inductive Published (did : Did) : (st acc : Cid → Option Bytes) → List (Repo Cid) → Prop where
  | genesis {keypair : Keypair} {now : ℕ} {clock clock' : TidClock} {repo : Repo Cid}
      {blocks : BlockMap Cid} :
      Repo.create did keypair now clock = (.ok (repo, blocks), clock') →
      Published did blocks.lookup blocks.lookup [repo]
  | reload {st acc : Cid → Option Bytes} {repo repo' : Repo Cid} {revs : List (Repo Cid)} :
      Published did st acc (repo :: revs) →
      exec (Store.answer st) (Repo.load repo.cid) () = (.ok repo', ()) →
      Published did st acc (repo' :: revs)
  | get {st acc : Cid → Option Bytes} {repo repo' : Repo Cid} {revs : List (Repo Cid)}
      {collection : Nsid} {rkey : RecordKey} {found : Option Cid} :
      Published did st acc (repo :: revs) →
      exec (Store.answer st) (repo.get collection rkey) () = (.ok (found, repo'), ()) →
      Published did st acc (repo' :: revs)
  | apply {st acc : Cid → Option Bytes} {repo repo' : Repo Cid} {revs : List (Repo Cid)}
      {rounds : ℕ} {writes : List (Write Cid)} {keypair : Keypair} {now : ℕ}
      {clock clock' : TidClock} {blocks : BlockMap Cid} {dropped : List Cid}
      {leaves : List (Leaf Cid)} {t : Mst Cid} :
      Published did st acc (repo :: revs) →
      exec (Store.answer st) (repo.apply rounds writes keypair now) clock =
        (.ok (blocks, dropped, repo'), clock') →
      exec (Store.answer (grown st blocks)) (Mst.load repo'.commit.data).leaves () =
        (.ok (leaves, t), ()) →
      Published did (settled st blocks dropped leaves) (grown acc blocks) (repo' :: repo :: revs)

variable [LawfulCodec Cid] {st st' acc : Cid → Option Bytes} {ℓ : ℕ} {xs : List (Leaf Cid)}
  {repo repo' : Repo Cid} {cid : Cid} {commit : Commit Cid}

namespace Standing

theorem exec_leaves {σ : Type} (s : σ) (h : Standing st cid commit ℓ xs) : ∃ t,
    exec (Store.answer st) (Mst.load commit.data).leaves s = (.ok (xs, t), s) := by
  obtain ⟨t, he, -⟩ := Manapds.exec_leaves s h.holds
  exact ⟨t, he⟩

theorem readable (h : Standing st cid commit ℓ xs)
    (hx : ∀ x ∈ xs, (st x.value).isSome) : Readable st cid := by
  refine ⟨?_, fun c hc => ?_⟩
  · obtain ⟨t, ht⟩ := h.exec_leaves ()
    refine ⟨_, xs, ⟨cid, commit, t⟩, h.exec_load (), ?_⟩
    simp only [Repo.records, exec_bind, ht, exec_pure]
  · rcases h.reached_iff.mp hc with rfl | hc
    · obtain ⟨b, -, hb⟩ := h.block
      simp [hb]
    · rcases (mem_preorder h.fits).mp hc with ⟨p, hp, rfl⟩ | ⟨x, hm, rfl⟩
      · simp [h.stored p hp]
      · exact hx x hm

end Standing

/-- The first revision is an empty tree and the commit over it. -/
theorem of_create {did : Did} {keypair : Keypair} {now : ℕ} {clock clock' : TidClock}
    {blocks : BlockMap Cid} (h : Repo.create did keypair now clock = (.ok (repo, blocks), clock')) :
    repo.At blocks.lookup 0 [] ∧ Exact blocks.lookup repo.cid 0 [] := by
  have hempty : Closed (fun _ : Cid => none) := by
    intro ℓ xs _ _ hs
    cases hs
  obtain ⟨tree, data, hun, hd, hts, htm⟩ := exec_unstoredBlocks clock holds_empty hempty
  obtain ⟨⟨⟨root, tree1⟩, data1⟩, s1, h1, h⟩ := exec_bind_eq_ok _ _ h
  rw [hun] at h1
  cases h1
  obtain ⟨clock1, s2, h2, h⟩ := exec_bind_eq_ok _ _ h
  cases h2
  obtain ⟨u, s3, h3, h⟩ := exec_bind_eq_ok _ _ h
  cases h3
  obtain ⟨commit, s4, h4, h⟩ := exec_bind_eq_ok _ _ h
  obtain ⟨hsign, rfl⟩ := exec_ofExcept_eq_ok _ _ h4
  obtain ⟨⟨cid, blocks1⟩, s5, h5, h⟩ := exec_bind_eq_ok _ _ h
  obtain ⟨hadd, rfl⟩ := exec_ofExcept_eq_ok _ _ h5
  obtain ⟨b, hb, rfl, rfl⟩ := add_ok hadd
  obtain ⟨-, -, hdata⟩ := sign_ok hsign
  cases h
  have hx : Exact (AList.insert (cidFor b) b tree).lookup (cidFor b) 0 ([] : List (Leaf Cid)) := by
    refine ⟨hts.insert b, fun c => ?_⟩
    rw [AList.lookup_isSome, AList.mem_insert, htm, preorder, inside_nil, nodesOf_nil]
    simp
  exact ⟨⟨hd.imp_nodes (hx.stored hd.fits), hdata, ⟨b, hb, rfl⟩, by simp⟩, hx⟩

namespace Repo.Applied

variable {writes : List (Write Cid)} {blocks : BlockMap Cid} {dropped : List Cid} {ℓ' : ℕ}
  {xs' : List (Leaf Cid)}

/-- The new revision can be read as soon as its blocks are in. -/
theorem standing_grown (h : repo.Applied st ℓ xs writes blocks dropped repo' ℓ' xs')
    (hr : repo.At st ℓ xs) (hx : Exact st repo.cid ℓ xs) :
    Standing (grown st blocks) repo'.cid repo'.commit ℓ' xs' := by
  have hd := h.revision.data
  have sound : ∀ c b, grown st blocks c = some b → c = cidFor b := fun c b hb => h.grown_sound hx hb
  refine ⟨hd.keyed, hd.fits, hd.le, h.revision.root,
    h.revision.commit.block sound (h.isSome_grown hr hx (Or.inl rfl)), fun p hp => ?_⟩
  exact eq_some_of_isSome sound
    (h.isSome_grown hr hx (Or.inr ((mem_preorder hd.fits).mpr (Or.inl ⟨p, hp, rfl⟩))))

/-- The store a revision leaves behind is one to work from. -/
theorem at_settled (h : repo.Applied st ℓ xs writes blocks dropped repo' ℓ' xs')
    (hr : repo.At st ℓ xs) (hx : Exact st repo.cid ℓ xs) :
    repo'.At (settled st blocks dropped xs') ℓ' xs' :=
  ⟨h.revision.data.imp_nodes ((h.exact hr hx).stored h.revision.data.fits), h.revision.root,
    h.revision.commit, h.revision.records⟩

end Repo.Applied

/-- What a consumer has been handed holds the store it was handed for, and every revision before. -/
structure Followed (st acc : Cid → Option Bytes) (revs : List (Repo Cid)) : Prop where
  current : ∀ repo ∈ revs.head?, Repository st repo
  sound : ∀ c b, acc c = some b → c = cidFor b
  mono : ∀ c b, st c = some b → acc c = some b
  each : ∀ repo ∈ revs, ∃ ℓ xs, Standing acc repo.cid repo.commit ℓ xs ∧
    ∀ x ∈ xs, (acc x.value).isSome

theorem Published.followed {did : Did} {revs : List (Repo Cid)} (h : Published did st acc revs) :
    Followed st acc revs := by
  induction h with
  | genesis hc =>
    obtain ⟨hr, hx⟩ := of_create hc
    refine ⟨?_, hx.sound, fun _ _ hb => hb, ?_⟩
    · rintro _ ⟨⟩
      exact hx.repository hr
    · intro r hm
      rw [List.mem_singleton.mp hm]
      exact ⟨0, [], hx.standing hr, by simp⟩
  | @reload st acc repo repo' revs _ he ih =>
    obtain ⟨ℓ, xs, hr, hx⟩ := (ih.current repo rfl).exists_exact
    have hstand := hx.standing hr
    rw [hstand.exec_load ()] at he
    cases he
    refine ⟨?_, ih.sound, ih.mono, fun r hm => ?_⟩
    · rintro _ ⟨⟩
      have hr' : Repo.At st ℓ xs ⟨repo.cid, repo.commit, Mst.load repo.commit.data⟩ :=
        ⟨hstand.holds, hr.root, hr.commit, hr.records⟩
      exact Exact.repository hx hr'
    · rcases List.mem_cons.mp hm with rfl | hm
      · exact ih.each repo List.mem_cons_self
      · exact ih.each r (List.mem_cons_of_mem repo hm)
  | @get st acc repo repo' revs collection rkey found _ he ih =>
    obtain ⟨ℓ, xs, hr, hx⟩ := (ih.current repo rfl).exists_exact
    obtain ⟨t, hget, ht⟩ := exec_get () hr.data (recordPath collection rkey)
    simp only [Repo.get, exec_bind, hget, exec_pure] at he
    cases he
    refine ⟨?_, ih.sound, ih.mono, fun r hm => ?_⟩
    · rintro _ ⟨⟩
      have hr' : Repo.At st ℓ xs { repo with data := t } := ⟨ht, hr.root, hr.commit, hr.records⟩
      exact Exact.repository hx hr'
    · rcases List.mem_cons.mp hm with rfl | hm
      · exact ih.each repo List.mem_cons_self
      · exact ih.each r (List.mem_cons_of_mem repo hm)
  | @apply st acc repo repo' revs rounds writes keypair now clock clock' blocks dropped leaves t _ he
      hl ih =>
    obtain ⟨ℓ, xs, hr, hx⟩ := (ih.current repo rfl).exists_exact
    obtain ⟨-, ℓ', xs', ha⟩ := of_exec_apply hr (hx.closed hr) he
    have hstand := ha.standing_grown hr hx
    obtain ⟨t', ht'⟩ := hstand.exec_leaves ()
    rw [ht'] at hl
    cases hl
    have hgrow : ∀ c b, acc c = some b → grown acc blocks c = some b := by
      intro c b hb
      rw [grown, hb]
      cases hm : blocks.lookup c with
      | none => rfl
      | some b' =>
        have hcid := (ha.sound c b' hm).symm.trans (ih.sound c b hb)
        rw [Option.some_or, LawfulCodec.cidFor_injective hcid]
    have hmono : ∀ c b, grown st blocks c = some b → grown acc blocks c = some b := by
      intro c b hb
      rcases Option.or_eq_some_iff.mp hb with hb | ⟨hn, hb⟩
      · rw [grown, hb, Option.some_or]
      · rw [grown, hn, ih.mono c b hb, Option.none_or]
    refine ⟨?_, fun c b hb => ?_, fun c b hb => ?_, fun r hm => ?_⟩
    · rintro _ ⟨⟩
      exact (ha.exact hr hx).repository (ha.at_settled hr hx)
    · rcases Option.or_eq_some_iff.mp hb with hb | ⟨-, hb⟩
      · exact ha.sound c b hb
      · exact ih.sound c b hb
    · unfold settled at hb
      split_ifs at hb
      exact hmono c b hb
    · rcases List.mem_cons.mp hm with rfl | hm
      · refine ⟨ℓ', leaves, hstand.mono hmono, fun x hm => ?_⟩
        obtain ⟨b, hb⟩ := Option.isSome_iff_exists.mp (ha.isSome_grown hr hx
          (Or.inr ((mem_preorder hstand.fits).mpr (Or.inr ⟨x, hm, rfl⟩))))
        rw [hmono _ b hb]
        rfl
      · obtain ⟨m, ys, hs, hv⟩ := ih.each r hm
        refine ⟨m, ys, hs.mono hgrow, fun x hx => ?_⟩
        obtain ⟨b, hb⟩ := Option.isSome_iff_exists.mp (hv x hx)
        rw [hgrow _ b hb]
        rfl

/-- The blocks a revision comes with are enough to read it and no more than it reaches, and a
consumer that keeps all it was sent can read every revision. -/
theorem apply_blocks_sufficient_minimal :
    (∀ (st : Cid → Option Bytes) (repo repo' : Repo Cid) (rounds : ℕ) (writes : List (Write Cid))
      (keypair : Keypair) (now : ℕ) (clock clock' : TidClock) (blocks : BlockMap Cid)
      (dropped : List Cid), Repository st repo →
      exec (Store.answer st) (repo.apply rounds writes keypair now) clock =
        (.ok (blocks, dropped, repo'), clock') →
      (∀ c, Reached (grown st blocks) repo'.cid c → (st c).isSome ∨ c ∈ blocks) ∧
      (∀ c ∈ blocks, Reached (grown st blocks) repo'.cid c) ∧
      repo'.cid ∈ blocks ∧
      ∃ leaves t, exec (Store.answer (grown st blocks)) (Mst.load repo'.commit.data).leaves () =
          (.ok (leaves, t), ()) ∧
        (∀ pre write post record, writes = pre ++ write :: post →
          (∀ later ∈ post, later.key ≠ write.key) → write.record = some record →
          ∃ cid, write.cid = some cid ∧ cid ∈ blocks ∧ ⟨write.key, cid⟩ ∈ leaves) ∧
        (∀ c, (settled st blocks dropped leaves c).isSome ↔
          Reached (grown st blocks) repo'.cid c) ∧
        Repository (settled st blocks dropped leaves) repo') ∧
    ∀ (did : Did) (st acc : Cid → Option Bytes) (revs : List (Repo Cid)),
      Published did st acc revs → ∀ repo ∈ revs, Readable acc repo.cid := by
  constructor
  · intro st repo repo' rounds writes keypair now clock clock' blocks dropped hrep he
    obtain ⟨ℓ, xs, hr, hx⟩ := hrep.exists_exact
    obtain ⟨-, ℓ', xs', ha⟩ := of_exec_apply hr (hx.closed hr) he
    have hstand := ha.standing_grown hr hx
    obtain ⟨t, ht⟩ := hstand.exec_leaves ()
    refine ⟨fun c hc => ?_, fun c hc => ?_, (ha.blocks _).mpr (Or.inl rfl), xs', t, ht, ?_,
      fun c => ?_, (ha.exact hr hx).repository (ha.at_settled hr hx)⟩
    · have hs := ha.isSome_grown hr hx (hstand.reached_iff.mp hc)
      rw [grown, Option.isSome_or, Bool.or_eq_true, AList.lookup_isSome] at hs
      exact hs.symm
    · exact hstand.reached_iff.mpr (ha.mem_of_mem_blocks hc)
    · intro pre write post record hw hpost hrec
      obtain ⟨cid, hcid, hm⟩ := exists_mark_of_last ha.leaves hw hpost hrec
      exact ⟨cid, hcid, (ha.blocks cid).mpr (Or.inr (Or.inr ⟨_, hm, rfl⟩)), ha.marks _ hm⟩
    · exact ((ha.exact hr hx).mem c).trans hstand.reached_iff.symm
  · intro did st acc revs hp repo hm
    obtain ⟨ℓ, xs, hs, hv⟩ := hp.followed.each repo hm
    exact hs.readable hv

section

open DagCbor

/-- Signing is not what these properties turn on. -/
def blankKey : Keypair := ⟨fun _ => []⟩

def firstWrite : Write RawCid := .create recordCollection recordKey (textRecord (text "first"))

theorem exists_first_write : ∃ (repo repo' : Repo RawCid) (blocks written : BlockMap RawCid)
    (dropped : List RawCid) (clock clock' : TidClock),
    Repo.create recordDid blankKey 1 ⟨0, 0⟩ = (.ok (repo, blocks), clock) ∧
      exec (Store.answer (blocks.lookup ·)) (repo.apply 10 [firstWrite] blankKey 2) clock =
        (.ok (written, dropped, repo'), clock') := ⟨_, _, _, _, _, _, _, rfl, rfl⟩

theorem apply_blocks_sufficient_minimal_first : ∃ (repo repo' : Repo RawCid)
    (blocks written : BlockMap RawCid), Repository blocks.lookup repo ∧ repo'.cid ∈ written ∧
      Readable (grown blocks.lookup written) repo'.cid := by
  obtain ⟨repo, repo', blocks, written, dropped, clock, clock', hc, ha⟩ := exists_first_write
  obtain ⟨hr, hx⟩ := of_create hc
  have hrep := hx.repository hr
  obtain ⟨-, -, hm, leaves, t, hl, -, -, -⟩ :=
    apply_blocks_sufficient_minimal.1 _ repo repo' 10 _ blankKey 2 clock clock' _ dropped hrep ha
  refine ⟨repo, repo', blocks, written, hrep, hm, ?_⟩
  exact apply_blocks_sufficient_minimal.2 recordDid _ _ _
    (.apply (.genesis hc) ha hl) repo' List.mem_cons_self

end

end Manapds
