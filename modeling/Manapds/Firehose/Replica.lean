import Manapds.Account.Incremental
import Manapds.Account.Signup
import Manapds.Firehose.Body
import Manapds.Repo.Signature

/-!
# Following a repository

A consumer of the log keeps the commit it is on and every block it has been handed. It takes an
entry where that goes on from the commit at hand, by its revision and by its tree, and comes to a
commit the account has signed. Such a consumer takes every entry of the log in its turn and none out
of it, and has at each revision what the tables had.
-/

namespace Manapds

open Sequencer Firehose QueryProgram Routine Shape

variable {Cid : Type}

/-! ## The revisions of a repository -/

theorem exists_getElem_of_forall₂ {α β : Type} {R : α → β → Prop} {as : List α} {bs : List β}
    (h : List.Forall₂ R as bs) {i : ℕ} {a : α} (ha : as[i]? = some a) :
    ∃ b, bs[i]? = some b ∧ R a b := by
  induction h generalizing i with
  | nil => cases ha
  | @cons a' b as bs hab hrest ih =>
    cases i with
    | zero =>
      obtain rfl := Option.some.inj ha
      exact ⟨b, rfl, hab⟩
    | succ i => exact ih ha

/-- A revision is before another. -/
def Tables.Precedes (a b : Tables Cid) : Prop :=
  ∃ root next, a.repoRoot = some root ∧ b.repoRoot = some next ∧ root.rev.str < next.rev.str

theorem Tables.Precedes.trans {a b c : Tables Cid} (h : a.Precedes b) (h' : b.Precedes c) :
    a.Precedes c := by
  obtain ⟨root, mid, ha, hb, hlt⟩ := h
  obtain ⟨mid', next, hb', hc, hlt'⟩ := h'
  obtain rfl := Option.some.inj (hb.symm.trans hb')
  exact ⟨root, next, ha, hc, hlt.trans hlt'⟩

instance : IsTrans (Tables Cid) Tables.Precedes := ⟨fun _ _ _ => Tables.Precedes.trans⟩

section

variable {tables tables' : Tables Cid}

/-- A revision was worked out on the one before it. -/
theorem exists_same_before {ms : List (Moved Cid)}
    (hc : ms.IsChain fun earlier later => earlier.after.Same later.before)
    (hf : ∀ m ∈ ms.head?, tables.Same m.before) {i : ℕ} {m : Moved Cid} (hm : ms[i]? = some m) :
    ∃ before, (tables :: ms.map Moved.after)[i]? = some before ∧ before.Same m.before := by
  induction ms generalizing tables i with
  | nil => cases hm
  | cons first ms ih =>
    rw [List.isChain_cons] at hc
    cases i with
    | zero =>
      obtain rfl := Option.some.inj hm
      exact ⟨tables, rfl, hf first rfl⟩
    | succ i => exact ih hc.2 hc.1 hm

theorem World.history_reverse (w : World Cid) :
    w.history.reverse = w.opened :: w.moved.reverse.map Moved.after := by
  rw [history, List.reverse_append, List.map_reverse]
  rfl

theorem World.opened_same (w : World Cid) :
    ∀ m ∈ w.moved.reverse.head?, w.opened.Same m.before := by
  intro m hm
  rw [List.head?_reverse] at hm
  rw [World.opened, hm]
  exact Tables.Same.refl _

end

section

variable [DecidableEq Cid] {did : Did} {tables tables' : Tables Cid}

theorem Tables.Same.stored (hs : tables.Same tables') : tables'.stored = tables.stored := by
  funext cid
  unfold Tables.stored
  rw [hs.repoBlock]

/-- What the tables hold after a revision, they held before it or were handed with it. -/
theorem ActorState.grown_of_commit {actor actor' : ActorState Cid} {revision : Revision Cid}
    {committed : Committed Cid} (hk : Table.Keyed BlockRow.cid actor.tables.repoBlock)
    (h : actor.commit did revision = (.ok (some committed), actor')) {c : Cid} {b : Bytes}
    (hb : actor'.tables.stored c = some b) :
    actor.tables.stored c = some b ∨ revision.written.lookup c = some b := by
  obtain ⟨s, hs, -, htab, -, -⟩ := ActorState.commit_landed h
  obtain ⟨-, -, -, hblock, -⟩ := Landing.store_ok hs
  have hrows : actor'.tables.repoBlock = s.tables.repoBlock := by rw [htab]
  replace hk : Table.Keyed BlockRow.cid actor.begun.tables.repoBlock := hk
  rw [Tables.stored, hrows, hblock, Landing.find_blocksLeft hk] at hb
  split_ifs at hb
  · cases hb
  obtain ⟨row, hrow, rfl⟩ := Option.map_eq_some_iff.mp hb
  rcases Option.or_eq_some_iff.mp hrow with hheld | ⟨-, hwritten⟩
  · left
    exact congrArg (Option.map BlockRow.content) hheld
  · right
    obtain ⟨bytes, hbytes, rfl⟩ := Option.map_eq_some_iff.mp hwritten
    exact hbytes

end

section

variable [Codec Cid] [LawfulCodec Cid] [DecidableEq Cid] [CidText Cid] {did : Did}
  {tables : Tables Cid} {w : World Cid}

omit [DecidableEq Cid] [CidText Cid] in
/-- Two stores of one commit, its tree and its records hold the same. -/
theorem Exact.eq {st st' : Cid → Option Bytes} {cid : Cid} {ℓ : ℕ} {xs : List (Leaf Cid)}
    (h : Exact st cid ℓ xs) (h' : Exact st' cid ℓ xs) : st = st' := by
  funext c
  cases hb : st c with
  | none =>
    have hnot : ¬(st' c).isSome := by
      rw [h'.mem, ← h.mem, hb]
      simp
    exact (Option.not_isSome_iff_eq_none.mp hnot).symm
  | some b =>
    have hsome : (st' c).isSome := by
      rw [h'.mem, ← h.mem, hb]
      rfl
    obtain rfl := h.sound c b hb
    exact (eq_some_of_isSome h'.sound hsome).symm

theorem World.Reachable.grown (h : World.Reachable did w) : ∀ m ∈ w.moved, ∀ c b,
    m.after.stored c = some b →
      m.before.stored c = some b ∨ m.revision.written.lookup c = some b := by
  induction h with
  | founded =>
    intro m hm
    cases hm
  | @step who w w' h hs ih =>
    intro m hm
    rcases hs.same_or_landed with ⟨hmoved, -⟩ | ⟨m', committed, hmoved, hbefore, hafter, hc⟩
    · rw [hmoved] at hm
      exact ih m hm
    · rw [hmoved] at hm
      rcases List.mem_cons.mp hm with rfl | hm
      · obtain ⟨⟨repo, ℓ, xs, hcar, -⟩, -, -, -, -⟩ := h.sound
        rw [hbefore, hafter]
        exact fun c b hb => ActorState.grown_of_commit hcar.blocks hc hb
      · exact ih m hm

/-- The commit a revision comes to is handed with it, and was signed for the account. -/
theorem Moved.Lands.signed {m : Moved Cid} {repo next : Repo Cid} {ℓ ℓ' : ℕ}
    {xs xs' : List (Leaf Cid)} {worked : Worked Cid}
    (h : m.Lands did repo ℓ xs worked next ℓ' xs') :
    m.revision.root = ⟨next.cid, next.rev⟩ ∧ m.revision.written.Sound ∧
    next.cid ∈ m.revision.written ∧
    ∃ data, Commit.sign repo.commit.did next.rev data m.job.keypair = .ok next.commit := by
  have hroot : m.revision.root = ⟨next.cid, next.rev⟩ := by
    rw [h.revision]
    exact h.root
  obtain ⟨start, -, -, hworks⟩ := h.alone
  obtain ⟨read, next', _, _, _, blocks, dropped, -, -, -, hagain, happ, hrevision, -, -⟩ :=
    hworks.exists_apply
  have hx : Exact m.before.stored read.cid ℓ xs := by
    rw [hagain.cid]
    exact h.before.exact
  obtain ⟨-, ℓ₁, xs₁, happlied⟩ := of_exec_apply hagain.stands (hx.closed hagain.stands) happ
  obtain ⟨data, hsign⟩ := signed_of_apply happ
  have hwritten : m.revision.written = blocks := by rw [h.revision, hrevision]
  have hcid : next'.cid = next.cid := by
    have hsame := h.root
    rw [hrevision] at hsame
    exact congrArg Root.cid hsame
  have hcommit : next'.commit = next.commit := by
    apply happlied.revision.commit.inj
    rw [hcid]
    exact h.after.stands.commit
  refine ⟨hroot, ?_, ?_, data, ?_⟩
  · rw [hwritten]
    exact happlied.sound
  · rw [hwritten, ← hcid]
    exact (happlied.blocks next'.cid).mpr (Or.inl rfl)
  · rw [← hagain.commit, Repo.rev, ← hcommit]
    exact hsign

/-! ## What is said of them -/

/-- An entry of a revision that landed, and that revision. -/
def Landed.Entry (did : Did) (entry : Append Cid) (m : Moved Cid) : Prop :=
  entry.Tells did m ∧ (∃ repo ℓ xs worked next ℓ' xs', m.Lands did repo ℓ xs worked next ℓ' xs') ∧
  ∀ c b, m.after.stored c = some b →
    m.before.stored c = some b ∨ m.revision.written.lookup c = some b

/-- What is on its way to the log is of the revisions that landed, one by one. -/
theorem Logging.Sound.forall₂_entry {s : Logging Cid} (h : s.Sound did) :
    List.Forall₂ (Landed.Entry did) (s.entries did) s.world.moved.reverse := by
  have hlands : ∀ m ∈ s.world.moved.reverse, (∃ repo ℓ xs worked next ℓ' xs',
      m.Lands did repo ℓ xs worked next ℓ' xs') ∧ ∀ c b, m.after.stored c = some b →
        m.before.stored c = some b ∨ m.revision.written.lookup c = some b := by
    intro m hm
    have hmem := List.mem_reverse.mp hm
    exact ⟨h.world.sound.lands m hmem, h.world.grown m hmem⟩
  rw [h.entries, World.landings]
  generalize s.world.moved.reverse = ms at hlands
  induction ms with
  | nil => exact .nil
  | cons m ms ih =>
    obtain ⟨hl, hg⟩ := hlands m List.mem_cons_self
    obtain ⟨_, _, _, _, _, _, _, hl'⟩ := id hl
    obtain ⟨landed, hlanded, htells⟩ := hl'.tells
    simp only [List.filterMap_cons, hlanded, List.map_cons]
    exact .cons ⟨htells, hl, hg⟩ (ih fun m' hm' => hlands m' (List.mem_cons_of_mem m hm'))

omit [LawfulCodec Cid] in
/-- Revisions that land one on the other come one before the other. -/
theorem isChain_precedes {ms : List (Moved Cid)}
    (hl : ∀ m ∈ ms, ∃ repo ℓ xs worked next ℓ' xs', m.Lands did repo ℓ xs worked next ℓ' xs')
    (hc : ms.IsChain fun earlier later => earlier.after.Same later.before)
    (hf : ∀ m ∈ ms.head?, tables.Same m.before) :
    (tables :: ms.map Moved.after).IsChain Tables.Precedes := by
  induction ms generalizing tables with
  | nil => exact List.IsChain.singleton tables
  | cons m ms ih =>
    obtain ⟨repo, ℓ, xs, worked, next, ℓ', xs', hlands⟩ := hl m List.mem_cons_self
    have hsame := hf m rfl
    rw [List.isChain_cons] at hc
    rw [List.map_cons, List.isChain_cons_cons]
    refine ⟨⟨⟨repo.cid, repo.rev⟩, _, ?_, hlands.after.root, hlands.rev⟩, ?_⟩
    · rw [← hsame.repoRoot]
      exact hlands.before.root
    · exact ih (fun m' hm' => hl m' (List.mem_cons_of_mem m hm')) hc.2 hc.1

omit [LawfulCodec Cid] in
/-- The last revision left the tables as they are. -/
theorem World.Sound.same_of_last {w : World Cid} (h : w.Sound did)
    (hl : w.history.reverse[w.moved.length]? = some tables) : tables.Same w.actor.tables := by
  have hlen : w.history.length = w.moved.length + 1 := by simp [World.history]
  rw [List.getElem?_reverse (by omega), hlen, Nat.add_sub_cancel, Nat.sub_self, World.history] at hl
  cases hmoved : w.moved with
  | nil =>
    rw [hmoved] at hl
    obtain rfl := Option.some.inj hl
    rw [World.opened, hmoved]
    exact Tables.Same.refl _
  | cons m rest =>
    rw [hmoved] at hl
    obtain rfl := Option.some.inj hl
    apply h.current
    rw [hmoved]
    rfl

end

/-! ## A consumer -/

/-- What a consumer has of one repository. -/
structure Replica (Cid : Type) where
  head : Option (Cid × Commit Cid)
  blocks : BlockMap Cid

namespace Replica

def empty : Replica Cid := ⟨none, ∅⟩

/-- What is told goes on from the commit at hand. -/
def GoesOn (r : Replica Cid) (told : Told Cid) : Prop :=
  told.since = r.head.map (fun head => head.2.rev.str) ∧
  told.prevData = r.head.map fun head => head.2.data

/-- A revision is later than the commit at hand. -/
def Before (r : Replica Cid) (rev : Tid) : Prop := ∀ head ∈ r.head, head.2.rev.str < rev.str

instance (r : Replica Cid) (rev : Tid) : Decidable (r.Before rev) :=
  inferInstanceAs (Decidable (∀ head ∈ r.head, head.2.rev.str < rev.str))

section

variable [Codec Cid] [CarCodec Cid] [ValueCodec Cid] [DecidableEq Cid]

instance (r : Replica Cid) (told : Told Cid) : Decidable (r.GoesOn told) :=
  inferInstanceAs (Decidable (_ ∧ _))

/-- The commit some blocks hold at a CID, where it is the account's. -/
def commitAt (did : Did) (key : PublicKey) (blocks : BlockMap Cid) (cid : Cid) :
    Option (Commit Cid) := do
  let bytes ← blocks.lookup cid
  let commit ← (decodeCommit bytes).toOption
  let _ ← (commit.verify key).toOption
  if commit.did = did then some commit else none

/-- Moves to the commit an append entry tells. -/
def append (did : Did) (key : PublicKey) (r : Replica Cid) (told : Told Cid) :
    Option (Replica Cid) := do
  let blocks := r.blocks.merge told.blocks
  let commit ← commitAt did key blocks told.commit
  if told.repo = did.str ∧ r.GoesOn told ∧ commit.rev.str = told.rev ∧ r.Before commit.rev then
    some ⟨some (told.commit, commit), blocks⟩
  else none

omit [CarCodec Cid] [ValueCodec Cid] in
theorem append_eq_some {did : Did} {key : PublicKey} {r r' : Replica Cid} {told : Told Cid} :
    r.append did key told = some r' ↔
      ∃ commit, commitAt did key (r.blocks.merge told.blocks) told.commit = some commit ∧
        (told.repo = did.str ∧ r.GoesOn told ∧ commit.rev.str = told.rev ∧ r.Before commit.rev) ∧
        r' = ⟨some (told.commit, commit), r.blocks.merge told.blocks⟩ := by
  rw [append]
  cases commitAt did key (r.blocks.merge told.blocks) told.commit with
  | none => simp
  | some commit =>
    simp only [bind, Option.bind, Option.ite_none_right_eq_some, Option.some.injEq, exists_eq_left']
    rw [eq_comm (a := r')]

/-- Takes one entry, or refuses it. -/
def follow (did : Did) (key : PublicKey) (r : Replica Cid) : Firehose.Body → Option (Replica Cid)
  | (.append, bytes) => do
    let told ← hear bytes
    r.append did key told
  | (.sync, bytes) => do
    let (repo, root) ← hearSync bytes
    if repo = did.str ∧ r.head.map Prod.fst = some root then some r else none
  | (.identity, _) | (.account, _) => some r

/-- Takes entries one by one. -/
def followAll (did : Did) (key : PublicKey) : Replica Cid → List Firehose.Body →
    Option (Replica Cid)
  | r, [] => some r
  | r, body :: rest => (r.follow did key body).bind fun r => r.followAll did key rest

theorem followAll_append (did : Did) (key : PublicKey) (r : Replica Cid)
    (bodies more : List Firehose.Body) : r.followAll did key (bodies ++ more) =
      (r.followAll did key bodies).bind fun r => r.followAll did key more := by
  induction bodies generalizing r with
  | nil => rfl
  | cons body rest ih =>
    rw [List.cons_append, followAll, followAll]
    cases r.follow did key body with
    | none => rfl
    | some r' => exact ih r'

end

/-- A consumer is where some tables are: on their commit, with every block they hold. -/
structure Holds [Codec Cid] [DecidableEq Cid] (did : Did) (tables : Tables Cid) (r : Replica Cid) :
    Prop where
  head : ∃ (root : Root Cid) (commit : Commit Cid), tables.repoRoot = some root ∧
    r.head = some (root.cid, commit) ∧ commit.IsAt root.cid ∧ commit.rev = root.rev ∧
    commit.did = did
  sound : r.blocks.Sound
  stored : ∀ c b, tables.stored c = some b → r.blocks.lookup c = some b

/-- What a consumer reads is what the tables are of: it can load the commit and list every record,
the list is that of the index, and each record it lists it has. -/
def Shows [Codec Cid] [DecidableEq Cid] (did : Did) (tables : Tables Cid) (r : Replica Cid) :
    Prop :=
  ∃ root commit repo leaves repo', tables.repoRoot = some root ∧ r.head = some (root.cid, commit) ∧
    exec (Store.answer r.blocks.lookup) (Repo.load root.cid) () = (.ok repo, ()) ∧
    exec (Store.answer r.blocks.lookup) repo.records () = (.ok (leaves, repo'), ()) ∧
    (∀ at_ cid, (∃ row ∈ tables.record, row.uri = at_ ∧ row.cid = cid) ↔
      ∃ x ∈ leaves, at_ = uriAt did x.key ∧ cid = x.value) ∧
    ∀ x ∈ leaves, ∃ bytes, tables.stored x.value = some bytes ∧
      r.blocks.lookup x.value = some bytes

section

variable [Codec Cid] [LawfulCodec Cid] [CarCodec Cid] [ValueCodec Cid] [DecidableEq Cid]
  {did : Did} {key : PublicKey} {tables tables' : Tables Cid} {r : Replica Cid}

omit [LawfulCodec Cid] [CarCodec Cid] [ValueCodec Cid] in
theorem Holds.same (h : r.Holds did tables) (hs : tables.Same tables') : r.Holds did tables' := by
  obtain ⟨⟨root, commit, hroot, hhead⟩, hsound, hstored⟩ := h
  refine ⟨⟨root, commit, hs.repoRoot.trans hroot, hhead⟩, hsound, ?_⟩
  rw [hs.stored]
  exact hstored

omit [CarCodec Cid] [ValueCodec Cid] in
theorem Holds.shows {repo : Repo Cid} {ℓ : ℕ} {xs : List (Leaf Cid)} (h : r.Holds did tables)
    (hc : tables.Carries did repo ℓ xs) : r.Shows did tables := by
  obtain ⟨⟨root, commit, hroot, hhead, -⟩, -, hstored⟩ := h
  obtain rfl : (⟨repo.cid, repo.rev⟩ : Root Cid) = root :=
    Option.some.inj (hc.root.symm.trans hroot)
  have hstand := (hc.exact.standing hc.stands).mono hstored
  obtain ⟨t, ht⟩ := hstand.exec_leaves ()
  refine ⟨_, commit, _, xs, ⟨repo.cid, repo.commit, t⟩, hroot, hhead, hstand.exec_load (), ?_,
    hc.exact_rows.2, ?_⟩
  · simp only [Repo.records, exec_bind, ht, exec_pure]
  · intro x hx
    have hmem : x.value ∈ preorder ℓ xs :=
      (mem_preorder hc.stands.data.fits).mpr (Or.inr ⟨x, hx, rfl⟩)
    obtain ⟨bytes, hbytes⟩ := Option.isSome_iff_exists.mp ((hc.exact.mem x.value).mpr (Or.inr hmem))
    exact ⟨bytes, hbytes, hstored x.value bytes hbytes⟩

omit [CarCodec Cid] [ValueCodec Cid] in
/-- A commit that was signed is read back and verifies. -/
theorem commitAt_eq {blocks : BlockMap Cid} {commit : Commit Cid} {cid data : Cid} {rev : Tid}
    {keypair : Keypair} (hb : blocks.Sound) (hc : cid ∈ blocks) (hat : commit.IsAt cid)
    (hs : Commit.sign did rev data keypair = .ok commit) (hk : key.Of keypair) :
    commitAt did key blocks cid = some commit := by
  obtain ⟨bytes, hbytes⟩ := Option.isSome_iff_exists.mp (AList.lookup_isSome.mpr hc)
  obtain ⟨encoded, hencode, rfl⟩ := hat
  obtain rfl : encoded = bytes := LawfulCodec.cidFor_injective (hb _ bytes hbytes)
  obtain ⟨hdid, -, -⟩ := sign_ok hs
  rw [commitAt]
  simp only [bind, Option.bind, hbytes, decodeCommit_encode hencode, Except.toOption,
    Commit.verify_of_sign hs hk, hdid, if_true]

end

end Replica

/-! ## Following -/

section

variable [Codec Cid] [LawfulCodec Cid] [CarCodec Cid] [LawfulCarCodec Cid] [CidOrd Cid]
  [ValueCodec Cid] [LawfulValueCodec Cid] [DecidableEq Cid] [CidText Cid] {did : Did}
  {key : PublicKey} {tables : Tables Cid} {r : Replica Cid}

namespace Replica

/-- A consumer that is where a revision was worked out takes the entry of that revision, and is
where it left the tables. -/
theorem Holds.append (h : r.Holds did tables) {m : Moved Cid} {repo next : Repo Cid} {ℓ ℓ' : ℕ}
    {xs xs' : List (Leaf Cid)} {worked : Worked Cid} {entry : Append Cid}
    (hl : m.Lands did repo ℓ xs worked next ℓ' xs') (hs : tables.Same m.before)
    (hg : ∀ c b, m.after.stored c = some b →
      m.before.stored c = some b ∨ m.revision.written.lookup c = some b)
    (ht : entry.Tells did m) (hk : key.Of m.job.keypair) :
    ∃ bytes r', entry.body = .ok (.append, bytes) ∧
      r.follow did key (.append, bytes) = some r' ∧ r'.Holds did m.after := by
  obtain ⟨⟨root, commit, hroot, hhead, hat, hrev, hdid⟩, hsound, hstored⟩ := h.same hs
  obtain ⟨hnext, hwritten, hmem, data, hsign⟩ := hl.signed
  -- the commit at hand is the one the revision was worked out on
  obtain rfl : (⟨repo.cid, repo.rev⟩ : Root Cid) = root :=
    Option.some.inj (hl.before.root.symm.trans hroot)
  obtain rfl : commit = repo.commit := hat.inj hl.before.stands.commit
  obtain ⟨_, previous, hroot', hat', hrev', hsince, hprev⟩ := ht.previous
  obtain rfl := Option.some.inj (hroot.symm.trans hroot')
  obtain rfl : previous = repo.commit := hat'.inj hat
  have hblocks : entry.blocks.Sound := by
    rw [ht.blocks]
    exact hwritten
  have hcid : entry.commit = next.cid := by rw [ht.commit, hnext]
  have hin : entry.commit ∈ entry.blocks := by
    rw [hcid, ht.blocks]
    exact hmem
  obtain ⟨bytes, held, hbody, hheld, hhear⟩ := entry.hear_body hblocks hin
  have hheldSound : held.Sound := by
    intro c b hb
    rw [hheld] at hb
    exact hblocks c b hb
  have hmerged : (r.blocks.merge held).Sound := hsound.merge hheldSound
  have hcommit : commitAt did key (r.blocks.merge held) entry.commit = some next.commit := by
    rw [hdid] at hsign
    rw [hcid]
    apply commitAt_eq hmerged _ hl.after.stands.commit hsign hk
    rw [BlockMap.mem_merge, ← AList.lookup_isSome (s := held), hheld, ht.blocks,
      AList.lookup_isSome]
    exact Or.inr hmem
  have hrevs : entry.rev = next.rev := by rw [ht.rev, hnext]
  refine ⟨bytes, ⟨some (entry.commit, next.commit), r.blocks.merge held⟩, hbody, ?_, ?_⟩
  · have hgoes : r.GoesOn ⟨entry.repo.str, entry.commit, entry.rev.str,
        entry.since.map Tid.str, held, entry.prevData⟩ := by
      rw [GoesOn, hhead, hsince, hprev]
      exact ⟨rfl, rfl⟩
    have hbefore : r.Before next.commit.rev := by
      intro head hmem
      rw [hhead] at hmem
      obtain rfl := Option.some.inj hmem
      exact hl.rev
    have hsame : next.commit.rev.str = entry.rev.str := by
      rw [hrevs]
      rfl
    rw [follow]
    simp only [hhear, bind, Option.bind]
    exact append_eq_some.mpr
      ⟨next.commit, hcommit, ⟨congrArg Did.str ht.repo, hgoes, hsame, hbefore⟩, rfl⟩
  · refine ⟨⟨_, next.commit, hl.after.root, ?_, hl.after.stands.commit, rfl, ?_⟩, hmerged, ?_⟩
    · rw [hcid]
    · rw [← hdid]
      exact (sign_ok hsign).1
    · intro c b hb
      dsimp only
      rw [BlockMap.lookup_merge, hheld, ht.blocks]
      rcases hg c b hb with hheld' | hnew
      · have hold := hstored c b hheld'
        cases hlookup : m.revision.written.lookup c with
        | none => exact hold
        | some b' =>
          have hsame := (hwritten c b' hlookup).symm.trans (hsound c b hold)
          rw [LawfulCodec.cidFor_injective hsame, Option.some_or]
      · rw [hnew, Option.some_or]

/-- A consumer takes no entry but that of a revision worked out on the revision it is on. -/
theorem Holds.rev_eq (h : r.Holds did tables) {m : Moved Cid} {repo next : Repo Cid} {ℓ ℓ' : ℕ}
    {xs xs' : List (Leaf Cid)} {worked : Worked Cid} {entry : Append Cid} {body : Firehose.Body}
    {r' : Replica Cid} (hl : m.Lands did repo ℓ xs worked next ℓ' xs') (ht : entry.Tells did m)
    (hb : entry.body = .ok body) (hf : r.follow did key body = some r') :
    ∃ root before, tables.repoRoot = some root ∧ m.before.repoRoot = some before ∧
      root.rev.str = before.rev.str := by
  obtain ⟨⟨root, commit, hroot, hhead, -, hrev, -⟩, -, -⟩ := h
  obtain ⟨before, previous, hbefore, -, hrev', hsince, -⟩ := ht.previous
  obtain ⟨hnext, hwritten, hmem, -⟩ := hl.signed
  have hblocks : entry.blocks.Sound := by
    rw [ht.blocks]
    exact hwritten
  have hin : entry.commit ∈ entry.blocks := by
    rw [ht.blocks, ht.commit, hnext]
    exact hmem
  obtain ⟨bytes, held, hbody, -, hhear⟩ := entry.hear_body hblocks hin
  obtain rfl : body = (.append, bytes) := Except.ok.inj (hb.symm.trans hbody)
  refine ⟨root, before, hroot, hbefore, ?_⟩
  rw [follow] at hf
  simp only [hhear, bind, Option.bind] at hf
  obtain ⟨commit', -, ⟨-, ⟨hfrom, -⟩, -, -⟩, -⟩ := append_eq_some.mp hf
  simp only [hsince, hhead, Option.map_some, Option.some.injEq] at hfrom
  rw [← hrev, ← hfrom, hrev']

omit [CidText Cid] in
/-- The entries of a new account put a consumer where its repository was founded. -/
theorem holds_founded {keypair : Keypair} {now : ℕ} {clock clock' : TidClock} {repo : Repo Cid}
    {blocks : BlockMap Cid}
    (hc : Repo.create did keypair now clock = (.ok (repo, blocks), clock'))
    (hroot : tables.repoRoot = some ⟨repo.cid, repo.rev⟩) (hstored : tables.stored = blocks.lookup)
    (handle : Handle) : ∃ opening,
      accountCreated did handle repo.cid repo.rev blocks = .ok opening ∧
      ∀ key : PublicKey, key.Of keypair →
        ∃ r, empty.followAll did key opening = some r ∧ r.Holds did tables := by
  obtain ⟨hr, hx⟩ := of_create hc
  obtain ⟨data, hsign⟩ := signed_of_create hc
  have hmem : repo.cid ∈ blocks := AList.lookup_isSome.mp ((hx.mem repo.cid).mpr (Or.inl rfl))
  have hsound : blocks.Sound := hx.sound
  obtain ⟨named, active, written, now', held, hopening, hheld, hhear, hnow⟩ :=
    hear_accountCreated did handle repo.rev hsound hmem
  refine ⟨_, hopening, ?_⟩
  intro key hk
  have hmerged : ((∅ : BlockMap Cid).merge held).Sound := by
    apply BlockMap.Sound.empty.merge
    intro c b hb
    rw [hheld] at hb
    exact hsound c b hb
  have hcommit : commitAt did key ((∅ : BlockMap Cid).merge held) repo.cid = some repo.commit := by
    apply commitAt_eq hmerged _ hr.commit hsign hk
    rw [BlockMap.mem_merge, ← AList.lookup_isSome (s := held), hheld, AList.lookup_isSome]
    exact Or.inr hmem
  obtain ⟨hdid, -, -⟩ := sign_ok hsign
  refine ⟨⟨some (repo.cid, repo.commit), (∅ : BlockMap Cid).merge held⟩, ?_, ?_⟩
  · have hgoes : empty.GoesOn ⟨did.str, repo.cid, repo.rev.str, none, held, none⟩ := ⟨rfl, rfl⟩
    have hbefore : (empty : Replica Cid).Before repo.commit.rev := by
      intro head hm
      cases hm
    have hsame : repo.commit.rev.str = repo.rev.str := rfl
    have happend : empty.append did key ⟨did.str, repo.cid, repo.rev.str, none, held, none⟩ =
        some ⟨some (repo.cid, repo.commit), (∅ : BlockMap Cid).merge held⟩ :=
      append_eq_some.mpr ⟨repo.commit, hcommit, ⟨rfl, hgoes, hsame, hbefore⟩, rfl⟩
    simp only [followAll, follow, Option.bind_some, hhear, hnow, bind, happend, Option.map_some,
      and_self, if_true]
  · refine ⟨⟨_, repo.commit, hroot, rfl, hr.commit, rfl, hdid⟩, hmerged, ?_⟩
    intro c b hb
    rw [hstored] at hb
    replace hb : blocks.lookup c = some b := hb
    dsimp only
    rw [BlockMap.lookup_merge, hheld, hb, Option.some_or]

end Replica

namespace Replica

/-- A consumer takes the entries of revisions that land one on the other, and is after each where
that left the tables. -/
theorem Holds.followAll (h : r.Holds did tables) {entries : List (Append Cid)}
    {ms : List (Moved Cid)} (he : List.Forall₂ (Landed.Entry did) entries ms)
    (hc : ms.IsChain fun earlier later => earlier.after.Same later.before)
    (hf : ∀ m ∈ ms.head?, tables.Same m.before) (hk : ∀ m ∈ ms, key.Of m.job.keypair) :
    ∃ bodies, List.Forall₂ (fun entry body => entry.body = .ok body) entries bodies ∧
      bodies.length = ms.length ∧ ∀ n ≤ bodies.length,
        ∃ after r', (tables :: ms.map Moved.after)[n]? = some after ∧
          r.followAll did key (bodies.take n) = some r' ∧ r'.Holds did after := by
  induction he generalizing tables r with
  | nil =>
    refine ⟨[], .nil, rfl, ?_⟩
    intro n hn
    obtain rfl := Nat.le_zero.mp hn
    exact ⟨tables, r, rfl, rfl, h⟩
  | @cons entry m entries ms hentry hrest ih =>
    obtain ⟨htells, ⟨repo, ℓ, xs, worked, next, ℓ', xs', hlands⟩, hgrown⟩ := hentry
    rw [List.isChain_cons] at hc
    obtain ⟨bytes, r1, hbody, hfollow, hholds⟩ := h.append hlands (hf m rfl) hgrown htells
      (hk m List.mem_cons_self)
    obtain ⟨bodies, hbodies, hlength, hall⟩ :=
      ih hholds hc.2 hc.1 fun m' hm' => hk m' (List.mem_cons_of_mem m hm')
    refine ⟨(.append, bytes) :: bodies, .cons hbody hbodies, congrArg Nat.succ hlength, ?_⟩
    intro n hn
    cases n with
    | zero => exact ⟨tables, r, rfl, rfl, h⟩
    | succ n =>
      obtain ⟨after, r', hafter, hfollowed, hholds'⟩ := hall n (Nat.le_of_succ_le_succ hn)
      refine ⟨after, r', hafter, ?_, hholds'⟩
      rw [List.take_succ_cons, Replica.followAll, hfollow]
      exact hfollowed

end Replica

/-- A consumer takes no entry but the one whose turn it is. -/
theorem Replica.Holds.eq_of_follow {r r' : Replica Cid} {after : Tables Cid}
    (h : r.Holds did after) {entries : List (Append Cid)} {ms : List (Moved Cid)}
    {bodies : List Firehose.Body} (he : List.Forall₂ (Landed.Entry did) entries ms)
    (hb : List.Forall₂ (fun entry body => Append.body entry = .ok body) entries bodies)
    (hc : ms.IsChain fun earlier later => earlier.after.Same later.before)
    (hf : ∀ m ∈ ms.head?, tables.Same m.before) {i n : ℕ} {body : Firehose.Body}
    (hn : (tables :: ms.map Moved.after)[n]? = some after) (hi : bodies[i]? = some body)
    (hfollow : r.follow did key body = some r') : i = n := by
  obtain ⟨entry, hentry, hbody⟩ := exists_getElem_of_forall₂ hb.flip hi
  obtain ⟨m, hm, htells, ⟨_, _, _, _, _, _, _, hlands⟩, -⟩ := exists_getElem_of_forall₂ he hentry
  obtain ⟨root, before, hroot, hbefore, hrev⟩ := h.rev_eq hlands htells hbody hfollow
  obtain ⟨earlier, hearlier, hsame⟩ := exists_same_before hc hf hm
  have hroot' : earlier.repoRoot = some before := hsame.repoRoot.symm.trans hbefore
  have hlands' : ∀ m ∈ ms, ∃ repo ℓ xs worked next ℓ' xs',
      m.Lands did repo ℓ xs worked next ℓ' xs' := by
    intro m hm
    obtain ⟨j, hj⟩ := List.getElem?_of_mem hm
    obtain ⟨_, -, -, hl, -⟩ := exists_getElem_of_forall₂ he.flip hj
    exact hl
  have hpairs := List.pairwise_iff_getElem.mp (isChain_precedes hlands' hc hf).pairwise
  obtain ⟨hi', rfl⟩ := List.getElem?_eq_some_iff.mp hearlier
  obtain ⟨hn', rfl⟩ := List.getElem?_eq_some_iff.mp hn
  rcases lt_trichotomy i n with hlt | heq | hgt
  · obtain ⟨root₁, root₂, h₁, h₂, hless⟩ := hpairs i n hi' hn' hlt
    obtain rfl := Option.some.inj (hroot'.symm.trans h₁)
    obtain rfl := Option.some.inj (hroot.symm.trans h₂)
    exact absurd hrev.symm hless.ne
  · exact heq
  · obtain ⟨root₁, root₂, h₁, h₂, hless⟩ := hpairs n i hn' hi' hgt
    obtain rfl := Option.some.inj (hroot.symm.trans h₁)
    obtain rfl := Option.some.inj (hroot'.symm.trans h₂)
    exact absurd hrev hless.ne

namespace Logging

variable {s : Logging Cid}

/-- A consumer that is where the account was opened follows what is on its way to the log. -/
theorem Sound.followed (h : s.Sound did) {r : Replica Cid} (hr : r.Holds did s.world.opened)
    (hk : ∀ m ∈ s.world.moved, key.Of m.job.keypair) : ∃ bodies,
      List.Forall₂ (fun entry body => Append.body entry = .ok body) (s.entries did) bodies ∧
      ∀ n ≤ bodies.length, ∃ tables r', s.world.history.reverse[n]? = some tables ∧
        r.followAll did key (bodies.take n) = some r' ∧ r'.Holds did tables ∧
        ∀ i body, bodies[i]? = some body → ((r'.follow did key body).isSome ↔ i = n) := by
  have hchain := List.isChain_reverse.mpr h.world.sound.chain
  obtain ⟨bodies, hbodies, -, hfollowed⟩ := hr.followAll h.forall₂_entry hchain
    s.world.opened_same fun m hm => hk m (List.mem_reverse.mp hm)
  refine ⟨bodies, hbodies, ?_⟩
  intro n hn
  obtain ⟨tables, r', htables, hr', hholds⟩ := hfollowed n hn
  refine ⟨tables, r', ?_, hr', hholds, ?_⟩
  · rw [World.history_reverse]
    exact htables
  intro i body hbody
  constructor
  · intro htaken
    obtain ⟨next, hnext⟩ := Option.isSome_iff_exists.mp htaken
    exact hholds.eq_of_follow h.forall₂_entry hbodies hchain s.world.opened_same htables hbody hnext
  · rintro rfl
    obtain ⟨hi, -⟩ := List.getElem?_eq_some_iff.mp hbody
    obtain ⟨_, next, -, hnext, -⟩ := hfollowed (i + 1) hi
    rw [List.take_add_one, hbody, Option.toList_some, Replica.followAll_append, hr',
      Option.bind_some, Replica.followAll] at hnext
    obtain ⟨next', hfollow, -⟩ := Option.bind_eq_some_iff.mp hnext
    rw [hfollow]
    rfl

/-- A consumer of the log follows the repository, in every run in which no call is dropped from the
landing of its commit until the log has it: it takes what the account's opening put in the log and
each entry after that, reads at each revision what the tables of that revision have, and takes no
entry before its turn or a second time. -/
theorem log_replicated (h : Reachable did true s) (handle : Handle) :
    ∃ keypair now clock clock' repo blocks opening bodies,
      Repo.create did keypair now clock = (.ok (repo, blocks), clock') ∧
      s.world.opened.repoRoot = some ⟨repo.cid, repo.rev⟩ ∧
      s.world.opened.stored = blocks.lookup ∧
      accountCreated did handle repo.cid repo.rev blocks = .ok opening ∧
      List.Forall₂ (fun entry body => entry.body = .ok body) s.log bodies ∧
      ∀ key : PublicKey, key.Of keypair → (∀ m ∈ s.world.moved, key.Of m.job.keypair) →
        (∀ n ≤ bodies.length, ∃ tables r, s.world.history.reverse[n]? = some tables ∧
          Replica.empty.followAll did key (opening ++ bodies.take n) = some r ∧
          r.Shows did tables ∧
          ∀ i body, bodies[i]? = some body → ((r.follow did key body).isSome ↔ i = n)) ∧
        (s.Idle → ∃ r, Replica.empty.followAll did key (opening ++ bodies) = some r ∧
          r.Shows did s.world.actor.tables) := by
  have hsound := h.sound
  have hworld := hsound.world.sound
  obtain ⟨first, ⟨hcreate, hcommit⟩, hsame⟩ := hworld.founded
  have hcar := Tables.Carries.genesis hcreate hcommit
  have hroot := hsame.repoRoot.trans hcar.root
  have hstored := hsame.stored.trans (hcar.exact.eq (of_create hcreate).2)
  obtain ⟨opening, hopening, hopened⟩ := Replica.holds_founded hcreate hroot hstored handle
  -- a key that lets anything pass is one of every keypair
  obtain ⟨anyone, hanyone⟩ : ∃ key : PublicKey, ∀ keypair, key.Of keypair :=
    ⟨⟨fun _ _ => .ok ()⟩, fun _ _ => rfl⟩
  obtain ⟨r₀, -, hr₀⟩ := hopened anyone (hanyone _)
  obtain ⟨all, hall, -⟩ := hsound.followed hr₀ fun _ _ => hanyone _
  have hlog : List.Forall₂ (fun entry body => Append.body entry = .ok body) s.log
      (all.take s.log.length) := by
    have htake := List.forall₂_take s.log.length hall
    rwa [Logging.entries, List.append_assoc, List.take_left] at htake
  have hlen := hlog.length_eq
  refine ⟨_, _, _, _, _, _, opening, _, hcreate, hroot, hstored, hopening, hlog, ?_⟩
  intro key hkey hkeys
  obtain ⟨r₁, hr₁, hr₁'⟩ := hopened key hkey
  obtain ⟨bodies, hbodies, hfollowed⟩ := hsound.followed hr₁' hkeys
  obtain rfl : bodies = all := by
    apply List.right_unique_forall₂' _ hbodies hall
    exact fun entry body body' hb hb' => Except.ok.inj (hb.symm.trans hb')
  have htook : ∀ n ≤ (bodies.take s.log.length).length, ∃ tables r,
      s.world.history.reverse[n]? = some tables ∧ Replica.empty.followAll did key
        (opening ++ (bodies.take s.log.length).take n) = some r ∧ r.Holds did tables ∧
      ∀ i body, bodies[i]? = some body → ((r.follow did key body).isSome ↔ i = n) := by
    intro n hn
    have hmin : min n s.log.length = n := min_eq_left (hlen ▸ hn)
    obtain ⟨tables, r, htables, hr, hholds⟩ := hfollowed n (hn.trans (List.length_take_le' _ _))
    refine ⟨tables, r, htables, ?_, hholds⟩
    rw [Replica.followAll_append, hr₁, List.take_take, hmin]
    exact hr
  constructor
  · intro n hn
    obtain ⟨tables, r, htables, hr, hholds, hturn⟩ := htook n hn
    obtain ⟨repo, ℓ, xs, hcarries⟩ := hworld.carries_history tables
      (List.mem_reverse.mp (List.mem_of_getElem? htables))
    refine ⟨tables, r, htables, hr, hholds.shows hcarries, ?_⟩
    intro i body hbody
    apply hturn i body
    obtain ⟨hi, -⟩ := List.getElem?_eq_some_iff.mp hbody
    rw [List.length_take] at hi
    rwa [List.getElem?_take_of_lt (hi.trans_le (min_le_left _ _))] at hbody
  · rintro ⟨-, hturn, happends⟩
    have hunsent : s.unsent = none := by simp [unsent, hturn]
    have hlanded : s.log.length = s.world.moved.length := by
      have hsame := hsound.forall₂_entry.length_eq
      rw [Logging.entries, happends, hunsent, List.length_reverse] at hsame
      simpa using hsame
    obtain ⟨tables, r, htables, hr, hholds, -⟩ := htook _ le_rfl
    obtain ⟨repo, ℓ, xs, hcarries, -⟩ := hworld.carries
    rw [List.take_length] at hr
    rw [← hlen, hlanded] at htables
    exact ⟨r, hr, (hholds.same (hworld.same_of_last htables)).shows hcarries⟩

end Logging

end

section

open DagCbor

namespace Logging

/-- A consumer of an account's opening and its two writes. -/
theorem log_replicated_first : ∃ (s : Logging RawCid) (opening bodies : List Firehose.Body)
    (r : Replica RawCid), s.world.moved.length = 2 ∧ bodies.length = 2 ∧
      @Replica.followAll RawCid _ _ recordValues _ recordDid ⟨fun _ _ => .ok ()⟩ .empty
        (opening ++ bodies) = some r ∧ r.Shows recordDid s.world.actor.tables := by
  obtain ⟨s, hs, hidle, hmoved, hlog⟩ := exists_second_logged
  obtain ⟨keypair, _, _, _, _, _, opening, bodies, -, -, -, -, hbodies, hall⟩ :=
    @log_replicated RawCid _ _ _ _ _ recordValues lawful_recordValues _ _ recordDid s hs
      Signup.signupHandle
  obtain ⟨-, hfollowed⟩ := hall ⟨fun _ _ => .ok ()⟩ (fun _ => rfl) fun _ _ _ => rfl
  obtain ⟨r, hr, hshows⟩ := hfollowed hidle
  exact ⟨s, opening, bodies, r, hmoved, hbodies.length_eq.symm.trans hlog, hr, hshows⟩

end Logging

end

end Manapds
