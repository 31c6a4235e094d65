import Manapds.Repo.Applied

/-!
# What a commit reaches

`Reach st root` follows the links of the blocks in a store from a commit: to the tree it names,
from node to node, and to the record of every leaf. It knows nothing of layers or keys. Where the
store holds the tree over some leaves, what is reached is the commit, the nodes of the tree and the
records of its leaves.
-/

namespace Manapds

open KeyedList Shape QueryProgram Routine

variable {Cid : Type}

namespace Shape

theorem mem_storedFrom {entry : TreeEntry Cid} {child : List (Leaf Cid) → Option Cid} {last : Str}
    {g : List (Leaf Cid × List (Leaf Cid))} (h : entry ∈ storedFrom child last g) :
    ∃ p ∈ g, entry.v = p.1.value ∧ entry.t = child p.2 := by
  induction g generalizing last with
  | nil => simp [storedFrom] at h
  | cons p g ih =>
    rcases List.mem_cons.mp h with rfl | h
    · exact ⟨p, List.mem_cons_self, rfl, rfl⟩
    · obtain ⟨q, hq, he⟩ := ih h
      exact ⟨q, List.mem_cons_of_mem p hq, he⟩

theorem exists_mem_storedFrom {child : List (Leaf Cid) → Option Cid} (last : Str)
    {g : List (Leaf Cid × List (Leaf Cid))} {p : Leaf Cid × List (Leaf Cid)} (h : p ∈ g) :
    ∃ entry ∈ storedFrom child last g, entry.v = p.1.value ∧ entry.t = child p.2 := by
  induction g generalizing last with
  | nil => cases h
  | cons q g ih =>
    rcases List.mem_cons.mp h with rfl | h
    · exact ⟨_, List.mem_cons_self, rfl, rfl⟩
    · obtain ⟨entry, he, hv⟩ := ih q.1.key h
      exact ⟨entry, List.mem_cons_of_mem _ he, hv⟩

end Shape

variable [Codec Cid]

/-- What a block is reached as. -/
inductive BlockKind where
  | commit
  | node
  | record
deriving DecidableEq

inductive Reach (st : Cid → Option Bytes) (root : Cid) : BlockKind → Cid → Prop where
  | commit : Reach st root .commit root
  | data {b : Bytes} {commit : Commit Cid} : st root = some b → decodeCommit b = .ok commit →
      Reach st root .node commit.data
  | left {c c' : Cid} {b : Bytes} {node : NodeData Cid} : Reach st root .node c → st c = some b →
      decodeNode b = .ok node → node.l = some c' → Reach st root .node c'
  | right {c c' : Cid} {b : Bytes} {node : NodeData Cid} {entry : TreeEntry Cid} :
      Reach st root .node c → st c = some b → decodeNode b = .ok node → entry ∈ node.e →
      entry.t = some c' → Reach st root .node c'
  | record {c : Cid} {b : Bytes} {node : NodeData Cid} {entry : TreeEntry Cid} :
      Reach st root .node c → st c = some b → decodeNode b = .ok node → entry ∈ node.e →
      Reach st root .record entry.v

def Reached (st : Cid → Option Bytes) (root c : Cid) : Prop := ∃ kind, Reach st root kind c

namespace Shape

variable {ℓ : ℕ} {xs ys : List (Leaf Cid)} {x : Leaf Cid}

/-- A node links to the nodes one layer under it. -/
theorem mem_nodesOf_of_childAt {c : Cid} (hf : Fits ℓ xs) (hr : IsRun ℓ xs ys)
    (hc : childAt ℓ ys = some c) : ∃ p ∈ nodesOf ℓ xs, c = cidAt p.1 p.2 := by
  have hne : ys ≠ [] := by
    rintro rfl
    simp at hc
  have hm := mem_runs.mpr ⟨hne, hr⟩
  obtain ⟨k, rfl, -, hk⟩ := childAt_of_mem_runs hf hm
  rw [hk, Option.some_inj] at hc
  exact ⟨(k, ys), mem_nodesOf_succ.mpr (Or.inr ⟨ys, hm, self_mem_nodesOf k ys⟩), hc.symm⟩

/-- Every leaf stands in a node of its own layer. -/
theorem exists_node_of_mem (hf : Fits ℓ xs) (hx : x ∈ xs) :
    ∃ p ∈ nodesOf ℓ xs, ∃ ys, (x, ys) ∈ (group p.1 p.2).2 := by
  induction ℓ generalizing xs with
  | zero =>
    refine ⟨(0, xs), self_mem_nodesOf 0 xs, ?_⟩
    have hflat := flat_group 0 xs
    rw [← hflat] at hx
    rcases List.mem_append.mp hx with hx | hx
    · have hrun : IsRun 0 xs (group 0 xs).1 := Or.inl rfl
      have hz : x.zeros ≠ 0 := hrun.ne hx
      have hx' : x ∈ xs := by
        rw [← hflat]
        exact List.mem_append_left _ hx
      exact absurd (Nat.le_zero.mp (hf x hx')) hz
    · obtain ⟨p, hp, hxp⟩ := List.mem_flatMap.mp hx
      rcases List.mem_cons.mp hxp with rfl | hxp
      · exact ⟨p.2, hp⟩
      · have hrun : IsRun 0 xs p.2 := Or.inr ⟨p.1, hp⟩
        have hm := mem_runs.mpr ⟨List.ne_nil_of_mem hxp, hrun⟩
        exact absurd (fitsUnder_of_mem_runs hf hm x hxp) (Nat.not_lt_zero _)
  | succ ℓ ih =>
    have under : ∀ ys, IsRun (ℓ + 1) xs ys → x ∈ ys →
        ∃ p ∈ nodesOf (ℓ + 1) xs, ∃ zs, (x, zs) ∈ (group p.1 p.2).2 := by
      intro ys hr hy
      have hm := mem_runs.mpr ⟨List.ne_nil_of_mem hy, hr⟩
      obtain ⟨p, hp, hz⟩ := ih (fits_of_fitsUnder (fitsUnder_of_mem_runs hf hm)) hy
      exact ⟨p, mem_nodesOf_succ.mpr (Or.inr ⟨ys, hm, hp⟩), hz⟩
    rw [← flat_group (ℓ + 1) xs] at hx
    rcases List.mem_append.mp hx with hx | hx
    · exact under _ (Or.inl rfl) hx
    · obtain ⟨p, hp, hxp⟩ := List.mem_flatMap.mp hx
      rcases List.mem_cons.mp hxp with rfl | hxp
      · exact ⟨(ℓ + 1, xs), self_mem_nodesOf _ _, p.2, hp⟩
      · exact under p.2 (Or.inr ⟨p.1, hp⟩) hxp

end Shape

/-- What is of each kind, in the revision of a commit over some leaves. -/
def BlockKind.Of (root : Cid) (ℓ : ℕ) (xs : List (Leaf Cid)) : BlockKind → Cid → Prop
  | .commit => fun c => c = root
  | .node => fun c => ∃ p ∈ nodesOf ℓ xs, c = cidAt p.1 p.2
  | .record => fun c => ∃ x ∈ xs, c = x.value

variable {st st' : Cid → Option Bytes} {root c : Cid} {ℓ : ℕ} {xs : List (Leaf Cid)}
  {commit : Commit Cid} {b : Bytes} {repo : Repo Cid}

/-- A tree in memory is as good in any store that has what it has not read. -/
theorem Rep.imp_nodes {t : Mst Cid} {S : List Cid} (h : Rep st S ℓ t xs) (hst : Stored st' ℓ xs) :
    Rep st' S ℓ t xs := by
  induction ℓ generalizing t xs with
  | zero =>
    refine ⟨h.keyed, h.fits, h.layer, h.pointer, h.loaded, fun hn => ?_⟩
    obtain ⟨hp, -, hu⟩ := RepNode.unread h hn
    exact ⟨hp, hst, hu⟩
  | succ ℓ ih =>
    have h' : RepNode st S (ℓ + 1) (Rep st S ℓ) t xs := h
    refine ⟨h'.keyed, h'.fits, h'.layer, h'.pointer, fun es hes => ?_, fun hn => ?_⟩
    · exact (h'.loaded es hes).imp_runs fun u ys hy hr =>
        ih hr fun p hp => hst p (mem_nodesOf_succ.mpr (Or.inr ⟨ys, hy, hp⟩))
    · obtain ⟨hp, -, hu⟩ := h'.unread hn
      exact ⟨hp, hst, hu⟩

theorem Holds.imp_nodes {t : Mst Cid} (h : Holds st ℓ t xs) (hst : Stored st' ℓ xs) : Holds st' ℓ t xs :=
  ⟨h.rep.imp_nodes hst, h.le⟩

/-- A store with a commit in it, over a tree it also holds. -/
structure Standing (st : Cid → Option Bytes) (root : Cid) (commit : Commit Cid) (ℓ : ℕ)
    (xs : List (Leaf Cid)) : Prop where
  keyed : WellKeyed xs
  fits : Fits ℓ xs
  le : ℓ ≤ 128
  data : commit.data = cidAt ℓ xs
  block : ∃ b, encode commit.toIpld = .ok b ∧ st root = some b
  stored : Stored st ℓ xs

namespace Standing

theorem mono (h : Standing st root commit ℓ xs) (hst : ∀ c b, st c = some b → st' c = some b) :
    Standing st' root commit ℓ xs := by
  obtain ⟨b, he, hb⟩ := h.block
  exact ⟨h.keyed, h.fits, h.le, h.data, ⟨b, he, hst _ b hb⟩, fun p hp => hst _ _ (h.stored p hp)⟩

theorem holds (h : Standing st root commit ℓ xs) : Holds st ℓ (Mst.load commit.data) xs := by
  rw [h.data]
  exact holds_load h.keyed h.fits h.le h.stored

end Standing

/-- A repository whose store holds exactly the blocks its commit reaches. -/
structure Repository (st : Cid → Option Bytes) (repo : Repo Cid) : Prop where
  stands : ∃ ℓ xs, repo.At st ℓ xs
  sound : ∀ c b, st c = some b → c = cidFor b
  exact : ∀ c, (st c).isSome ↔ Reached st repo.cid c

variable [LawfulCodec Cid]

/-- Whatever follows the links of the nodes it is true of is true of every node under one, where
those nodes are there. -/
theorem links_nodesOf {R : Cid → Prop}
    (left : ∀ {c c' : Cid} {b : Bytes} {node : NodeData Cid}, R c → st c = some b →
      decodeNode b = .ok node → node.l = some c' → R c')
    (right : ∀ {c c' : Cid} {b : Bytes} {node : NodeData Cid} {entry : TreeEntry Cid}, R c →
      st c = some b → decodeNode b = .ok node → entry ∈ node.e → entry.t = some c' → R c')
    (hk : WellKeyed xs) (hb : ∀ m ys, R (cidAt m ys) → st (cidAt m ys) = some (blockAt m ys))
    {m : ℕ} {ys : List (Leaf Cid)} (hsub : ys.Sublist xs) (hf : Fits m ys) (hr : R (cidAt m ys))
    {p : ℕ × List (Leaf Cid)} (hp : p ∈ nodesOf m ys) : R (cidAt p.1 p.2) := by
  induction m generalizing ys with
  | zero =>
    obtain rfl : p = (0, ys) := by simpa [nodesOf] using hp
    exact hr
  | succ m ih =>
    rcases mem_nodesOf_succ.mp hp with rfl | ⟨zs, hz, hp⟩
    · exact hr
    · have hd : decodeNode (blockAt (m + 1) ys) = .ok (nodeAt (m + 1) ys) :=
        decodeNode_encode (encode_nodeAt (hk.sublist hsub))
      have hst := hb (m + 1) ys hr
      refine ih ((sublist_of_mem_runs hz).trans hsub)
        (fits_of_fitsUnder (fitsUnder_of_mem_runs hf hz)) ?_ hp
      obtain ⟨hne, hrun⟩ := mem_runs.mp hz
      rcases hrun with rfl | ⟨x, hx⟩
      · exact left hr hst hd (childAt_succ hne)
      · obtain ⟨entry, he, -, ht⟩ := exists_mem_storedFrom [] hx
        exact right hr hst hd he (ht.trans (childAt_succ hne))

theorem reach_nodesOf (hk : WellKeyed xs)
    (hb : ∀ m ys, Reach st root .node (cidAt m ys) → st (cidAt m ys) = some (blockAt m ys))
    {m : ℕ} {ys : List (Leaf Cid)} (hsub : ys.Sublist xs) (hf : Fits m ys)
    (hr : Reach st root .node (cidAt m ys)) {p : ℕ × List (Leaf Cid)} (hp : p ∈ nodesOf m ys) :
    Reach st root .node (cidAt p.1 p.2) :=
  links_nodesOf Reach.left Reach.right hk hb hsub hf hr hp

/-! ## What a node links to -/

/-- The nodes that the links of a node lead to, itself among them. -/
inductive Linked (st : Cid → Option Bytes) (root : Cid) : Cid → Prop where
  | root : Linked st root root
  | left {c c' : Cid} {b : Bytes} {node : NodeData Cid} : Linked st root c → st c = some b →
      decodeNode b = .ok node → node.l = some c' → Linked st root c'
  | right {c c' : Cid} {b : Bytes} {node : NodeData Cid} {entry : TreeEntry Cid} :
      Linked st root c → st c = some b → decodeNode b = .ok node → entry ∈ node.e →
      entry.t = some c' → Linked st root c'

/-- A node of a stored tree is what its block decodes to. -/
theorem decode_stored (hk : WellKeyed xs) (hf : Fits ℓ xs) (hs : Stored st ℓ xs)
    {p : ℕ × List (Leaf Cid)} (hp : p ∈ nodesOf ℓ xs) (hb : st (cidAt p.1 p.2) = some b)
    {node : NodeData Cid} (hn : decodeNode b = .ok node) : node = nodeAt p.1 p.2 := by
  obtain ⟨-, hsub, -, -⟩ := of_mem_nodesOf hf hp
  have he : blockAt p.1 p.2 = b := Option.some_inj.mp ((hs p hp).symm.trans hb)
  have hd : decodeNode (blockAt p.1 p.2) = .ok (nodeAt p.1 p.2) :=
    decodeNode_encode (encode_nodeAt (hk.sublist hsub))
  rw [he, hn] at hd
  exact Except.ok.inj hd

theorem linked_iff (hk : WellKeyed xs) (hf : Fits ℓ xs) (hs : Stored st ℓ xs) :
    Linked st (cidAt ℓ xs) c ↔ ∃ p ∈ nodesOf ℓ xs, c = cidAt p.1 p.2 := by
  have hof : ∀ c, Linked st (cidAt ℓ xs) c → ∃ p ∈ nodesOf ℓ xs, c = cidAt p.1 p.2 := by
    intro c hc
    induction hc with
    | root => exact ⟨(ℓ, xs), self_mem_nodesOf ℓ xs, rfl⟩
    | left _ hb hn hl ih =>
      obtain ⟨p, hp, rfl⟩ := ih
      rw [decode_stored hk hf hs hp hb hn] at hl
      obtain ⟨q, hq, rfl⟩ := mem_nodesOf_of_childAt (of_mem_nodesOf hf hp).2.2.1 (Or.inl rfl) hl
      exact ⟨q, nodesOf_trans hp hq, rfl⟩
    | right _ hb hn he ht ih =>
      obtain ⟨p, hp, rfl⟩ := ih
      rw [decode_stored hk hf hs hp hb hn] at he
      obtain ⟨g, hg, -, htg⟩ := mem_storedFrom he
      obtain ⟨q, hq, rfl⟩ := mem_nodesOf_of_childAt (of_mem_nodesOf hf hp).2.2.1
        (Or.inr ⟨g.1, hg⟩) (htg.symm.trans ht)
      exact ⟨q, nodesOf_trans hp hq, rfl⟩
  refine ⟨hof c, ?_⟩
  rintro ⟨p, hp, rfl⟩
  refine links_nodesOf Linked.left Linked.right hk (fun m ys hr => ?_) (List.Sublist.refl xs) hf
    .root hp
  obtain ⟨q, hq, he⟩ := hof _ hr
  have hbytes : blockAt m ys = blockAt q.1 q.2 := LawfulCodec.cidFor_injective he
  rw [he, hbytes, hs q hq]

namespace Standing

theorem exec_load {σ : Type} (s : σ) (h : Standing st root commit ℓ xs) :
    exec (Store.answer st) (Repo.load root) s = (.ok ⟨root, commit, Mst.load commit.data⟩, s) := by
  obtain ⟨b, he, hb⟩ := h.block
  rw [Repo.load, exec_bind, exec_ask, Store.answer_get, hb]
  simp only [exec_bind, decodeCommit_encode he, exec_ofExcept_ok, exec_pure]

theorem decode_commit (h : Standing st root commit ℓ xs) (hb : st root = some b)
    {commit' : Commit Cid} (hc : decodeCommit b = .ok commit') : commit' = commit := by
  obtain ⟨b', he, hb'⟩ := h.block
  obtain rfl : b' = b := Option.some_inj.mp (hb'.symm.trans hb)
  exact (Except.ok.inj ((decodeCommit_encode he).symm.trans hc)).symm

theorem decode_node (h : Standing st root commit ℓ xs) {p : ℕ × List (Leaf Cid)}
    (hp : p ∈ nodesOf ℓ xs) (hb : st (cidAt p.1 p.2) = some b) {node : NodeData Cid}
    (hn : decodeNode b = .ok node) : node = nodeAt p.1 p.2 :=
  decode_stored h.keyed h.fits h.stored hp hb hn

theorem of_reach (h : Standing st root commit ℓ xs) {kind : BlockKind}
    (hr : Reach st root kind c) : kind.Of root ℓ xs c := by
  induction hr with
  | commit => rfl
  | data hb hc =>
    rw [h.decode_commit hb hc]
    exact ⟨(ℓ, xs), self_mem_nodesOf ℓ xs, h.data⟩
  | left _ hb hn hl ih =>
    obtain ⟨p, hp, rfl⟩ := ih
    obtain ⟨-, -, hf, -⟩ := of_mem_nodesOf h.fits hp
    rw [h.decode_node hp hb hn] at hl
    obtain ⟨q, hq, rfl⟩ := mem_nodesOf_of_childAt hf (Or.inl rfl) hl
    exact ⟨q, nodesOf_trans hp hq, rfl⟩
  | right _ hb hn he ht ih =>
    obtain ⟨p, hp, rfl⟩ := ih
    obtain ⟨-, -, hf, -⟩ := of_mem_nodesOf h.fits hp
    rw [h.decode_node hp hb hn] at he
    obtain ⟨g, hg, -, htg⟩ := mem_storedFrom he
    obtain ⟨q, hq, rfl⟩ := mem_nodesOf_of_childAt hf (Or.inr ⟨g.1, hg⟩) (htg.symm.trans ht)
    exact ⟨q, nodesOf_trans hp hq, rfl⟩
  | record _ hb hn he ih =>
    obtain ⟨p, hp, rfl⟩ := ih
    obtain ⟨-, hsub, -, -⟩ := of_mem_nodesOf h.fits hp
    rw [h.decode_node hp hb hn] at he
    obtain ⟨g, hg, hv, -⟩ := mem_storedFrom he
    exact ⟨g.1, hsub.subset (mem_of_mem_group hg), hv⟩

theorem reach_node (h : Standing st root commit ℓ xs) {p : ℕ × List (Leaf Cid)}
    (hp : p ∈ nodesOf ℓ xs) : Reach st root .node (cidAt p.1 p.2) := by
  have hroot : Reach st root .node (cidAt ℓ xs) := by
    obtain ⟨b, he, hb⟩ := h.block
    rw [← h.data]
    exact .data hb (decodeCommit_encode he)
  refine reach_nodesOf h.keyed (fun m ys hr => ?_) (List.Sublist.refl xs) h.fits hroot hp
  obtain ⟨q, hq, he⟩ := h.of_reach hr
  have hbytes : blockAt m ys = blockAt q.1 q.2 := LawfulCodec.cidFor_injective he
  rw [he, hbytes, h.stored q hq]

theorem reach_iff (h : Standing st root commit ℓ xs) {kind : BlockKind} :
    Reach st root kind c ↔ kind.Of root ℓ xs c := by
  refine ⟨h.of_reach, fun hc => ?_⟩
  cases kind with
  | commit =>
    obtain rfl : c = root := hc
    exact .commit
  | node =>
    obtain ⟨p, hp, rfl⟩ := hc
    exact h.reach_node hp
  | record =>
    obtain ⟨x, hx, rfl⟩ := hc
    obtain ⟨p, hp, ys, hg⟩ := exists_node_of_mem h.fits hx
    obtain ⟨-, hsub, -, -⟩ := of_mem_nodesOf h.fits hp
    obtain ⟨entry, he, hv, -⟩ := exists_mem_storedFrom [] hg
    have hr := Reach.record (h.reach_node hp) (h.stored p hp)
      (decodeNode_encode (encode_nodeAt (h.keyed.sublist hsub))) he
    rwa [hv] at hr

theorem reached_iff (h : Standing st root commit ℓ xs) :
    Reached st root c ↔ c = root ∨ c ∈ preorder ℓ xs := by
  rw [mem_preorder h.fits]
  constructor
  · rintro ⟨kind, hr⟩
    cases kind with
    | commit => exact Or.inl (h.of_reach hr)
    | node => exact Or.inr (Or.inl (h.of_reach hr))
    | record => exact Or.inr (Or.inr (h.of_reach hr))
  · rintro (hc | hc | hc)
    · exact ⟨.commit, h.reach_iff.mpr hc⟩
    · exact ⟨.node, h.reach_iff.mpr hc⟩
    · exact ⟨.record, h.reach_iff.mpr hc⟩

end Standing

theorem Commit.IsAt.block (h : commit.IsAt c) (hs : ∀ c b, st c = some b → c = cidFor b)
    (hc : (st c).isSome) : ∃ b, encode commit.toIpld = .ok b ∧ st c = some b := by
  obtain ⟨b, he, rfl⟩ := h
  exact ⟨b, he, eq_some_of_isSome hs hc⟩

theorem Exact.standing (h : Exact st repo.cid ℓ xs) (hr : repo.At st' ℓ xs) :
    Standing st repo.cid repo.commit ℓ xs :=
  ⟨hr.data.keyed, hr.data.fits, hr.data.le, hr.root,
    hr.commit.block h.sound ((h.mem repo.cid).mpr (Or.inl rfl)), h.stored hr.data.fits⟩

/-- Following links from the commit finds the whole tree in a store that holds what they reach. -/
theorem Repository.exists_exact (h : Repository st repo) :
    ∃ ℓ xs, repo.At st ℓ xs ∧ Exact st repo.cid ℓ xs := by
  obtain ⟨ℓ, xs, hr⟩ := h.stands
  have there : ∀ m ys, Reach st repo.cid .node (cidAt m ys) →
      st (cidAt m ys) = some (blockAt m ys) := fun m ys hreach =>
    eq_some_of_isSome h.sound ((h.exact _).mpr ⟨_, hreach⟩)
  have hcommit := hr.commit.block h.sound ((h.exact repo.cid).mpr ⟨_, .commit⟩)
  have hroot : Reach st repo.cid .node (cidAt ℓ xs) := by
    obtain ⟨b, he, hb⟩ := hcommit
    rw [← hr.root]
    exact .data hb (decodeCommit_encode he)
  have hstand : Standing st repo.cid repo.commit ℓ xs := by
    refine ⟨hr.data.keyed, hr.data.fits, hr.data.le, hr.root, hcommit, fun p hp => there _ _ ?_⟩
    exact reach_nodesOf hr.data.keyed there (List.Sublist.refl xs) hr.data.fits hroot hp
  exact ⟨ℓ, xs, hr, h.sound, fun c => (h.exact c).trans hstand.reached_iff⟩

theorem Exact.repository (h : Exact st repo.cid ℓ xs) (hr : repo.At st ℓ xs) : Repository st repo :=
  ⟨⟨ℓ, xs, hr⟩, h.sound, fun c => (h.mem c).trans (h.standing hr).reached_iff.symm⟩

end Manapds
