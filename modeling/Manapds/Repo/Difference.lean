import Manapds.Repo.Publish
import Manapds.Repo.Session

/-!
# The difference of two trees

`Mst.dropped` walks two trees side by side and steps past what they share. For trees that came of
any run of operations, in memory or read from a store or in between, what it comes back with is the
naive difference: the nodes only the tree before has, and the records no key of the tree now names.
-/

namespace Manapds

open KeyedList Shape QueryProgram Routine SetDiff

variable {Cid : Type} [Codec Cid] [DecidableEq Cid]

section

variable {σ : Type} (s : σ)

/-- Rounds to spare change nothing. -/
theorem exec_droppedFrom_mono {env : ∀ q : StoreQuery Cid, q.Answer} {rounds more : ℕ}
    {left right : Walker Cid} {d : Diff Cid} {gone : List Cid} {s' : σ} (hle : rounds ≤ more)
    (h : exec env (Mst.droppedFrom rounds left right d) s = (.ok gone, s')) :
    exec env (Mst.droppedFrom more left right d) s = (.ok gone, s') := by
  induction rounds generalizing more left right d s with
  | zero => cases h
  | succ rounds ih =>
    obtain ⟨more, rfl⟩ : ∃ n, more = n + 1 := ⟨more - 1, by omega⟩
    rw [Mst.droppedFrom] at h ⊢
    cases hl : left.at? with
    | none =>
      cases hr : right.at? with
      | none =>
        rw [hl, hr] at h
        exact h
      | some there =>
        rw [hl, hr] at h
        obtain ⟨⟨right', d'⟩, s1, h1, h2⟩ := exec_bind_eq_ok _ _ h
        exact (exec_bind_ok _ _ h1 _).trans (ih _ (by omega) h2)
    | some here =>
      cases hr : right.at? with
      | none =>
        rw [hl, hr] at h
        obtain ⟨⟨left', d'⟩, s1, h1, h2⟩ := exec_bind_eq_ok _ _ h
        exact (exec_bind_ok _ _ h1 _).trans (ih _ (by omega) h2)
      | some there =>
        rw [hl, hr] at h
        obtain ⟨⟨left', right', d'⟩, s1, h1, h2⟩ := exec_bind_eq_ok _ _ h
        exact (exec_bind_ok _ _ h1 _).trans (ih _ (by omega) h2)

theorem exec_dropped_mono {env : ∀ q : StoreQuery Cid, q.Answer} {rounds more : ℕ}
    {t prev : Mst Cid} {gone : List Cid} {s' : σ} (hle : rounds ≤ more)
    (h : exec env (t.dropped rounds prev) s = (.ok gone, s')) :
    exec env (t.dropped more prev) s = (.ok gone, s') := by
  obtain ⟨left, s1, h1, h2⟩ := exec_bind_eq_ok _ _ h
  obtain ⟨right, s2, h3, h4⟩ := exec_bind_eq_ok _ _ h2
  rw [Mst.dropped, exec_bind_ok _ _ h1, exec_bind_ok _ _ h3]
  exact exec_droppedFrom_mono _ hle h4

end

namespace Session

/-- Everything of the tree, once it is saved. -/
def saved (s : Session Cid) : Cid → Option Bytes := (s.step .reload).2.store.lookup

/-- A node of the session's tree: one that the links lead to, from its root, once it is saved. -/
def Node (s : Session Cid) (c : Cid) : Prop := ∃ root, s.root = .ok root ∧ Linked s.saved root c

/-- A record a leaf of the session's tree names. -/
def Names (s : Session Cid) (c : Cid) : Prop :=
  ∃ found, (s.step .leaves).1 = .ok (.leaves found) ∧ ∃ x ∈ found, c = x.value

/-- Whatever succeeds writes keys the tree takes. -/
theorem valid_of_step {s : Session Cid} {op : TreeOp Cid} (h : (s.step op).1.isOk = true) :
    op.Valid := by
  cases op with
  | add key value =>
    cases hr : exec (Store.answer s.store.lookup) (s.tree.add key value) () with
    | mk r u =>
      cases r with
      | ok t => exact valid_of_exec_add hr
      | error e =>
        simp only [step, attempt, run, hr] at h
        cases h
  | update key value =>
    cases hr : exec (Store.answer s.store.lookup) (s.tree.update key value) () with
    | mk r u =>
      cases r with
      | ok t => exact valid_of_exec_update hr
      | error e =>
        simp only [step, attempt, run, hr] at h
        cases h
  | delete key => trivial
  | get key => trivial
  | leaves => trivial
  | reload => trivial

theorem valid_of_succeeds {s : Session Cid} {ops : List (TreeOp Cid)} (h : s.Succeeds ops) :
    ∀ op ∈ ops, op.Valid := by
  induction ops generalizing s with
  | nil => simp
  | cons op ops ih =>
    intro o ho
    rcases List.mem_cons.mp ho with rfl | ho
    · exact valid_of_step (h _ List.mem_cons_self)
    · exact ih (fun r hr => h r (List.mem_cons_of_mem _ hr)) o ho

variable [LawfulCodec Cid] {s : Session Cid} {ℓ : ℕ} {xs : List (Leaf Cid)} {c : Cid}

theorem Holding.root_eq (h : s.Holding ℓ xs) : s.root = .ok (cidAt ℓ xs) := by
  obtain ⟨t, he, -⟩ := exec_root () h.holds
  simp only [Session.root, Session.run, he]
  rfl

theorem Holding.stored_saved (h : s.Holding ℓ xs) : Stored s.saved ℓ xs := by
  obtain ⟨blocks, t', he, -, hs, hm⟩ := exec_unstoredBlocks () h.holds h.closed
  have hstep : s.step .reload = (.ok .done, ⟨.load (cidAt ℓ xs), s.store.merge blocks⟩) := by
    simp only [Session.step, Session.attempt, Session.run, he]
    rfl
  have hsaved : s.saved = (s.store.merge blocks).lookup := by
    unfold Session.saved
    rw [hstep]
  rw [hsaved]
  exact (h.closed.grow h.holds.keyed h.holds.fits hs hm (BlockMap.lookup_merge s.store blocks)).1

theorem Holding.node_iff (h : s.Holding ℓ xs) :
    s.Node c ↔ ∃ p ∈ nodesOf ℓ xs, c = cidAt p.1 p.2 := by
  rw [← linked_iff h.holds.keyed h.holds.fits h.stored_saved, Node, h.root_eq]
  constructor
  · rintro ⟨root, hroot, hl⟩
    cases hroot
    exact hl
  · exact fun hl => ⟨_, rfl, hl⟩

theorem Holding.names_iff (h : s.Holding ℓ xs) : s.Names c ↔ ∃ x ∈ xs, c = x.value := by
  obtain ⟨t, he, -⟩ := exec_leaves () h.holds
  have hstep : (s.step .leaves).1 = .ok (.leaves xs) := by
    simp only [Session.step, Session.attempt, Session.run, he]
    rfl
  rw [Names, hstep]
  constructor
  · rintro ⟨found, hf, hx⟩
    cases hf
    exact hx
  · exact fun hx => ⟨xs, rfl, hx⟩

/-- What a session that came of operations names is what the map they end with is of. -/
theorem names_iff {ops : List (TreeOp Cid)} (hs : (start : Session Cid).Succeeds ops) :
    ((start : Session Cid).steps ops).2.Names c ↔ ∃ key, mapAfter ops key = some c := by
  obtain ⟨ℓ, xs, h, hmap, -⟩ := holding_start.steps (valid_of_succeeds hs)
  have hkeyed := h.holds.keyed.ordered
  have hmap : contentsOf xs = mapAfter ops := hmap.eq_foldl hs
  rw [h.names_iff, ← hmap]
  constructor
  · rintro ⟨x, hx, rfl⟩
    refine ⟨x.key, ?_⟩
    rw [contentsOf, hkeyed.find_eq_some.mpr ⟨hx, rfl⟩, Option.map_some]
  · rintro ⟨key, hkey⟩
    obtain ⟨x, hx, rfl⟩ := Option.map_eq_some_iff.mp hkey
    exact ⟨x, (find_mem hx).1, rfl⟩

/-- No node is where the block of a record is. -/
theorem Node.not_isRecord {ops : List (TreeOp Cid)} (hs : (start : Session Cid).Succeeds ops)
    (hc : ((start : Session Cid).steps ops).2.Node c) : ¬IsRecord c := by
  intro hr
  obtain ⟨ℓ, xs, h, -, -⟩ := holding_start.steps (valid_of_succeeds hs)
  obtain ⟨p, hp, rfl⟩ := h.node_iff.mp hc
  exact hr.ne_cidAt (h.holds.keyed.sublist (of_mem_nodesOf h.holds.fits hp).2.1) rfl

end Session

variable [LawfulCodec Cid]

/-- Any two trees that came of operations, whatever is in memory of either, differ as `dropped`
says, given rounds enough. -/
theorem dropped_eq_difference (ops ops' : List (TreeOp Cid)) (st : Cid → Option Bytes)
    (prev new : Session Cid) (hprev : prev = ((Session.start : Session Cid).steps ops).2)
    (hnew : new = ((Session.start : Session Cid).steps ops').2)
    (hs : (Session.start : Session Cid).Succeeds ops)
    (hs' : (Session.start : Session Cid).Succeeds ops')
    (hst : ∀ c b, prev.store.lookup c = some b ∨ new.store.lookup c = some b → st c = some b)
    (hdisjoint : ∀ c, prev.Node c ∨ new.Node c → ¬(prev.Names c ∨ new.Names c)) :
    ∃ gone enough, (∀ rounds, enough ≤ rounds →
        exec (Store.answer st) (new.tree.dropped rounds prev.tree) () = (.ok gone, ())) ∧
      (∀ c, prev.Node c → ¬new.Node c → c ∈ gone) ∧
      (∀ c, new.Node c → c ∉ gone) ∧
      (∀ c, prev.Names c → ¬new.Names c → c ∈ gone) ∧
      ∀ c ∈ gone, prev.Node c ∨ prev.Names c := by
  obtain ⟨k, ys, h, -, -⟩ := Session.holding_start.steps (Session.valid_of_succeeds hs)
  obtain ⟨ℓ, xs, h', -, -⟩ := Session.holding_start.steps (Session.valid_of_succeeds hs')
  rw [← hprev] at h
  rw [← hnew] at h'
  have hp := h.holds.mono_store fun c b hb => hst c b (Or.inl hb)
  have hn := h'.holds.mono_store fun c b hb => hst c b (Or.inr hb)
  simp only [h.node_iff, h'.node_iff, h.names_iff, h'.names_iff] at hdisjoint ⊢
  rcases exec_dropped () ((preorder k ys).length + (preorder ℓ xs).length + 1) hn hp with
    ⟨-, hle⟩ | ⟨gone, hgone, hout, hin, hleft⟩
  · omega
  refine ⟨gone, _, fun rounds hr => exec_dropped_mono () hr hgone, fun c hc hc' => ?_,
    fun c hc => ?_, fun c hc hc' => ?_, fun c hc => (mem_preorder hp.fits).mp (hleft c hc)⟩
  · have hnot : c ∉ preorder ℓ xs := by
      rw [mem_preorder hn.fits]
      rintro (hm | hm)
      · exact hc' hm
      · exact hdisjoint c (Or.inl hc) (Or.inr hm)
    exact (hout c hnot).mpr ((mem_preorder hp.fits).mpr (Or.inl hc))
  · have hd := hdisjoint c (Or.inr hc)
    refine hin c ((mem_preorder hn.fits).mpr (Or.inl hc)) (fun x hx hv => ?_) fun y hy hv => ?_
    · exact hd (Or.inr ⟨x, hx, hv.symm⟩)
    · exact hd (Or.inl ⟨y, hy, hv.symm⟩)
  · have hnot : c ∉ preorder ℓ xs := by
      rw [mem_preorder hn.fits]
      rintro (hm | hm)
      · exact hdisjoint c (Or.inr hm) (Or.inl hc)
      · exact hc' hm
    exact (hout c hnot).mpr ((mem_preorder hp.fits).mpr (Or.inr hc))

section

open DagCbor

/-- Where the block of a record that says something is. -/
def textCid (words : Str) : RawCid := DagCbor.cidFor (enc (textRecord words).ipld)

theorem isRecord_textCid (words : Str) : IsRecord (textCid words) :=
  ⟨recordCollection, textRecord words, _, rfl, rfl, rfl⟩

/-- Records at two keys, one two layers over the other, left in the store they were saved to. -/
def twoRecords : List (TreeOp RawCid) :=
  [.add lowKey (textCid (text "first")), .add highKey (textCid (text "second")), .reload]

/-- One of the two and another one, with all of the tree in memory. -/
def otherRecords : List (TreeOp RawCid) :=
  [.add lowKey (textCid (text "first")), .add highKey (textCid (text "third"))]

theorem twoRecords_succeeds : (Session.start : Session RawCid).Succeeds twoRecords :=
  List.all_eq_true.mp (by decide)

theorem otherRecords_succeeds : (Session.start : Session RawCid).Succeeds otherRecords :=
  List.all_eq_true.mp (by decide)

theorem mapAfter_twoRecords (key : Str) : mapAfter twoRecords key =
    if key = highKey then some (textCid (text "second"))
    else if key = lowKey then some (textCid (text "first")) else none := by
  simp only [mapAfter, twoRecords, List.foldl_cons, List.foldl_nil, TreeOp.apply,
    Function.update_apply]

theorem mapAfter_otherRecords (key : Str) : mapAfter otherRecords key =
    if key = highKey then some (textCid (text "third"))
    else if key = lowKey then some (textCid (text "first")) else none := by
  simp only [mapAfter, otherRecords, List.foldl_cons, List.foldl_nil, TreeOp.apply,
    Function.update_apply]

/-- The record that another took the place of is in the difference, though the trees share the
other one. -/
theorem dropped_twoRecords : ∃ (prev new : Session RawCid) (gone : List RawCid) (enough : ℕ),
    prev = ((Session.start : Session RawCid).steps twoRecords).2 ∧
    new = ((Session.start : Session RawCid).steps otherRecords).2 ∧
    (∀ rounds, enough ≤ rounds → exec (Store.answer prev.store.lookup)
      (new.tree.dropped rounds prev.tree) () = (.ok gone, ())) ∧
    textCid (text "second") ∈ gone ∧ textCid (text "third") ∉ gone ∧
    ∀ c, prev.Node c → ¬new.Node c → c ∈ gone := by
  obtain ⟨prev, hprev⟩ : ∃ prev, prev = ((Session.start : Session RawCid).steps twoRecords).2 :=
    ⟨_, rfl⟩
  obtain ⟨new, hnew⟩ : ∃ new, new = ((Session.start : Session RawCid).steps otherRecords).2 :=
    ⟨_, rfl⟩
  have hnode : ∀ c, prev.Node c ∨ new.Node c → ¬IsRecord c := by
    rw [hprev, hnew]
    rintro c (hc | hc)
    · exact hc.not_isRecord twoRecords_succeeds
    · exact hc.not_isRecord otherRecords_succeeds
  have hheld : ∀ c, prev.Names c ↔ ∃ key, mapAfter twoRecords key = some c := by
    rw [hprev]
    exact fun c => Session.names_iff twoRecords_succeeds
  have hheld' : ∀ c, new.Names c ↔ ∃ key, mapAfter otherRecords key = some c := by
    rw [hnew]
    exact fun c => Session.names_iff otherRecords_succeeds
  simp only [mapAfter_twoRecords] at hheld
  simp only [mapAfter_otherRecords] at hheld'
  have hrecord : ∀ c, prev.Names c ∨ new.Names c → IsRecord c := by
    rintro c (hc | hc)
    · obtain ⟨key, hkey⟩ := (hheld c).mp hc
      split_ifs at hkey <;> cases hkey <;> exact isRecord_textCid _
    · obtain ⟨key, hkey⟩ := (hheld' c).mp hc
      split_ifs at hkey <;> cases hkey <;> exact isRecord_textCid _
  have hdiffer : textCid (text "first") ≠ textCid (text "second") ∧
      textCid (text "first") ≠ textCid (text "third") ∧
      textCid (text "second") ≠ textCid (text "third") := by decide
  obtain ⟨gone, enough, hrun, hout, -, hnames, hleft⟩ := dropped_eq_difference twoRecords
    otherRecords prev.store.lookup prev new hprev hnew twoRecords_succeeds otherRecords_succeeds
    (by
      rintro c b (hb | hb)
      · exact hb
      · rw [hnew] at hb
        cases hb)
    (fun c hc hn => hnode c hc (hrecord c hn))
  refine ⟨prev, new, gone, enough, hprev, hnew, hrun, hnames _ ?_ ?_, ?_, hout⟩
  · exact (hheld _).mpr ⟨highKey, if_pos rfl⟩
  · intro h
    obtain ⟨key, hkey⟩ := (hheld' _).mp h
    split_ifs at hkey
    · exact hdiffer.2.2 (Option.some.inj hkey).symm
    · exact hdiffer.1 (Option.some.inj hkey)
  · intro h
    rcases hleft _ h with h | h
    · exact hnode _ (Or.inl h) (isRecord_textCid _)
    · obtain ⟨key, hkey⟩ := (hheld _).mp h
      split_ifs at hkey
      · exact hdiffer.2.2 (Option.some.inj hkey)
      · exact hdiffer.2.1 (Option.some.inj hkey)

end

end Manapds
