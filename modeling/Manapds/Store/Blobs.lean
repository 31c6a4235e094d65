import Manapds.Store.Landing

/-!
# Blobs and the records that name them

A blob's row is claimed while some record names it and goes when none does. Inside a transaction
the blobs its batch names are spared until every record has had its turn, and what it says was
orphaned is what it took out. The files are followed beside the rows: a transaction that does not
land takes back exactly the ones it linked.
-/

namespace Manapds

open Table Transaction

variable {Cid : Type} {did : Did} {rev : Tid} {kept : List Cid} {before tables after : Tables Cid}
  {s s' : Landing Cid}

/-- Every blob a record names has a claimed row, and every claimed row is named, or spared. -/
structure Tables.Tied (kept : List Cid) (tables : Tables Cid) : Prop where
  keyed : Keyed BlobRow.cid tables.blob
  nodup : tables.recordBlob.Nodup
  backed : ∀ row ∈ tables.recordBlob, ∃ blob ∈ tables.blob, blob.cid = row.blobCid ∧ blob.tempKey = none
  claimed : ∀ blob ∈ tables.blob, blob.tempKey = none →
    blob.cid ∈ kept ∨ ∃ row ∈ tables.recordBlob, row.blobCid = blob.cid

/-- What a transaction has orphaned so far is what it has taken out of `before`, and nothing that
is spared. -/
structure Landing.Accounted (kept : List Cid) (before : Tables Cid) (s : Landing Cid) : Prop where
  sub : ∀ cid ∈ s.tables.blobCids, cid ∈ before.blobCids
  nodup : s.cleared.orphaned.Nodup
  gone : ∀ cid, cid ∈ s.cleared.orphaned ↔ cid ∈ before.blobCids ∧ cid ∉ s.tables.blobCids
  spared : ∀ cid ∈ s.cleared.orphaned, cid ∉ kept

/-- The files a transaction has put where blobs are served from are the ones it would take back. -/
structure Landing.Linked (files : BlobFiles Cid) (s : Landing Cid) : Prop where
  stored : ∀ cid, cid ∈ s.files.stored ↔ cid ∈ files.stored ∨ cid ∈ s.linked
  fresh : ∀ cid ∈ s.linked, cid ∉ files.stored

namespace Tables

theorem mem_blobCids {cid : Cid} : cid ∈ tables.blobCids ↔ ∃ blob ∈ tables.blob, blob.cid = cid :=
  List.mem_map

theorem tied_empty : Tied kept (Tables.empty : Tables Cid) :=
  ⟨List.nodup_nil, List.nodup_nil, (fun _ h => nomatch h), (fun _ h => nomatch h)⟩

theorem Tied.frame (h : before.Tied kept) (hb : after.blob = before.blob)
    (hr : after.recordBlob = before.recordBlob) : after.Tied kept := by
  obtain ⟨hk, hn, hbk, hc⟩ := h
  constructor
  · rwa [hb]
  · rwa [hr]
  · rwa [hb, hr]
  · rwa [hb, hr]

/-- A claimed row is one that is named. -/
theorem Tied.tempKey_eq_none_iff (h : tables.Tied []) {blob : BlobRow Cid} (hb : blob ∈ tables.blob) :
    blob.tempKey = none ↔ ∃ row ∈ tables.recordBlob, row.blobCid = blob.cid := by
  constructor
  · intro hn
    exact (h.claimed blob hb hn).resolve_left List.not_mem_nil
  · rintro ⟨row, hrow, hcid⟩
    obtain ⟨other, ho, hoc, hn⟩ := h.backed row hrow
    have he : other = blob := List.inj_on_of_nodup_map h.keyed ho hb (hoc.trans hcid)
    rwa [← he]

/-- The blobs a record lets go of are spared until they are asked for. -/
theorem Tied.untied (h : tables.Tied kept) (at_ : Str) :
    (tables.untied at_).Tied (kept ++ tables.blobsAt at_) := by
  refine ⟨h.keyed, h.nodup.filter _, fun row hrow => ?_, fun blob hb hn => ?_⟩
  · exact h.backed row (List.mem_filter.mp hrow).1
  · rcases h.claimed blob hb hn with hk | ⟨row, hrow, hcid⟩
    · exact Or.inl (List.mem_append_left _ hk)
    · by_cases hat : row.recordUri = at_
      · left
        apply List.mem_append_right
        exact List.mem_map.mpr ⟨row, List.mem_filter.mpr ⟨hrow, decide_eq_true hat⟩, hcid⟩
      · right
        exact ⟨row, List.mem_filter.mpr ⟨hrow, decide_eq_true hat⟩, hcid⟩

theorem nodup_blobsAt (h : tables.recordBlob.Nodup) (at_ : Str) : (tables.blobsAt at_).Nodup := by
  apply (h.filter _).map_on
  rintro ⟨c, u⟩ hm ⟨c', u'⟩ hm' (rfl : c = c')
  rw [List.mem_filter, decide_eq_true_iff] at hm hm'
  obtain rfl : u = u' := hm.2.trans hm'.2.symm
  rfl

theorem Tied.mem_blobCids_of_mem_blobsAt (h : tables.Tied kept) {at_ : Str} {cid : Cid}
    (hm : cid ∈ tables.blobsAt at_) : cid ∈ tables.blobCids := by
  obtain ⟨row, hrow, rfl⟩ := List.mem_map.mp hm
  obtain ⟨blob, hb, hcid, -⟩ := h.backed row (List.mem_filter.mp hrow).1
  exact mem_blobCids.mpr ⟨blob, hb, hcid⟩

variable [DecidableEq Cid]

theorem held_iff {cid : Cid} : tables.held cid = true ↔ ∃ row ∈ tables.recordBlob, row.blobCid = cid := by
  simp [held]

theorem mem_released {cids : List Cid} {cid : Cid} : cid ∈ tables.released kept cids ↔
    cid ∈ cids ∧ cid ∉ kept ∧ ¬∃ row ∈ tables.recordBlob, row.blobCid = cid := by
  rw [released, List.mem_filter, decide_eq_true_iff, ← held_iff, Bool.not_eq_true]

/-- Taking out blobs nothing names, or is to be spared, leaves the rest tied. -/
theorem Tied.released {spared : List Cid} (h : tables.Tied kept) {cids : List Cid}
    (hs : ∀ blob ∈ tables.blob, blob.cid ∈ kept → blob.cid ∈ spared ∨ blob.cid ∈ cids) :
    Tied spared { tables with
      blob := tables.blob.filter fun row => row.cid ∉ tables.released spared cids } := by
  refine ⟨h.keyed.filter _ _, h.nodup, fun row hrow => ?_, fun blob hm hn => ?_⟩
  · obtain ⟨blob, hb, hcid, hn⟩ := h.backed row hrow
    refine ⟨blob, List.mem_filter.mpr ⟨hb, ?_⟩, hcid, hn⟩
    rw [decide_eq_true_iff, mem_released]
    rintro ⟨-, -, hnot⟩
    exact hnot ⟨row, hrow, hcid.symm⟩
  · rw [List.mem_filter, decide_eq_true_iff, mem_released] at hm
    rcases h.claimed blob hm.1 hn with hk | hheld
    · rcases hs blob hm.1 hk with hsp | hc
      · exact Or.inl hsp
      · by_contra hcon
        exact hm.2 ⟨hc, fun hsp => hcon (Or.inl hsp), fun hheld => hcon (Or.inr hheld)⟩
    · exact Or.inr hheld

end Tables

/-- A blob is tied to a record that names it, and is claimed from then on. -/
theorem Landing.tied_tie [DecidableEq Cid] (h : s.tables.Tied kept) {cid : Cid}
    (hm : cid ∈ s.tables.blobCids) (at_ : Str) : (s.tie at_ cid).tables.Tied kept := by
  have hkeys : ∀ blob : BlobRow Cid,
      (if blob.cid = cid then { blob with tempKey := none } else blob).cid = blob.cid := by
    intro blob
    split_ifs <;> rfl
  have hnone : ∀ blob : BlobRow Cid, blob.tempKey = none ∨ blob.cid = cid →
      (if blob.cid = cid then { blob with tempKey := none } else blob).tempKey = none := by
    intro blob hb
    split_ifs with hc
    · rfl
    · exact hb.resolve_right hc
  refine ⟨?_, ?_, fun row hrow => ?_, fun blob hb hn => ?_⟩
  · have hmap : (s.tie at_ cid).tables.blob.map BlobRow.cid = s.tables.blob.map BlobRow.cid := by
      unfold tie
      rw [List.map_map]
      exact List.map_congr_left fun blob _ => hkeys blob
    unfold Keyed
    rw [hmap]
    exact h.keyed
  · have hk : Keyed id s.tables.recordBlob := by simpa [Keyed] using h.nodup
    have hi : Keyed id (insertOrIgnore id ⟨cid, at_⟩ s.tables.recordBlob) := hk.insertOrIgnore
    simpa [Keyed, tie] using hi
  · rcases mem_insertOrIgnore_id.mp hrow with hrow | rfl
    · obtain ⟨blob, hb, hcid, hn⟩ := h.backed row hrow
      exact ⟨_, List.mem_map_of_mem hb, (hkeys blob).trans hcid, hnone blob (Or.inl hn)⟩
    · obtain ⟨blob, hb, hcid⟩ := Tables.mem_blobCids.mp hm
      exact ⟨_, List.mem_map_of_mem hb, (hkeys blob).trans hcid, hnone blob (Or.inr hcid)⟩
  · obtain ⟨blob, hm, rfl⟩ := List.mem_map.mp hb
    rw [hkeys blob]
    by_cases hc : blob.cid = cid
    · exact Or.inr ⟨⟨cid, at_⟩, mem_insertOrIgnore_id.mpr (Or.inr rfl), hc.symm⟩
    · rw [if_neg hc] at hn
      rcases h.claimed blob hm hn with hk | ⟨row, hrow, hcid⟩
      · exact Or.inl hk
      · exact Or.inr ⟨row, mem_insertOrIgnore_id.mpr (Or.inl hrow), hcid⟩

namespace Landing

theorem blobCids_tie [DecidableEq Cid] (at_ : Str) (cid : Cid) :
    (s.tie at_ cid).tables.blobCids = s.tables.blobCids := by
  unfold Tables.blobCids tie
  rw [List.map_map]
  apply List.map_congr_left
  intro blob _
  dsimp only [Function.comp_apply]
  split_ifs <;> rfl

theorem Accounted.frame (h : s.Accounted kept before) (hb : s'.tables.blobCids = s.tables.blobCids)
    (ho : s'.cleared.orphaned = s.cleared.orphaned) : s'.Accounted kept before := by
  obtain ⟨hs, hn, hg, hsp⟩ := h
  constructor
  · rwa [hb]
  · rwa [ho]
  · rwa [hb, ho]
  · rwa [ho]

/-- Taking out rows that are there, and saying so. -/
theorem Accounted.takeOut [DecidableEq Cid] {spared : List Cid} (h : s.Accounted kept before)
    (gone : List Cid) (hn : gone.Nodup) (hin : ∀ cid ∈ gone, cid ∈ s.tables.blobCids)
    (hsp : ∀ cid ∈ gone, cid ∉ spared) (hk : ∀ cid ∈ spared, cid ∈ kept)
    (hb : s'.tables.blob = s.tables.blob.filter fun row => row.cid ∉ gone)
    (ho : s'.cleared.orphaned = s.cleared.orphaned ++ gone) : s'.Accounted spared before := by
  have hmem : ∀ cid, cid ∈ s'.tables.blobCids ↔ cid ∈ s.tables.blobCids ∧ cid ∉ gone := by
    intro cid
    rw [Tables.mem_blobCids, Tables.mem_blobCids, hb]
    constructor
    · rintro ⟨blob, hm, rfl⟩
      rw [List.mem_filter, decide_eq_true_iff] at hm
      exact ⟨⟨blob, hm.1, rfl⟩, hm.2⟩
    · rintro ⟨⟨blob, hm, rfl⟩, hg⟩
      exact ⟨blob, List.mem_filter.mpr ⟨hm, decide_eq_true hg⟩, rfl⟩
  refine ⟨fun cid hc => h.sub cid ((hmem cid).mp hc).1, ?_, fun cid => ?_, fun cid hc => ?_⟩
  · rw [ho, List.nodup_append]
    refine ⟨h.nodup, hn, ?_⟩
    rintro cid hc _ hg rfl
    exact ((h.gone cid).mp hc).2 (hin cid hg)
  · rw [ho, List.mem_append, hmem, h.gone]
    constructor
    · rintro (⟨hc, hnot⟩ | hg)
      · exact ⟨hc, fun hh => hnot hh.1⟩
      · exact ⟨h.sub cid (hin cid hg), fun hh => hh.2 hg⟩
    · rintro ⟨hc, hnot⟩
      by_cases hg : cid ∈ gone
      · exact Or.inr hg
      · exact Or.inl ⟨hc, fun hin => hnot ⟨hin, hg⟩⟩
  · rw [ho, List.mem_append] at hc
    rcases hc with hc | hg
    · exact fun hs => h.spared cid hc (hk cid hs)
    · exact hsp cid hg

/-! ## The transaction -/

/-- What holds between one step of a transaction and the next. -/
structure Under (kept : List Cid) (before : Tables Cid) (s : Landing Cid) : Prop where
  tied : s.tables.Tied kept
  accounted : s.Accounted kept before

theorem Under.frame (h : s.Under kept before) (hb : s'.tables.blob = s.tables.blob)
    (hr : s'.tables.recordBlob = s.tables.recordBlob)
    (ho : s'.cleared.orphaned = s.cleared.orphaned) : s'.Under kept before := by
  refine ⟨h.tied.frame hb hr, h.accounted.frame ?_ ho⟩
  unfold Tables.blobCids
  rw [hb]

variable [DecidableEq Cid]

theorem Under.dereference (h : s.Under kept before) (at_ : Str) :
    (s.dereference at_ kept).Under kept before := by
  have hgone : ∀ cid ∈ s.tables.letGo at_ kept, cid ∈ s.tables.blobsAt at_ ∧ cid ∉ kept := by
    intro cid hc
    have hc := Tables.mem_released.mp hc
    exact ⟨hc.1, hc.2.1⟩
  rw [dereference_eq]
  constructor
  · apply (h.tied.untied at_).released
    intro blob _ hm
    exact List.mem_append.mp hm
  · apply h.accounted.takeOut (s.tables.letGo at_ kept)
    · exact (Tables.nodup_blobsAt h.tied.nodup at_).filter _
    · exact fun cid hc => h.tied.mem_blobCids_of_mem_blobsAt (hgone cid hc).1
    · exact fun cid hc => (hgone cid hc).2
    · exact fun cid hc => hc
    · rfl
    · rfl

theorem under_claim (at_ : Str) (blob : Blob Cid) : Keeps (Under kept before) (claim at_ blob) := by
  intro s u s' hs he
  obtain ⟨hm, ht, ho⟩ := claim_ok he
  constructor
  · rw [ht]
    exact tied_tie hs.tied (Tables.mem_blobCids.mpr hm) at_
  · apply hs.accounted.frame _ ho
    rw [ht]
    exact blobCids_tie at_ blob.cid

theorem under_indexOne (record : Indexed Cid) :
    Keeps (Under kept before) (indexOne did rev kept record) := by
  rw [indexOne_eq]
  apply Keeps.bind
  · apply Keeps.modify
    intro s hs
    rw [relink_eq]
    exact hs.frame rfl rfl rfl
  intro _
  apply Keeps.bind
  · apply Keeps.modify
    exact fun s hs => hs.dereference (record.uri did)
  intro _
  apply Keeps.bind
  · apply Keeps.forM
    exact fun blob _ => under_claim (record.uri did) blob
  intro _
  apply Keeps.modify
  exact fun s hs => hs.frame rfl rfl rfl

/-- A record that has had its turn named blobs that were there. -/
theorem mem_before_of_indexOne {record : Indexed Cid} {u : Unit} (hs : s.Under kept before)
    (h : indexOne did rev kept record s = .ok u s') {cid : Cid}
    (hc : cid ∈ record.blobs.map Blob.cid) : cid ∈ before.blobCids := by
  rw [indexOne_eq] at h
  obtain ⟨u1, s1, h1, h⟩ := bind_eq_ok h
  obtain ⟨u2, s2, h2, h⟩ := bind_eq_ok h
  obtain ⟨u3, s3, h3, -⟩ := bind_eq_ok h
  obtain ⟨blob, hb, rfl⟩ := List.mem_map.mp hc
  have hs1 : s1.Under kept before := by
    rw [modify_eq_ok h1, relink_eq]
    exact hs.frame rfl rfl rfl
  have hs2 : s2.Under kept before := by
    rw [modify_eq_ok h2]
    exact hs1.dereference (record.uri did)
  obtain ⟨t, t', ht, he⟩ :=
    exists_step_of_mem (fun blob _ => under_claim (record.uri did) blob) hs2 h3 hb
  obtain ⟨hm, -, -⟩ := claim_ok he
  exact ht.accounted.sub _ (Tables.mem_blobCids.mpr hm)

/-- Once every record has had its turn nothing is spared any more. -/
theorem Under.sweepKept (h : s.Under kept before) (hn : kept.Nodup)
    (hk : ∀ cid ∈ kept, cid ∈ before.blobCids) : (s.sweepKept kept).Under [] before := by
  have hgone : ∀ cid ∈ s.tables.released [] kept, cid ∈ kept := fun cid hc =>
    (Tables.mem_released.mp hc).1
  rw [sweepKept_eq]
  constructor
  · exact h.tied.released fun blob _ hm => Or.inr hm
  · apply h.accounted.takeOut (s.tables.released [] kept)
    · exact hn.filter _
    · intro cid hc
      by_contra hnot
      have ho := (h.accounted.gone cid).mpr ⟨hk cid (hgone cid hc), hnot⟩
      exact h.accounted.spared cid ho (hgone cid hc)
    · exact fun cid _ => List.not_mem_nil
    · exact fun cid hc => absurd hc List.not_mem_nil
    · rfl
    · rfl

theorem under_store {root : Root Cid} {written : BlockMap Cid} {dropped : List Cid}
    {records : List (Indexed Cid)} {u : Unit} (hs : s.Under (Landing.kept records) before)
    (h : store did root written dropped records s = .ok u s') : s'.Under [] before := by
  obtain ⟨u1, s1, h1, h⟩ := bind_eq_ok h
  obtain ⟨u2, s2, h2, h⟩ := bind_eq_ok h
  obtain ⟨u3, s3, h3, h4⟩ := bind_eq_ok h
  have hs1 : s1.Under (Landing.kept records) before := by
    rw [modify_eq_ok h1, insertBlocks_eq]
    exact hs.frame rfl rfl rfl
  have hkeeps : ∀ record ∈ records,
      Keeps (Under (Landing.kept records) before) (indexOne did root.rev (Landing.kept records) record) :=
    fun record _ => under_indexOne record
  have hs2 : s2.Under (Landing.kept records) before := Keeps.forM hkeeps s1 u2 s2 hs1 h2
  have hs3 : s3.Under (Landing.kept records) before := by
    rw [modify_eq_ok h3, forgetBlocks_eq]
    exact hs2.frame rfl rfl rfl
  rw [modify_eq_ok h4]
  apply hs3.sweepKept (List.nodup_dedup _)
  intro cid hc
  obtain ⟨record, hm, hb⟩ := mem_kept.mp hc
  obtain ⟨t, t', ht, he⟩ := exists_step_of_mem hkeeps hs1 h2 hm
  exact mem_before_of_indexOne ht he hb

end Landing

/-- A commit that lands leaves every blob tied, and orphans the ones it takes out. -/
theorem ActorState.under_stored [DecidableEq Cid] {actor : ActorState Cid} {revision : Revision Cid}
    (h : actor.tables.Tied []) {u : Unit} (hs : actor.stored did revision = .ok u s) :
    s.Under [] actor.tables := by
  apply Landing.under_store _ hs
  refine ⟨⟨h.keyed, h.nodup, h.backed, fun blob hb hn => ?_⟩, fun _ hc => hc, List.nodup_nil, ?_,
    fun _ hc => absurd hc List.not_mem_nil⟩
  · exact Or.inr ((h.claimed blob hb hn).resolve_left List.not_mem_nil)
  · intro cid
    simp [begun]

/-! ## Uploads -/

namespace Tables

variable [DecidableEq Cid]

/-- An upload of a blob no row is under is a row of its own; one of a blob nothing claimed only
moves its window. -/
theorem Tied.addBlob (h : tables.Tied []) (blob : Blob Cid) (key : Str) (now : Timestamp) :
    (tables.addBlob blob key now).Tied [] := by
  let renew : BlobRow Cid → BlobRow Cid := fun row =>
    if row.tempKey.isSome then { row with tempKey := some key, createdAt := stamp now } else row
  have hcid : ∀ row, (renew row).cid = row.cid := by
    intro row
    unfold renew
    split_ifs <;> rfl
  have hnone : ∀ row, (renew row).tempKey = none ↔ row.tempKey = none := by
    intro row
    unfold renew
    split_ifs with hs
    · simp [Option.isSome_iff_ne_none.mp hs]
    · rfl
  have hmem : ∀ row, row ∈ (tables.addBlob blob key now).blob →
      (∃ held ∈ tables.blob, row.cid = held.cid ∧ (row.tempKey = none ↔ held.tempKey = none)) ∨
      row.tempKey ≠ none := by
    intro row hm
    unfold Tables.addBlob upsert at hm
    split_ifs at hm
    · obtain ⟨held, hh, rfl⟩ := List.mem_map.mp hm
      left
      refine ⟨held, hh, ?_⟩
      split_ifs
      · exact ⟨hcid held, hnone held⟩
      · exact ⟨rfl, Iff.rfl⟩
    · rcases List.mem_append.mp hm with hm | hm
      · exact Or.inl ⟨row, hm, rfl, Iff.rfl⟩
      · right
        rw [List.mem_singleton.mp hm]
        exact Option.some_ne_none key
  refine ⟨h.keyed.upsert hcid, h.nodup, fun row hrow => ?_, fun row hm hn => ?_⟩
  · obtain ⟨held, hh, hc, hn⟩ := h.backed row hrow
    unfold Tables.addBlob upsert
    split_ifs
    · refine ⟨_, List.mem_map_of_mem hh, ?_⟩
      split_ifs
      · exact ⟨(hcid held).trans hc, (hnone held).mpr hn⟩
      · exact ⟨hc, hn⟩
    · exact ⟨held, List.mem_append_left _ hh, hc, hn⟩
  · obtain ⟨held, hh, hc, hiff⟩ := (hmem row hm).resolve_right fun hs => hs hn
    rw [hc]
    exact h.claimed held hh (hiff.mp hn)

/-- A sweep takes out rows nothing has claimed. -/
theorem Tied.takeStale (h : tables.Tied []) (found : Cid × Str) : (tables.takeStale found).Tied [] := by
  refine ⟨h.keyed.filter _ _, h.nodup, fun row hrow => ?_, fun blob hb hn => ?_⟩
  · obtain ⟨blob, hb, hc, hn⟩ := h.backed row hrow
    refine ⟨blob, List.mem_filter.mpr ⟨hb, ?_⟩, hc, hn⟩
    rw [decide_eq_true_iff]
    rintro ⟨-, hs⟩
    rw [hn] at hs
    cases hs
  · exact h.claimed blob (List.mem_filter.mp hb).1 hn

end Tables

/-! ## Files -/

namespace BlobFiles

variable [DecidableEq Cid]

theorem mem_stored_delete {files : BlobFiles Cid} {cid held : Cid} :
    held ∈ (files.delete cid).stored ↔ held ∈ files.stored ∧ held ≠ cid := by
  simp [delete]

theorem mem_stored_foldl_delete {cids : List Cid} {files : BlobFiles Cid} {held : Cid} :
    held ∈ (cids.foldl delete files).stored ↔ held ∈ files.stored ∧ held ∉ cids := by
  induction cids generalizing files with
  | nil => simp
  | cons cid cids ih =>
    rw [List.foldl_cons, ih, mem_stored_delete, List.mem_cons]
    tauto

/-- What was put where blobs are served from, if anything was. -/
theorem claim_ok {files files' : BlobFiles Cid} {key : Str} {cid : Cid} {linked : Bool}
    (h : files.claim key cid = .ok (linked, files')) :
    linked = false ∧ files' = files ∧ cid ∈ files.stored ∨
      linked = true ∧ files' = { files with stored := cid :: files.stored } ∧ cid ∉ files.stored := by
  unfold claim at h
  split_ifs at h with hu hs
  · cases h
    exact Or.inl ⟨rfl, rfl, hs⟩
  · cases h
    exact Or.inr ⟨rfl, rfl, hs⟩

end BlobFiles

namespace Landing

variable [DecidableEq Cid] {files : BlobFiles Cid}

theorem Linked.takeUpload (h : s.Linked files) {key : Str} {cid : Cid}
    (he : s.takeUpload key cid = .ok s') : s'.Linked files := by
  unfold Landing.takeUpload at he
  cases hf : s.files.claim key cid with
  | error e =>
    rw [hf] at he
    cases he
  | ok r =>
    obtain ⟨linked, files'⟩ := r
    rw [hf] at he
    cases he
    rcases BlobFiles.claim_ok hf with ⟨rfl, rfl, -⟩ | ⟨rfl, rfl, hs⟩
    · exact ⟨h.stored, h.fresh⟩
    · have hnot : cid ∉ files.stored ∧ cid ∉ s.linked := by
        rw [h.stored] at hs
        exact not_or.mp hs
      refine ⟨fun held => ?_, fun held hm => ?_⟩
      · simp only [if_true, List.mem_cons, List.mem_append, List.not_mem_nil, or_false, h.stored]
        tauto
      · rcases List.mem_append.mp hm with hm | hm
        · exact h.fresh held hm
        · rw [List.mem_singleton.mp hm]
          exact hnot.1

theorem linked_claim (at_ : Str) (blob : Blob Cid) : Settles (Linked files) (claim at_ blob) := by
  intro s hs
  unfold claim
  split
  · exact hs
  · split
    · exact ⟨hs.stored, hs.fresh⟩
    · split
      · exact hs
      · split
        · exact hs
        · next t ht =>
          have hl := hs.takeUpload ht
          exact ⟨hl.stored, hl.fresh⟩

theorem linked_store {root : Root Cid} {written : BlockMap Cid} {dropped : List Cid}
    {records : List (Indexed Cid)} : Settles (Linked files) (store did root written dropped records) := by
  apply Settles.bind
  · exact Settles.modify fun s hs => ⟨hs.stored, hs.fresh⟩
  intro _
  apply Settles.bind
  · apply Settles.forM
    intro record _
    rw [indexOne_eq]
    apply Settles.bind
    · exact Settles.modify fun s hs => ⟨hs.stored, hs.fresh⟩
    intro _
    apply Settles.bind
    · exact Settles.modify fun s hs => ⟨hs.stored, hs.fresh⟩
    intro _
    apply Settles.bind
    · exact Settles.forM fun blob _ => linked_claim (record.uri did) blob
    intro _
    exact Settles.modify fun s hs => ⟨hs.stored, hs.fresh⟩
  intro _
  apply Settles.bind
  · exact Settles.modify fun s hs => ⟨hs.stored, hs.fresh⟩
  intro _
  exact Settles.modify fun s hs => ⟨hs.stored, hs.fresh⟩

end Landing

namespace ActorState

variable [DecidableEq Cid] {actor actor' : ActorState Cid} {revision : Revision Cid}

theorem linked_stored : (final (actor.stored did revision)).Linked actor.files := by
  apply Landing.linked_store
  exact ⟨fun cid => by simp [begun], fun cid hc => absurd hc List.not_mem_nil⟩

/-- A commit that does not land leaves the rows and the files as they were. -/
theorem commit_lost_unchanged {answer : Except (StoreError Cid) (Option (Committed Cid))}
    (h : actor.commit did revision = (answer, actor'))
    (hn : ∀ committed, answer ≠ .ok (some committed)) :
    actor'.tables = actor.tables ∧ ∀ cid, cid ∈ actor'.files.stored ↔ cid ∈ actor.files.stored := by
  rw [commit_lost h hn]
  refine ⟨rfl, fun cid => ?_⟩
  have hl : (final (actor.stored did revision)).Linked actor.files := linked_stored
  unfold abandon
  rw [BlobFiles.mem_stored_foldl_delete, hl.stored]
  constructor
  · rintro ⟨hc | hc, hnot⟩
    · exact hc
    · exact absurd hc hnot
  · intro hc
    exact ⟨Or.inl hc, fun hlk => hl.fresh cid hlk hc⟩

/-- However a commit went, it left the tables as they were or as a transaction that came to its
end left them. -/
theorem commit_cases (actor : ActorState Cid) (did : Did) (revision : Revision Cid) :
    (actor.commit did revision).2.tables = actor.tables ∨
      ∃ s, actor.stored did revision = .ok () s ∧
        (actor.commit did revision).2.tables = { s.tables with repoRoot := some revision.root } := by
  cases hc : actor.commit did revision with
  | mk answer actor' =>
    by_cases hl : ∃ committed, answer = .ok (some committed)
    · obtain ⟨committed, rfl⟩ := hl
      obtain ⟨s, hs, -, ht, -, -⟩ := commit_landed hc
      exact Or.inr ⟨s, hs, ht⟩
    · left
      exact (commit_lost_unchanged hc fun committed he => hl ⟨committed, he⟩).1

end ActorState

end Manapds
