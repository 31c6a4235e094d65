import Mathlib.Data.List.Dedup
import Manapds.Lib.Transaction
import Manapds.Store.Actor

/-!
# What a transaction leaves in each table

The record index, the links and the rows tying blobs to records each move by a fold over the
records of a batch, whatever the other tables hold. Only the blob rows depend on more than one of
them, and they are followed by an invariant of their own in `Manapds.Store.Blobs`.
-/

namespace Manapds

open Table Transaction

variable {Cid : Type} {did : Did} {rev : Tid}

namespace Indexed

def uri (did : Did) : Indexed Cid → Str
  | .put collection rkey _ _ _ => Manapds.uri did collection rkey
  | .delete collection rkey => Manapds.uri did collection rkey

def blobs : Indexed Cid → List (Blob Cid)
  | .put _ _ _ _ blobs => blobs
  | .delete _ _ => []

def links : Indexed Cid → List Backlink
  | .put _ _ _ links _ => links
  | .delete _ _ => []

/-- What is left of the records index once a record has had its turn. -/
def indexRow (did : Did) (rev : Tid) (rows : List (RecordRow Cid)) : Indexed Cid → List (RecordRow Cid)
  | .put collection rkey cid _ _ =>
    upsert RecordRow.uri ⟨Manapds.uri did collection rkey, cid, collection, rkey, rev⟩
      (fun row => { row with cid, repoRev := rev }) rows
  | .delete collection rkey => Table.delete RecordRow.uri (Manapds.uri did collection rkey) rows

/-- The row a record leaves where there was none. -/
def row (did : Did) (rev : Tid) : Indexed Cid → Option (RecordRow Cid)
  | .put collection rkey cid _ _ => some ⟨Manapds.uri did collection rkey, cid, collection, rkey, rev⟩
  | .delete _ _ => none

theorem find_put (collection : Nsid) (rkey : RecordKey) (cid : Cid) (links : List Backlink)
    (blobs : List (Blob Cid)) (rows : List (RecordRow Cid)) (at_ : Str) :
    find RecordRow.uri at_ ((put collection rkey cid links blobs).indexRow did rev rows) =
      if Manapds.uri did collection rkey = at_ then
        some (((find RecordRow.uri at_ rows).map fun row => { row with cid, repoRev := rev }).getD
          ⟨Manapds.uri did collection rkey, cid, collection, rkey, rev⟩)
      else find RecordRow.uri at_ rows := Table.find_upsert fun _ => rfl

theorem exists_find_put (did : Did) (rev : Tid) (collection : Nsid) (rkey : RecordKey) (cid : Cid)
    (links : List Backlink) (blobs : List (Blob Cid)) (rows : List (RecordRow Cid)) :
    ∃ row, find RecordRow.uri (Manapds.uri did collection rkey)
      ((put collection rkey cid links blobs).indexRow did rev rows) = some row ∧ row.cid = cid := by
  refine ⟨_, (find_put ..).trans (if_pos rfl), ?_⟩
  cases find RecordRow.uri (Manapds.uri did collection rkey) rows <;> rfl

theorem find_delete (collection : Nsid) (rkey : RecordKey) (rows : List (RecordRow Cid)) (at_ : Str) :
    find RecordRow.uri at_ ((delete collection rkey : Indexed Cid).indexRow did rev rows) =
      if at_ = Manapds.uri did collection rkey then none else find RecordRow.uri at_ rows :=
  Table.find_delete

theorem find_indexRow_ne {record : Indexed Cid} {rows : List (RecordRow Cid)} {at_ : Str}
    (h : at_ ≠ record.uri did) :
    find RecordRow.uri at_ (record.indexRow did rev rows) = find RecordRow.uri at_ rows := by
  cases record with
  | put collection rkey cid links blobs => exact (find_put ..).trans (if_neg (Ne.symm h))
  | delete collection rkey => exact (find_delete ..).trans (if_neg h)

theorem keyed_indexRow (record : Indexed Cid) {rows : List (RecordRow Cid)}
    (h : Keyed RecordRow.uri rows) : Keyed RecordRow.uri (record.indexRow did rev rows) := by
  cases record with
  | put collection rkey cid links blobs => exact h.upsert fun _ => rfl
  | delete collection rkey => exact h.delete _

/-- A row in the index was there under the same key or is the one of the record indexed. -/
theorem mem_indexRow {record : Indexed Cid} {rows : List (RecordRow Cid)} {row : RecordRow Cid}
    (h : row ∈ record.indexRow did rev rows) :
    (∃ held ∈ rows, held.uri = row.uri ∧ held.collection = row.collection ∧ held.rkey = row.rkey) ∨
      row.uri = Manapds.uri did row.collection row.rkey := by
  cases record with
  | put collection rkey cid links blobs =>
    unfold indexRow upsert at h
    dsimp only at h
    split_ifs at h
    · obtain ⟨held, hm, rfl⟩ := List.mem_map.mp h
      left
      refine ⟨held, hm, ?_⟩
      split_ifs <;> exact ⟨rfl, rfl, rfl⟩
    · rcases List.mem_append.mp h with hm | hm
      · exact Or.inl ⟨row, hm, rfl, rfl, rfl⟩
      · right
        rw [List.mem_singleton.mp hm]
  | delete collection rkey => exact Or.inl ⟨row, (List.mem_filter.mp h).1, rfl, rfl, rfl⟩

/-- A row of the index was there before, or is of the revision indexed and one of its records. -/
theorem mem_foldl_indexRow {records : List (Indexed Cid)} {rows : List (RecordRow Cid)}
    {row : RecordRow Cid} (h : row ∈ records.foldl (indexRow did rev) rows) :
    row ∈ rows ∨ row.repoRev = rev ∧
      ∃ collection rkey links blobs, put collection rkey row.cid links blobs ∈ records := by
  induction records generalizing rows with
  | nil => exact Or.inl h
  | cons record records ih =>
    rcases ih h with h | ⟨hrev, collection, rkey, links, blobs, hm⟩
    · cases record with
      | put collection rkey cid links blobs =>
        rw [indexRow, upsert] at h
        split_ifs at h
        · obtain ⟨held, hm, rfl⟩ := List.mem_map.mp h
          split_ifs
          · exact Or.inr ⟨rfl, _, _, _, _, List.mem_cons_self⟩
          · exact Or.inl hm
        · rcases List.mem_append.mp h with hm | hm
          · exact Or.inl hm
          · rw [List.mem_singleton.mp hm]
            exact Or.inr ⟨rfl, _, _, _, _, List.mem_cons_self⟩
      | delete collection rkey => exact Or.inl (List.mem_filter.mp h).1
    · exact Or.inr ⟨hrev, _, _, _, _, List.mem_cons_of_mem record hm⟩

def settle (did : Did) (rev : Tid) (record : Indexed Cid) (s : Landing Cid) : Landing Cid :=
  { s with tables := { s.tables with record := record.indexRow did rev s.tables.record } }

end Indexed

/-! ## The links of a record -/

/-- The rows of `backlink` once a record's links are rewritten. -/
def relinked (at_ : Str) (links : List Backlink) (rows : List BacklinkRow) : List BacklinkRow :=
  links.foldl (fun rows link =>
    insertOrIgnore (fun row => (row.uri, row.path)) ⟨at_, link.path, link.linkTo⟩ rows)
    (rows.filter fun row => row.uri ≠ at_)

theorem foldl_link (at_ : Str) (links : List Backlink) (tables : Tables Cid) :
    links.foldl (Tables.link at_) tables = { tables with
      backlink := links.foldl (fun rows link =>
        insertOrIgnore (fun row => (row.uri, row.path)) ⟨at_, link.path, link.linkTo⟩ rows)
        tables.backlink } := by
  induction links generalizing tables with
  | nil => rfl
  | cons link links ih =>
    rw [List.foldl_cons, ih]
    rfl

theorem Landing.relink_eq (at_ : Str) (links : List Backlink) (s : Landing Cid) :
    Landing.relink at_ links s =
      { s with tables := { s.tables with backlink := relinked at_ links s.tables.backlink } } := by
  unfold Landing.relink
  rw [foldl_link]
  rfl

theorem keyed_relinked {rows : List BacklinkRow} (h : Keyed (fun row => (row.uri, row.path)) rows)
    (at_ : Str) (links : List Backlink) :
    Keyed (fun row => (row.uri, row.path)) (relinked at_ links rows) := by
  unfold relinked
  have hf := h.filter _ fun row => decide (row.uri ≠ at_)
  revert hf
  generalize rows.filter (fun row => decide (row.uri ≠ at_)) = rows'
  intro hf
  induction links generalizing rows' with
  | nil => exact hf
  | cons link links ih => exact ih _ hf.insertOrIgnore

theorem mem_foldl_link {at_ : Str} {links : List Backlink} {rows : List BacklinkRow}
    (hn : (links.map Backlink.path).Nodup)
    (hr : ∀ link ∈ links, ∀ row ∈ rows, (row.uri, row.path) ≠ (at_, link.path)) (row : BacklinkRow) :
    row ∈ links.foldl (fun rows link =>
      insertOrIgnore (fun row => (row.uri, row.path)) ⟨at_, link.path, link.linkTo⟩ rows) rows ↔
    row ∈ rows ∨ row.uri = at_ ∧ ⟨row.path, row.linkTo⟩ ∈ links := by
  induction links generalizing rows with
  | nil => simp
  | cons link links ih =>
    rw [List.map_cons, List.nodup_cons] at hn
    have hnone : find (fun row : BacklinkRow => (row.uri, row.path)) (at_, link.path) rows = none :=
      find_eq_none.mpr (hr link List.mem_cons_self)
    have hins : insertOrIgnore (fun row : BacklinkRow => (row.uri, row.path))
        ⟨at_, link.path, link.linkTo⟩ rows = rows ++ [⟨at_, link.path, link.linkTo⟩] := by
      unfold insertOrIgnore
      rw [hnone]
      rfl
    rw [List.foldl_cons, hins, ih hn.2]
    · obtain ⟨uri, path, linkTo⟩ := row
      obtain ⟨p, t⟩ := link
      simp only [List.mem_append, BacklinkRow.mk.injEq, List.mem_cons, Backlink.mk.injEq]
      tauto
    · intro other ho row hm
      rcases List.mem_append.mp hm with hm | hm
      · exact hr other (List.mem_cons_of_mem link ho) row hm
      · obtain rfl := List.mem_singleton.mp hm
        intro he
        apply hn.1
        have hp : link.path = other.path := (Prod.ext_iff.mp he).2
        rw [hp]
        exact List.mem_map_of_mem ho

/-- A record's links are those it was rewritten with, and the others keep theirs. -/
theorem mem_relinked {at_ : Str} {links : List Backlink} (hn : (links.map Backlink.path).Nodup)
    (rows : List BacklinkRow) (row : BacklinkRow) : row ∈ relinked at_ links rows ↔
      row.uri ≠ at_ ∧ row ∈ rows ∨ row.uri = at_ ∧ ⟨row.path, row.linkTo⟩ ∈ links := by
  unfold relinked
  rw [mem_foldl_link hn]
  · rw [List.mem_filter, decide_eq_true_iff]
    tauto
  · intro link _ row hm he
    rw [List.mem_filter, decide_eq_true_iff] at hm
    exact hm.2 (Prod.ext_iff.mp he).1

variable [DecidableEq Cid]

/-! ## The blobs of a record -/

/-- What is taken out where no record holds it any more. -/
def Tables.released (tables : Tables Cid) (kept cids : List Cid) : List Cid :=
  cids.filter fun cid => cid ∉ kept ∧ tables.held cid = false

theorem Tables.orphan_eq (kept cids : List Cid) (tables : Tables Cid) :
    tables.orphan kept cids =
      ({ tables with blob := tables.blob.filter fun row => row.cid ∉ tables.released kept cids },
        tables.released kept cids) := by
  induction cids generalizing tables with
  | nil =>
    have hall : tables.blob.filter (fun row => row.cid ∉ tables.released kept []) = tables.blob := by
      simp [released]
    rw [hall]
    rfl
  | cons cid cids ih =>
    unfold orphan
    by_cases hc : cid ∈ kept ∨ tables.held cid = true
    · have hr : tables.released kept (cid :: cids) = tables.released kept cids := by
        unfold released
        apply List.filter_cons_of_neg
        simpa using fun hk => hc.resolve_left hk
      rw [if_pos hc, ih, hr]
    · have hr : tables.released kept (cid :: cids) = cid :: tables.released kept cids := by
        unfold released
        apply List.filter_cons_of_pos
        simpa using hc
      have hb : (Table.delete BlobRow.cid cid tables.blob).filter
            (fun row => row.cid ∉ tables.released kept cids) =
          tables.blob.filter fun row => row.cid ∉ tables.released kept (cid :: cids) := by
        rw [hr, Table.delete, List.filter_filter]
        apply List.filter_congr
        intro row _
        simp [Bool.and_comm]
      rw [if_neg hc, ih, ← hb, hr]
      rfl

namespace Tables

/-- The blobs a record is holding. -/
def blobsAt (tables : Tables Cid) (at_ : Str) : List Cid :=
  (tables.recordBlob.filter fun row => row.recordUri = at_).map RecordBlobRow.blobCid

def untied (tables : Tables Cid) (at_ : Str) : Tables Cid :=
  { tables with recordBlob := tables.recordBlob.filter fun row => row.recordUri ≠ at_ }

/-- The blobs that go when a record lets go of all of its own. -/
def letGo (tables : Tables Cid) (at_ : Str) (kept : List Cid) : List Cid :=
  (tables.untied at_).released kept (tables.blobsAt at_)

end Tables

theorem Landing.dereference_eq (at_ : Str) (kept : List Cid) (s : Landing Cid) :
    Landing.dereference at_ kept s = { s with
      tables := { s.tables.untied at_ with
        blob := s.tables.blob.filter fun row => row.cid ∉ s.tables.letGo at_ kept }
      cleared := { s.cleared with
        orphaned := s.cleared.orphaned ++ s.tables.letGo at_ kept } } := by
  unfold Landing.dereference Tables.dereference
  rw [Tables.orphan_eq]
  rfl

/-- The rows tying blobs to records once one record's are rewritten. -/
def retied (at_ : Str) (cids : List Cid) (rows : List (RecordBlobRow Cid)) : List (RecordBlobRow Cid) :=
  cids.foldl (fun rows cid => insertOrIgnore id ⟨cid, at_⟩ rows)
    (rows.filter fun row => row.recordUri ≠ at_)

theorem mem_retied {at_ : Str} {cids : List Cid} {rows : List (RecordBlobRow Cid)}
    (row : RecordBlobRow Cid) : row ∈ retied at_ cids rows ↔
      row.recordUri ≠ at_ ∧ row ∈ rows ∨ row.recordUri = at_ ∧ row.blobCid ∈ cids := by
  unfold retied
  have hfold : ∀ rows : List (RecordBlobRow Cid),
      row ∈ cids.foldl (fun rows cid => insertOrIgnore id ⟨cid, at_⟩ rows) rows ↔
        row ∈ rows ∨ row.recordUri = at_ ∧ row.blobCid ∈ cids := by
    induction cids with
    | nil => simp
    | cons cid cids ih =>
      intro rows
      rw [List.foldl_cons, ih, mem_insertOrIgnore_id]
      obtain ⟨c, u⟩ := row
      simp only [RecordBlobRow.mk.injEq, List.mem_cons]
      tauto
  rw [hfold, List.mem_filter, decide_eq_true_iff]
  tauto

/-- A claim that goes through finds the blob's row, and ties the blob to its record. -/
theorem Landing.claim_ok {at_ : Str} {blob : Blob Cid} {s s' : Landing Cid} {u : Unit}
    (h : Landing.claim at_ blob s = .ok u s') :
    (∃ row ∈ s.tables.blob, row.cid = blob.cid) ∧ s'.tables = (s.tie at_ blob.cid).tables ∧
      s'.cleared.orphaned = s.cleared.orphaned := by
  unfold Landing.claim at h
  split at h
  · cases h
  · next row hrow =>
    have hm := List.mem_of_find?_eq_some hrow
    have hcid : row.cid = blob.cid := by
      have hp := List.find?_some hrow
      simp only [Bool.and_eq_true, decide_eq_true_iff] at hp
      exact hp.1
    split at h
    · cases h
      exact ⟨⟨row, hm, hcid⟩, rfl, rfl⟩
    · split at h
      · cases h
      · split at h
        · cases h
        · next t ht =>
          cases h
          unfold Landing.takeUpload at ht
          cases hf : s.files.claim _ blob.cid with
          | error e =>
            rw [hf] at ht
            cases ht
          | ok r =>
            rw [hf] at ht
            cases ht
            exact ⟨⟨row, hm, hcid⟩, rfl, rfl⟩

/-! ## One record -/

/-- What the records of a batch leave in the three tables that follow them and nothing else. -/
structure Turned (did : Did) (rev : Tid) (turn : Indexed Cid) (before after : Tables Cid) :
    Prop where
  record : after.record = turn.indexRow did rev before.record
  backlink : after.backlink = relinked (turn.uri did) turn.links before.backlink
  recordBlob : after.recordBlob = retied (turn.uri did) (turn.blobs.map Blob.cid) before.recordBlob
  repoBlock : after.repoBlock = before.repoBlock
  repoRoot : after.repoRoot = before.repoRoot

namespace Turned

variable {turn : Indexed Cid} {before after : Tables Cid}

theorem find_ne (h : Turned did rev turn before after) {at_ : Str} (hat : at_ ≠ turn.uri did) :
    find RecordRow.uri at_ after.record = find RecordRow.uri at_ before.record := by
  rw [h.record]
  exact Indexed.find_indexRow_ne hat

theorem mem_recordBlob (h : Turned did rev turn before after) (row : RecordBlobRow Cid) :
    row ∈ after.recordBlob ↔ row.recordUri ≠ turn.uri did ∧ row ∈ before.recordBlob ∨
      row.recordUri = turn.uri did ∧ row.blobCid ∈ turn.blobs.map Blob.cid := by
  rw [h.recordBlob]
  exact mem_retied row

theorem mem_backlink (h : Turned did rev turn before after)
    (hn : (turn.links.map Backlink.path).Nodup) (row : BacklinkRow) :
    row ∈ after.backlink ↔ row.uri ≠ turn.uri did ∧ row ∈ before.backlink ∨
      row.uri = turn.uri did ∧ ⟨row.path, row.linkTo⟩ ∈ turn.links := by
  rw [h.backlink]
  exact mem_relinked hn before.backlink row

end Turned

namespace Landing

theorem indexOne_eq (kept : List Cid) (record : Indexed Cid) : indexOne did rev kept record = (do
    modify (relink (record.uri did) record.links)
    modify (dereference (record.uri did) kept)
    record.blobs.forM (claim (record.uri did))
    modify (record.settle did rev)) := by
  cases record <;> rfl

theorem claims_ok {at_ : Str} {blobs : List (Blob Cid)} {s s' : Landing Cid} {u : Unit}
    (h : blobs.forM (claim at_) s = .ok u s') :
    s'.tables.recordBlob =
      (blobs.map Blob.cid).foldl (fun rows cid => insertOrIgnore id ⟨cid, at_⟩ rows)
        s.tables.recordBlob ∧
    s'.tables.record = s.tables.record ∧ s'.tables.backlink = s.tables.backlink ∧
    s'.tables.repoBlock = s.tables.repoBlock ∧ s'.tables.repoRoot = s.tables.repoRoot := by
  constructor
  · rw [List.foldl_map]
    apply forM_fold (g := fun s : Landing Cid => s.tables.recordBlob) _ h
    intro blob s s' he
    obtain ⟨-, ht, -⟩ := claim_ok he
    rw [ht]
    rfl
  · have hk : Keeps (fun t : Landing Cid => t.tables.record = s.tables.record ∧
        t.tables.backlink = s.tables.backlink ∧ t.tables.repoBlock = s.tables.repoBlock ∧
        t.tables.repoRoot = s.tables.repoRoot) (blobs.forM (claim at_)) := by
      apply Keeps.forM
      intro blob _ t u t' hs he
      obtain ⟨-, ht, -⟩ := claim_ok he
      rw [ht]
      exact hs
    exact hk s u s' ⟨rfl, rfl, rfl, rfl⟩ h

theorem indexOne_ok {kept : List Cid} {record : Indexed Cid} {s s' : Landing Cid} {u : Unit}
    (h : indexOne did rev kept record s = .ok u s') : Turned did rev record s.tables s'.tables := by
  rw [indexOne_eq] at h
  obtain ⟨u1, s1, h1, h⟩ := bind_eq_ok h
  obtain ⟨u2, s2, h2, h⟩ := bind_eq_ok h
  obtain ⟨u3, s3, h3, h⟩ := bind_eq_ok h
  have hs1 := modify_eq_ok h1
  have hs2 := modify_eq_ok h2
  have hs' := modify_eq_ok h
  rw [relink_eq] at hs1
  rw [dereference_eq, hs1] at hs2
  obtain ⟨hrb, hrec, hbl, hbk, hrt⟩ := claims_ok h3
  rw [hs2] at hrb hrec hbl hbk hrt
  rw [hs']
  refine ⟨?_, hbl, hrb, hbk, hrt⟩
  change record.indexRow did rev s3.tables.record = _
  rw [hrec]
  rfl

/-! ## The batch -/

theorem insertBlocks_eq (written : BlockMap Cid) (s : Landing Cid) : insertBlocks rev written s =
    { s with tables := { s.tables with
      repoBlock := written.entries.foldl
        (fun rows row => insertOrIgnore BlockRow.cid ⟨row.1, rev, row.2⟩ rows)
        s.tables.repoBlock } } := by
  have hfold : ∀ (entries : List (Sigma fun _ : Cid => Bytes)) (tables : Tables Cid),
      entries.foldl (fun tables row => tables.insertBlock rev row.1 row.2) tables =
        { tables with
          repoBlock := entries.foldl
            (fun rows row => insertOrIgnore BlockRow.cid ⟨row.1, rev, row.2⟩ rows)
            tables.repoBlock } := by
    intro entries
    induction entries with
    | nil => exact fun _ => rfl
    | cons row entries ih =>
      intro tables
      rw [List.foldl_cons, ih]
      rfl
  unfold insertBlocks
  rw [hfold]

/-- A block goes where it was dropped and no key points at it. -/
theorem forgetBlocks_eq (dropped : List Cid) (s : Landing Cid) : forgetBlocks dropped s =
    { s with tables := { s.tables with
      repoBlock := s.tables.repoBlock.filter fun block =>
        ¬(block.cid ∈ dropped ∧ ∀ row ∈ s.tables.record, row.cid ≠ block.cid) } } := by
  have hfold : ∀ tables : Tables Cid, dropped.foldl Tables.forget tables = { tables with
      repoBlock := tables.repoBlock.filter fun block =>
        ¬(block.cid ∈ dropped ∧ ∀ row ∈ tables.record, row.cid ≠ block.cid) } := by
    induction dropped with
    | nil => simp
    | cons cid dropped ih =>
      intro tables
      rw [List.foldl_cons, ih, Tables.forget]
      split_ifs with hany
      · obtain ⟨row, hrow, hcid⟩ := List.any_eq_true.mp hany
        rw [decide_eq_true_iff] at hcid
        congr 1
        apply List.filter_congr
        intro block _
        rw [decide_eq_decide, List.mem_cons]
        constructor
        · rintro hn ⟨rfl | hd, hr⟩
          · exact hr row hrow hcid
          · exact hn ⟨hd, hr⟩
        · rintro hn ⟨hd, hr⟩
          exact hn ⟨Or.inr hd, hr⟩
      · have hnone : ∀ row ∈ tables.record, row.cid ≠ cid := by
          intro row hrow hcid
          apply hany
          rw [List.any_eq_true]
          exact ⟨row, hrow, decide_eq_true hcid⟩
        dsimp only
        congr 1
        rw [Table.delete, List.filter_filter]
        apply List.filter_congr
        intro block _
        rw [← Bool.decide_and, decide_eq_decide, List.mem_cons]
        constructor
        · rintro ⟨hn, hb⟩ ⟨hd, hr⟩
          exact hn ⟨hd.resolve_left hb, hr⟩
        · intro hn
          refine ⟨fun hd => hn ⟨Or.inr hd.1, hd.2⟩, ?_⟩
          rintro rfl
          exact hn ⟨Or.inl rfl, hnone⟩
  unfold forgetBlocks
  rw [hfold]

theorem sweepKept_eq (cids : List Cid) (s : Landing Cid) : sweepKept cids s = { s with
    tables := { s.tables with
      blob := s.tables.blob.filter fun row => row.cid ∉ s.tables.released [] cids }
    cleared := { s.cleared with
      orphaned := s.cleared.orphaned ++ s.tables.released [] cids } } := by
  unfold sweepKept
  rw [Tables.orphan_eq]

theorem mem_kept {records : List (Indexed Cid)} {cid : Cid} :
    cid ∈ kept records ↔ ∃ record ∈ records, cid ∈ record.blobs.map Blob.cid := by
  unfold kept
  rw [List.mem_dedup, List.mem_flatMap]
  apply exists_congr
  intro record
  cases record <;> rfl

/-- The blocks a revision leaves behind: the ones there were, the ones it writes, and not the ones
it drops, unless a record is in them. -/
def blocksLeft (rev : Tid) (written : BlockMap Cid) (dropped : List Cid) (records : List (RecordRow Cid))
    (rows : List (BlockRow Cid)) : List (BlockRow Cid) :=
  (written.entries.foldl (fun rows row => insertOrIgnore BlockRow.cid ⟨row.1, rev, row.2⟩ rows)
    rows).filter fun block => ¬(block.cid ∈ dropped ∧ ∀ row ∈ records, row.cid ≠ block.cid)

theorem keyed_foldl_insert {rows : List (BlockRow Cid)} (h : Keyed BlockRow.cid rows)
    (entries : List (Sigma fun _ : Cid => Bytes)) : Keyed BlockRow.cid
      (entries.foldl (fun rows row => insertOrIgnore BlockRow.cid ⟨row.1, rev, row.2⟩ rows) rows) := by
  induction entries generalizing rows with
  | nil => exact h
  | cons row entries ih => exact ih h.insertOrIgnore

theorem find_foldl_insert (entries : List (Sigma fun _ : Cid => Bytes)) (rows : List (BlockRow Cid))
    (cid : Cid) : find BlockRow.cid cid
        (entries.foldl (fun rows row => insertOrIgnore BlockRow.cid ⟨row.1, rev, row.2⟩ rows) rows) =
      (find BlockRow.cid cid rows).or ((entries.dlookup cid).map fun bytes => ⟨cid, rev, bytes⟩) := by
  induction entries generalizing rows with
  | nil => simp
  | cons row entries ih =>
    obtain ⟨c, bytes⟩ := row
    rw [List.foldl_cons, ih, find_insertOrIgnore, Option.or_assoc]
    by_cases hc : c = cid
    · subst hc
      rw [List.dlookup_cons_eq, if_pos rfl]
      rfl
    · rw [List.dlookup_cons_ne _ _ (Ne.symm hc), if_neg hc, Option.none_or]

theorem keyed_blocksLeft {rows : List (BlockRow Cid)} (h : Keyed BlockRow.cid rows)
    (written : BlockMap Cid) (dropped : List Cid) (records : List (RecordRow Cid)) :
    Keyed BlockRow.cid (blocksLeft rev written dropped records rows) :=
  (keyed_foldl_insert h written.entries).filter _ _

/-- A block that was there keeps its row, and the revision it was first written in. -/
theorem find_blocksLeft {rows : List (BlockRow Cid)} (h : Keyed BlockRow.cid rows)
    (written : BlockMap Cid) (dropped : List Cid) (records : List (RecordRow Cid)) (cid : Cid) :
    find BlockRow.cid cid (blocksLeft rev written dropped records rows) =
      if cid ∈ dropped ∧ ∀ row ∈ records, row.cid ≠ cid then none
      else (find BlockRow.cid cid rows).or
        ((written.lookup cid).map fun bytes => ⟨cid, rev, bytes⟩) := by
  unfold blocksLeft
  rw [(keyed_foldl_insert h written.entries).find_filter, find_foldl_insert]
  change Option.filter _ ((find BlockRow.cid cid rows).or
    ((written.lookup cid).map fun bytes => ⟨cid, rev, bytes⟩)) = _
  cases hf : (find BlockRow.cid cid rows).or
      ((written.lookup cid).map fun bytes => (⟨cid, rev, bytes⟩ : BlockRow Cid)) with
  | none => simp
  | some row =>
    have hcid : row.cid = cid := by
      rcases Option.or_eq_some_iff.mp hf with hr | ⟨-, hr⟩
      · exact key_of_find hr
      · obtain ⟨bytes, -, rfl⟩ := Option.map_eq_some_iff.mp hr
        rfl
    subst hcid
    rw [Option.filter_some]
    by_cases hd : row.cid ∈ dropped ∧ ∀ other ∈ records, other.cid ≠ row.cid
    · rw [if_pos hd, if_neg]
      rw [decide_eq_true_iff, not_not]
      exact hd
    · rw [if_neg hd, if_pos]
      exact decide_eq_true hd

theorem store_ok {root : Root Cid} {written : BlockMap Cid} {dropped : List Cid}
    {records : List (Indexed Cid)} {s s' : Landing Cid} {u : Unit}
    (h : store did root written dropped records s = .ok u s') :
    s'.tables.record = records.foldl (Indexed.indexRow did root.rev) s.tables.record ∧
    s'.tables.backlink =
      records.foldl (fun rows record => relinked (record.uri did) record.links rows)
        s.tables.backlink ∧
    s'.tables.recordBlob =
      records.foldl (fun rows record => retied (record.uri did) (record.blobs.map Blob.cid) rows)
        s.tables.recordBlob ∧
    s'.tables.repoBlock =
      blocksLeft root.rev written dropped s'.tables.record s.tables.repoBlock ∧
    s'.tables.repoRoot = s.tables.repoRoot := by
  obtain ⟨u1, s1, h1, h⟩ := bind_eq_ok h
  obtain ⟨u2, s2, h2, h⟩ := bind_eq_ok h
  obtain ⟨u3, s3, h3, h4⟩ := bind_eq_ok h
  have hs1 := modify_eq_ok h1
  have hs3 := modify_eq_ok h3
  have hs4 := modify_eq_ok h4
  rw [insertBlocks_eq] at hs1
  rw [forgetBlocks_eq] at hs3
  rw [sweepKept_eq] at hs4
  have hrecord := forM_fold (g := fun s : Landing Cid => s.tables.record)
    (fun record s s' he => (indexOne_ok he).record) h2
  have hlink : s2.tables.backlink =
      records.foldl (fun rows record => relinked (record.uri did) record.links rows)
        s1.tables.backlink :=
    forM_fold (g := fun s : Landing Cid => s.tables.backlink)
      (fun record s s' he => (indexOne_ok he).backlink) h2
  have hblob : s2.tables.recordBlob =
      records.foldl (fun rows record => retied (record.uri did) (record.blobs.map Blob.cid) rows)
        s1.tables.recordBlob :=
    forM_fold (g := fun s : Landing Cid => s.tables.recordBlob)
      (fun record s s' he => (indexOne_ok he).recordBlob) h2
  have hkept : s2.tables.repoBlock = s1.tables.repoBlock ∧ s2.tables.repoRoot = s1.tables.repoRoot := by
    apply Keeps.forM (P := fun t : Landing Cid => t.tables.repoBlock = s1.tables.repoBlock ∧
      t.tables.repoRoot = s1.tables.repoRoot) _ s1 u2 s2 ⟨rfl, rfl⟩ h2
    intro record _ t v t' ht he
    have hturn := indexOne_ok he
    exact ⟨hturn.repoBlock.trans ht.1, hturn.repoRoot.trans ht.2⟩
  rw [hs4, hs3]
  refine ⟨?_, ?_, ?_, ?_, ?_⟩
  · rw [hrecord, hs1]
  · rw [hlink, hs1]
  · rw [hblob, hs1]
  · rw [hkept.1, hs1]
    rfl
  · rw [hkept.2, hs1]

/-- What the three tables that follow the records keep to is kept by a whole transaction. -/
theorem store_keeps {P : Tables Cid → Prop} {root : Root Cid} {written : BlockMap Cid}
    {dropped : List Cid} {records : List (Indexed Cid)}
    (hframe : ∀ before after : Tables Cid, after.record = before.record →
      after.backlink = before.backlink → after.recordBlob = before.recordBlob → P before → P after)
    (hturn : ∀ record ∈ records, ∀ before after, Turned did root.rev record before after →
      P before → P after) :
    Keeps (fun s => P s.tables) (store did root written dropped records) := by
  apply Keeps.bind
  · apply Keeps.modify
    intro s hs
    rw [insertBlocks_eq]
    exact hframe s.tables _ rfl rfl rfl hs
  intro _
  apply Keeps.bind
  · apply Keeps.forM
    intro record hm s u s' hs he
    exact hturn record hm s.tables s'.tables (indexOne_ok he) hs
  intro _
  apply Keeps.bind
  · apply Keeps.modify
    intro s hs
    rw [forgetBlocks_eq]
    exact hframe s.tables _ rfl rfl rfl hs
  intro _
  apply Keeps.modify
  intro s hs
  rw [sweepKept_eq]
  exact hframe s.tables _ rfl rfl rfl hs

/-- A blob that a record may name: its row is there, and the upload it is from, if nothing has taken
that yet, is what the record says. -/
def Claimable (s : Landing Cid) (blob : Blob Cid) : Prop :=
  ∃ row, s.tables.blob.find? (fun row => row.cid = blob.cid && row.takedownRef.isNone) = some row ∧
    ∀ key, row.tempKey = some key → mismatch row blob = none ∧ s.files.uploads.contains key = true

namespace Claimable

variable {s s' : Landing Cid} {blob other : Blob Cid}

theorem frame (h : s.Claimable blob) (hb : s'.tables.blob = s.tables.blob) (hf : s'.files = s.files) :
    s'.Claimable blob := by
  unfold Claimable
  rw [hb, hf]
  exact h

/-- A record that lets go of its blobs spares those of its batch. -/
theorem dereference (h : s.Claimable blob) (at_ : Str) {kept : List Cid} (hk : blob.cid ∈ kept) :
    (s.dereference at_ kept).Claimable blob := by
  obtain ⟨row, hrow, hkey⟩ := h
  rw [dereference_eq]
  refine ⟨row, ?_, hkey⟩
  dsimp only
  rw [List.find?_filter, ← hrow]
  congr 1
  funext row
  by_cases hc : row.cid = blob.cid
  · have hspared : row.cid ∉ s.tables.letGo at_ kept := by
      rw [hc, Tables.letGo, Tables.released, List.mem_filter]
      simp [hk]
    rw [Bool.eq_iff_iff]
    simp [hspared]
  · simp [hc]

/-- A blob that is claimed leaves the others as they are, and is one that may be named again. -/
theorem tie (h : s.Claimable blob) (at_ : Str) (cid : Cid) : (s.tie at_ cid).Claimable blob := by
  obtain ⟨row, hrow, hkey⟩ := h
  refine ⟨if row.cid = cid then { row with tempKey := none } else row, ?_, ?_⟩
  · have hsame : (fun row : BlobRow Cid => decide (row.cid = blob.cid) && row.takedownRef.isNone) ∘
        (fun row => if row.cid = cid then { row with tempKey := none } else row) =
          fun row => decide (row.cid = blob.cid) && row.takedownRef.isNone := by
      funext row
      rw [Function.comp_apply]
      split_ifs <;> rfl
    rw [Landing.tie, List.find?_map, hsame, hrow]
    rfl
  · intro key
    split_ifs with hc
    · exact fun hn => nomatch hn
    · exact hkey key

/-- Nothing stops a claim of it. -/
theorem exists_claim (h : s.Claimable blob) (at_ : Str) : ∃ t : Landing Cid,
    Landing.claim at_ blob s = .ok () (t.tie at_ blob.cid) ∧ t.tables = s.tables ∧
      t.files.uploads = s.files.uploads := by
  obtain ⟨row, hrow, hkey⟩ := h
  unfold claim
  rw [hrow]
  dsimp only
  cases hk : row.tempKey with
  | none => exact ⟨s, rfl, rfl, rfl⟩
  | some key =>
    obtain ⟨hmatch, hupload⟩ := hkey key hk
    obtain ⟨linked, files, hclaim, huploads⟩ : ∃ linked files,
        s.files.claim key blob.cid = .ok (linked, files) ∧ files.uploads = s.files.uploads := by
      unfold BlobFiles.claim
      rw [if_neg (by rw [hupload]; exact Bool.noConfusion)]
      split_ifs
      · exact ⟨_, _, rfl, rfl⟩
      · exact ⟨_, _, rfl, rfl⟩
    dsimp only
    rw [hmatch]
    refine ⟨{ s with
      files
      linked := if linked then s.linked ++ [blob.cid] else s.linked
      cleared := { s.cleared with taken := s.cleared.taken ++ [key] } }, ?_, rfl, huploads⟩
    rw [takeUpload, hclaim]
    rfl

end Claimable

/-- The blobs that some records name are all there to be claimed. -/
def Ready (records : List (Indexed Cid)) (s : Landing Cid) : Prop :=
  ∀ record ∈ records, ∀ blob ∈ record.blobs, s.Claimable blob

theorem Ready.frame {records : List (Indexed Cid)} {s s' : Landing Cid} (h : s.Ready records)
    (hb : s'.tables.blob = s.tables.blob) (hf : s'.files = s.files) : s'.Ready records :=
  fun record hm blob hn => (h record hm blob hn).frame hb hf

theorem indexOne_goes (did : Did) (rev : Tid) {records : List (Indexed Cid)} {record : Indexed Cid}
    (hm : record ∈ records) :
    Goes (Ready records) (indexOne did rev (kept records) record) (Ready records) := by
  rw [indexOne_eq]
  apply Goes.bind (R := Ready records)
  · apply Goes.modify
    intro s hs
    rw [relink_eq]
    exact hs.frame rfl rfl
  intro _
  apply Goes.bind (R := Ready records)
  · apply Goes.modify
    intro s hs other ho blob hb
    exact (hs other ho blob hb).dereference _ (mem_kept.mpr ⟨other, ho, List.mem_map_of_mem hb⟩)
  intro _
  apply Goes.bind (R := Ready records)
  · apply Goes.forM
    intro blob hb s hs
    obtain ⟨t, hclaim, htables, huploads⟩ := (hs record hm blob hb).exists_claim (record.uri did)
    refine ⟨_, _, hclaim, ?_⟩
    intro other ho blob' hb'
    obtain ⟨row, hrow, hkey⟩ := hs other ho blob' hb'
    rw [← htables] at hrow
    rw [← huploads] at hkey
    exact Claimable.tie ⟨row, hrow, hkey⟩ _ _
  intro _
  apply Goes.modify
  exact fun s hs => hs.frame rfl rfl

/-- With every blob there to be claimed, nothing stops a transaction. -/
theorem store_goes (did : Did) (root : Root Cid) (written : BlockMap Cid) (dropped : List Cid)
    (records : List (Indexed Cid)) :
    Goes (Ready records) (store did root written dropped records) fun _ => True := by
  apply Goes.bind (R := Ready records)
  · apply Goes.modify
    intro s hs
    rw [insertBlocks_eq]
    exact hs.frame rfl rfl
  intro _
  apply Goes.bind (R := Ready records)
  · exact Goes.forM fun record hm => indexOne_goes did root.rev hm
  intro _
  apply Goes.bind (R := fun _ => True)
  · exact Goes.modify fun _ _ => trivial
  · exact fun _ => Goes.modify fun _ _ => trivial

end Landing

/-! ## The commit -/

namespace Tables

theorem moveRoot_ok {tables after : Tables Cid} {start : Option (Root Cid)} {root : Root Cid}
    (h : tables.moveRoot start root = .ok (some after)) :
    after = { tables with repoRoot := some root } ∧
      tables.repoRoot.map Root.cid = start.map Root.cid := by
  unfold moveRoot at h
  split at h
  · split_ifs at h with hc
    · next hr =>
      cases h
      exact ⟨rfl, by rw [hr, Option.map_some, Option.map_some, hc]⟩
    · cases h
  · cases h
  · cases h
  · next hr =>
    cases h
    exact ⟨rfl, by rw [hr]⟩

end Tables

namespace ActorState

variable {actor actor' : ActorState Cid} {revision : Revision Cid}

/-- Where a transaction starts. -/
def begun (actor : ActorState Cid) : Landing Cid := ⟨actor.tables, actor.files, ⟨[], []⟩, []⟩

/-- Everything a revision does before it moves the root. -/
def stored (actor : ActorState Cid) (did : Did) (revision : Revision Cid) :
    EStateM.Result (StoreError Cid) (Landing Cid) Unit :=
  Landing.store did revision.root revision.written revision.dropped revision.records actor.begun

theorem commit_error {e : StoreError Cid} {s : Landing Cid}
    (hs : actor.stored did revision = .error e s) :
    actor.commit did revision = (.error e, actor.abandon s) := by
  unfold stored begun at hs
  unfold commit
  dsimp only
  rw [hs]

theorem commit_landed {committed : Committed Cid}
    (h : actor.commit did revision = (.ok (some committed), actor')) :
    ∃ s, actor.stored did revision = .ok () s ∧ committed = s.cleared ∧
      actor'.tables = { s.tables with repoRoot := some revision.root } ∧
      s.tables.repoRoot.map Root.cid = revision.start.map Root.cid ∧ actor'.files = s.files := by
  cases hs : actor.stored did revision with
  | error e s =>
    rw [commit_error hs] at h
    cases h
  | ok u s =>
    have hs' := hs
    unfold stored begun at hs'
    unfold commit at h
    dsimp only at h
    rw [hs'] at h
    dsimp only at h
    split at h
    · cases h
    · cases h
    · next tables ht =>
      obtain ⟨rfl, hr⟩ := Tables.moveRoot_ok ht
      cases h
      exact ⟨s, rfl, rfl, rfl, hr, rfl⟩

theorem ready_of_blobless {records : List (Indexed Cid)}
    (h : ∀ record ∈ records, record.blobs = []) : actor.begun.Ready records := by
  intro record hm blob hb
  rw [h record hm] at hb
  cases hb

/-- A revision whose blobs can be claimed and that was worked out from the root that is there
lands. -/
theorem commit_goes (did : Did) (actor : ActorState Cid) (revision : Revision Cid)
    (h : actor.begun.Ready revision.records) (hr : actor.tables.repoRoot = revision.start) :
    ∃ committed actor', actor.commit did revision = (.ok (some committed), actor') := by
  obtain ⟨u, s, he, -⟩ := Landing.store_goes did revision.root revision.written
    revision.dropped revision.records actor.begun h
  have hroot : s.tables.repoRoot = revision.start := (Landing.store_ok he).2.2.2.2.trans hr
  refine ⟨s.cleared, ⟨{ s.tables with repoRoot := some revision.root }, s.files⟩, ?_⟩
  have hmove : s.tables.moveRoot revision.start revision.root =
      .ok (some { s.tables with repoRoot := some revision.root }) := by
    unfold Tables.moveRoot
    rw [hroot]
    cases revision.start with
    | none => rfl
    | some start => exact if_pos rfl
  unfold begun at he
  unfold commit
  dsimp only
  rw [he]
  dsimp only
  rw [hmove]

/-- One that was worked out from another root does not. -/
theorem commit_loses (did : Did) (actor : ActorState Cid) (revision : Revision Cid)
    (h : actor.begun.Ready revision.records) {held start : Root Cid}
    (hr : actor.tables.repoRoot = some held) (hs : revision.start = some start)
    (hne : held.cid ≠ start.cid) : ∃ actor', actor.commit did revision = (.ok none, actor') := by
  obtain ⟨u, s, he, -⟩ := Landing.store_goes did revision.root revision.written
    revision.dropped revision.records actor.begun h
  have hroot : s.tables.repoRoot = some held := (Landing.store_ok he).2.2.2.2.trans hr
  have hmove : s.tables.moveRoot revision.start revision.root = .ok none := by
    unfold Tables.moveRoot
    rw [hroot, hs]
    exact if_neg hne
  refine ⟨actor.abandon s, ?_⟩
  unfold begun at he
  unfold commit
  dsimp only
  rw [he]
  dsimp only
  rw [hmove]

theorem commit_lost {answer : Except (StoreError Cid) (Option (Committed Cid))}
    (h : actor.commit did revision = (answer, actor')) (hn : ∀ committed, answer ≠ .ok (some committed)) :
    actor' = actor.abandon (final (actor.stored did revision)) := by
  cases hs : actor.stored did revision with
  | error e s =>
    rw [commit_error hs] at h
    cases h
    rfl
  | ok u s =>
    have hs' := hs
    unfold stored begun at hs'
    unfold commit at h
    dsimp only at h
    rw [hs'] at h
    dsimp only at h
    split at h
    · cases h
      rfl
    · cases h
      rfl
    · cases h
      exact absurd rfl (hn _)

end ActorState

end Manapds
