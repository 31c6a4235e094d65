import Manapds.Account.Incremental
import Manapds.Syntax.Identifier
import Manapds.Xrpc.Listing

/-!
# Listing blobs

The blobs an account's records name are listed in the order of their CIDs, a page at a time: all of
them, or those that a record written after some revision names. The pages after a revision are what
a mirror that had everything at that revision is short of.
-/

namespace Manapds

open QueryProgram Transaction

variable {Cid : Type}

/-- A blob that records name and nothing uploaded, beside the first record that names it. -/
structure MissingBlob (Cid : Type) where
  cid : Cid
  uri : Str

section

variable [CidText Cid] [DecidableEq Cid]

/-- `group by` and `order by` over a column of CIDs, as text. -/
def inTextOrder (cids : List Cid) : List Cid :=
  Paging.sorted (fun cid => OrderDual.toDual (CidText.toText cid)) cids.dedup

/-- A CID past the one a page starts after. -/
def pastCid (cursor : Option Str) (cid : Cid) : Bool :=
  cursor.all fun mark => decide (mark < CidText.toText cid)

namespace Tables

omit [CidText Cid] [DecidableEq Cid] in
/-- The rows that name a blob for a record written after `since`. -/
def naming (tables : Tables Cid) (since : Option Tid) : List (RecordBlobRow Cid) :=
  tables.recordBlob.filter fun row => since.all fun rev => tables.record.any fun record =>
    decide (record.uri = row.recordUri ∧ rev.str < record.repoRev.str)

/-- One page of the blobs records name. -/
def blobs (tables : Tables Cid) (since : Option Tid) (limit : ℕ) (cursor : Option Str) : List Cid :=
  let named := (tables.naming since).map RecordBlobRow.blobCid
  (inTextOrder (named.filter (pastCid cursor))).take limit

/-- The rows that name a blob nothing uploaded. -/
def namingMissing (tables : Tables Cid) : List (RecordBlobRow Cid) :=
  tables.recordBlob.filter fun row => !tables.blob.any fun blob => decide (blob.cid = row.blobCid)

/-- One page of the blobs that records name and nothing uploaded. -/
def missingBlobs (tables : Tables Cid) (limit : ℕ) (cursor : Option Str) :
    List (MissingBlob Cid) :=
  let rows := tables.namingMissing.filter fun row => pastCid cursor row.blobCid
  ((inTextOrder (rows.map RecordBlobRow.blobCid)).filterMap fun cid =>
    ((rows.filter fun row => decide (row.blobCid = cid)).map RecordBlobRow.recordUri).min?.map
      (⟨cid, ·⟩)).take limit

end Tables

/-- `com.atproto.sync.listBlobs`. -/
def listBlobs (tables : Tables Cid) (since : Option Str) (limit : Option ℕ) (cursor : Option Str) :
    Except String (Paging.Answer Str Str) := do
  let since ← match since with
    | none => .ok none
    | some since => ((parseAs Tid.validate Tid.mk since).mapError fun _ => "Invalid since").map some
  let limit := clamp 500 1000 limit
  Paging.answer CidText.toText (fun cid => .ok (CidText.toText cid)) limit
    (tables.blobs since limit cursor)

/-- `com.atproto.repo.listMissingBlobs`. -/
def listMissing (tables : Tables Cid) (limit : Option ℕ) (cursor : Option Str) :
    Except String (Paging.Answer Str (Str × Str)) :=
  let limit := clamp 500 1000 limit
  Paging.answer (fun missing => CidText.toText missing.cid)
    (fun missing => .ok (CidText.toText missing.cid, missing.uri)) limit
    (tables.missingBlobs limit cursor)

end

/-! ## Pages -/

section

variable [CidText Cid] [LawfulCidText Cid] [DecidableEq Cid] {tables : Tables Cid}

omit [LawfulCidText Cid] in
theorem mem_inTextOrder {cids : List Cid} {cid : Cid} : cid ∈ inTextOrder cids ↔ cid ∈ cids :=
  Paging.sorted_perm.mem_iff.trans List.mem_dedup

theorem nodup_toText (cids : List Cid) :
    (cids.dedup.map fun cid => OrderDual.toDual (CidText.toText cid)).Nodup :=
  (List.nodup_dedup cids).map fun _ _ h =>
    LawfulCidText.toText_injective (OrderDual.toDual_inj.mp h)

theorem pairwise_inTextOrder (cids : List Cid) :
    (inTextOrder cids).Pairwise fun a b => CidText.toText a < CidText.toText b :=
  (Paging.pairwise_sorted_lt (nodup_toText cids)).imp fun h => OrderDual.toDual_lt_toDual.mp h

theorem inTextOrder_filter (cids : List Cid) (p : Cid → Bool) :
    inTextOrder (cids.filter p) = (inTextOrder cids).filter p := by
  rw [inTextOrder, inTextOrder, ← Paging.sorted_filter_eq (nodup_toText cids)]
  apply Paging.sorted_eq_of_perm (nodup_toText _)
  · apply Paging.sorted_perm.trans
    apply (List.perm_ext_iff_of_nodup ((List.nodup_dedup cids).filter p) (List.nodup_dedup _)).mpr
    simp
  · exact Paging.pairwise_sorted

/-- Past a CID that was shown. -/
def pastShown (mark : Str) (cid : Cid) : Bool := pastCid (some mark) cid

/-- Following the cursors goes through the blobs in order, each once. -/
theorem lists_blobs {since : Option Str} {rev : Option Tid} (limit : Option ℕ)
    (hs : since = rev.map Tid.str) : Paging.Lists
      (inTextOrder ((tables.naming rev).map RecordBlobRow.blobCid)) (clamp 500 1000 limit)
      CidText.toText (fun cid => .ok (CidText.toText cid)) (listBlobs tables since limit) := by
  have hask : ∀ cursor, listBlobs tables since limit cursor =
      Paging.answer CidText.toText (fun cid => .ok (CidText.toText cid)) (clamp 500 1000 limit)
        (tables.blobs rev (clamp 500 1000 limit) cursor) := by
    intro cursor
    cases rev with
    | none =>
      rw [hs]
      rfl
    | some rev =>
      have hparse : parseAs Tid.validate Tid.mk rev.str = .ok rev :=
        parseAs_eq_ok.mpr ⟨rev.valid, rfl⟩
      rw [hs, Option.map_some, listBlobs, hparse]
      rfl
  have hpast : ∀ a ∈ inTextOrder ((tables.naming rev).map RecordBlobRow.blobCid),
      ∀ b ∈ inTextOrder ((tables.naming rev).map RecordBlobRow.blobCid),
        pastShown (CidText.toText a) b = true ↔ CidText.toText a < CidText.toText b := by
    intro a _ b _
    exact decide_eq_true_iff
  apply Paging.lists_of_pairwise (pairwise_inTextOrder _) (fun a b => lt_asymm) hpast
  · rw [hask, Tables.blobs, inTextOrder_filter]
    congr
    exact List.filter_eq_self.mpr fun _ _ => rfl
  · intro a _
    rw [hask, Tables.blobs, inTextOrder_filter]
    rfl

end

/-! ## How old a record is -/

section

variable [Codec Cid] [LawfulCodec Cid] [DecidableEq Cid] [CidText Cid] {did : Did} {w : World Cid}

/-- A record dated no later than a revision was in its index as it is. -/
theorem World.Reachable.record_kept (h : World.Reachable did w) : ∀ old ∈ w.history, ∀ root,
    old.repoRoot = some root → ∀ row ∈ w.actor.tables.record, ¬root.rev < row.repoRev →
      row ∈ old.record := by
  induction h with
  | @founded actor hf =>
    intro old hold root hroot row hm hdate
    obtain rfl : old = actor.tables := List.mem_singleton.mp hold
    exact hm
  | @step who w w' h hs ih =>
    intro old hold root hroot row hm hdate
    rcases hs.same_or_landed with ⟨hmoved, hsame⟩ | ⟨m, committed, hmoved, hbefore, hafter, hc⟩
    · obtain ⟨old', hold', hsame'⟩ := World.exists_mem_history hmoved hsame hold
      rw [hsame.record] at hm
      rw [hsame'.record]
      exact ih old' hold' root (hsame'.repoRoot.symm.trans hroot) row hm hdate
    · have hmem : m ∈ w'.moved := by
        rw [hmoved]
        exact List.mem_cons_self
      obtain ⟨repo, ℓ, xs, worked, next, ℓ', xs', hl⟩ := (h.step hs).sound.lands m hmem
      rcases World.mem_history_landed hmoved hbefore hold with rfl | hold
      · rw [hafter]
        exact hm
      · obtain ⟨root', current, hkept⟩ := h.keptSince old hold
        obtain rfl := Option.some.inj (hkept.then_.symm.trans hroot)
        have hcurrent : current.rev < next.rev := by
          have hheld := hl.before.root
          rw [hbefore, hkept.now_] at hheld
          rw [Option.some.inj hheld]
          exact hl.rev
        have hle : root'.rev.str ≤ current.rev.str := not_lt.mp hkept.later
        have hlt : root'.rev < next.rev := hle.trans_lt hcurrent
        rw [← hafter, hl.record, hbefore] at hm
        rcases Indexed.mem_foldl_indexRow hm with hheld | ⟨hrev, -⟩
        · exact ih old hold root' hroot row hheld hdate
        · rw [hrev] at hdate
          exact absurd hlt hdate

/-! ## Mirrors -/

/-- A record names a blob, by what it says. -/
def Tables.NamesAt (tables : Tables Cid) (at_ : Str) (cid : Cid) : Prop :=
  ∃ value blobs, tables.RecordAt at_ value ∧ BlobRef.of value.ipld = .ok blobs ∧
    cid ∈ blobs.map Blob.cid

def Tables.Names (tables : Tables Cid) (cid : Cid) : Prop := ∃ at_, tables.NamesAt at_ cid

variable {tables : Tables Cid}

omit [DecidableEq Cid] [CidText Cid] in
/-- The table of names says what the records do. -/
theorem Tables.Mirrors.mem_recordBlob_iff (h : tables.Mirrors did) {at_ : Str} {cid : Cid} :
    ⟨cid, at_⟩ ∈ tables.recordBlob ↔ tables.NamesAt at_ cid := by
  constructor
  · intro hm
    have hs : (Table.find RecordRow.uri at_ tables.record).isSome = true := by
      by_contra hnone
      rw [Option.not_isSome_iff_eq_none] at hnone
      exact (h.absent at_ hnone).1 cid hm
    obtain ⟨value, hv, ⟨blobs, hof, hcids⟩, -⟩ := h.present at_ hs
    exact ⟨value, blobs, hv, hof, (hcids cid).mp hm⟩
  · rintro ⟨value, blobs, hv, hof, hm⟩
    obtain ⟨⟨blobs', hof', hcids⟩, -⟩ := h.shows hv
    obtain rfl : blobs = blobs' := Except.ok.inj (hof.symm.trans hof')
    exact (hcids cid).mpr hm

omit [DecidableEq Cid] [CidText Cid] in
theorem Tables.Mirrors.names_iff (h : tables.Mirrors did) {cid : Cid} :
    tables.Names cid ↔ ∃ row ∈ tables.recordBlob, row.blobCid = cid := by
  constructor
  · rintro ⟨at_, hn⟩
    exact ⟨⟨cid, at_⟩, h.mem_recordBlob_iff.mpr hn, rfl⟩
  · rintro ⟨⟨cid', at_⟩, hm, rfl⟩
    exact ⟨at_, h.mem_recordBlob_iff.mp hm⟩

omit [LawfulCodec Cid] [DecidableEq Cid] [CidText Cid] in
/-- A row that is in two indexes is of one record. -/
theorem Tables.NamesAt.of_mem {old : Tables Cid} {row : RecordRow Cid} {cid : Cid}
    (h : tables.NamesAt row.uri cid) (hk : Table.Keyed RecordRow.uri tables.record)
    (ho : Table.Keyed RecordRow.uri old.record) (hm : row ∈ tables.record)
    (hold : row ∈ old.record) : old.NamesAt row.uri cid := by
  obtain ⟨value, blobs, ⟨row', bytes, hrow', hencode, hcid⟩, hof, hmem⟩ := h
  obtain rfl : row = row' := Option.some.inj ((hk.find_eq_some.mpr ⟨hm, rfl⟩).symm.trans hrow')
  exact ⟨value, blobs, ⟨row, bytes, ho.find_eq_some.mpr ⟨hold, rfl⟩, hencode, hcid⟩, hof, hmem⟩

/-- Following the cursors of a listing lists these, in order and each once. -/
structure Tables.ListsBlobs (tables : Tables Cid) (since : Option Tid) (cids : List Cid) :
    Prop where
  ordered : cids.Pairwise fun a b => CidText.toText a < CidText.toText b
  pages : ∀ limit rounds, cids.length < rounds →
    Paging.follow (listBlobs tables (since.map Tid.str) limit) rounds none =
      some (.ok (cids.map CidText.toText))

omit [Codec Cid] [LawfulCodec Cid] in
theorem Tables.listsBlobs [LawfulCidText Cid] (tables : Tables Cid) (since : Option Tid) :
    tables.ListsBlobs since (inTextOrder ((tables.naming since).map RecordBlobRow.blobCid)) where
  ordered := pairwise_inTextOrder _
  pages := by
    intro limit rounds hr
    rw [(lists_blobs limit rfl).follow_eq one_le_clamp hr]
    exact congrArg some (List.mapM_pure ..)

/-- What a mirror needs of the blobs is listed: without a revision, those that records name; after
one, those that records written since name, which are all that no record named then. Each was
uploaded and is kept, and nothing is ever missing. -/
theorem blobs_mirrored [LawfulCidText Cid] (h : World.Reachable did w) :
    (∃ cids, w.actor.tables.ListsBlobs none cids ∧ ∀ cid, cid ∈ cids ↔ w.actor.tables.Names cid) ∧
    (∀ old ∈ w.history, ∃ root cids, old.repoRoot = some root ∧
      w.actor.tables.ListsBlobs (some root.rev) cids ∧
      (∀ cid, cid ∈ cids ↔ ∃ row ∈ w.actor.tables.record, root.rev < row.repoRev ∧
        w.actor.tables.NamesAt row.uri cid) ∧
      ∀ cid, w.actor.tables.Names cid → old.Names cid ∨ cid ∈ cids) ∧
    (∀ cid, w.actor.tables.Names cid →
      ∃ blob ∈ w.actor.tables.blob, blob.cid = cid ∧ blob.tempKey = none) ∧
    ∀ limit cursor, listMissing w.actor.tables limit cursor = .ok ⟨none, []⟩ := by
  obtain ⟨⟨repo, ℓ, xs, hc, -⟩, -, -, -, -⟩ := h.sound
  have hmirrors := hc.mirrors
  refine ⟨⟨_, w.actor.tables.listsBlobs none, fun cid => ?_⟩, ?_, ?_, ?_⟩
  · rw [mem_inTextOrder, hmirrors.names_iff, List.mem_map]
    simp [Tables.naming]
  · intro old hold
    obtain ⟨root, current, hkept⟩ := h.keptSince old hold
    have hlisted : ∀ cid, cid ∈ inTextOrder ((w.actor.tables.naming (some root.rev)).map
        RecordBlobRow.blobCid) ↔ ∃ row ∈ w.actor.tables.record, root.rev < row.repoRev ∧
          w.actor.tables.NamesAt row.uri cid := by
      intro cid
      rw [mem_inTextOrder, List.mem_map]
      constructor
      · rintro ⟨⟨cid', at_⟩, hm, rfl⟩
        obtain ⟨hmem, hdate⟩ := List.mem_filter.mp hm
        simp only [Option.all_some, List.any_eq_true, decide_eq_true_iff] at hdate
        obtain ⟨row, hrow, rfl, hlt⟩ := hdate
        exact ⟨row, hrow, hlt, hmirrors.mem_recordBlob_iff.mp hmem⟩
      · rintro ⟨row, hrow, hlt, hnames⟩
        have hmem := hmirrors.mem_recordBlob_iff.mpr hnames
        refine ⟨⟨cid, row.uri⟩, List.mem_filter.mpr ⟨hmem, ?_⟩, rfl⟩
        simp only [Option.all_some, List.any_eq_true, decide_eq_true_iff]
        exact ⟨row, hrow, rfl, hlt⟩
    refine ⟨root, _, hkept.then_, w.actor.tables.listsBlobs (some root.rev), hlisted, ?_⟩
    rintro cid ⟨at_, hnames⟩
    obtain ⟨value, blobs, ⟨row, bytes, hrow, hencode, hcid⟩, hof, hmem⟩ := id hnames
    have hin := Table.mem_of_find hrow
    obtain rfl : row.uri = at_ := Table.key_of_find hrow
    by_cases hdate : root.rev < row.repoRev
    · exact Or.inr ((hlisted cid).mpr ⟨row, hin, hdate, hnames⟩)
    · obtain ⟨_, _, _, hold'⟩ := h.sound.carries_history old hold
      have hthen := h.record_kept old hold root hkept.then_ row hin hdate
      exact Or.inl ⟨row.uri, hnames.of_mem hmirrors.keyed hold'.mirrors.keyed hin hthen⟩
  · intro cid hnames
    obtain ⟨row, hrow, rfl⟩ := hmirrors.names_iff.mp hnames
    exact hc.tied.backed row hrow
  · intro limit cursor
    have hnone : w.actor.tables.namingMissing = [] := by
      rw [Tables.namingMissing, List.filter_eq_nil_iff]
      intro row hrow
      obtain ⟨blob, hblob, hcid, -⟩ := hc.tied.backed row hrow
      rw [Bool.not_eq_true', Bool.not_eq_false, List.any_eq_true]
      exact ⟨blob, hblob, decide_eq_true hcid⟩
    have hpage : w.actor.tables.missingBlobs (clamp 500 1000 limit) cursor = [] := by
      simp [Tables.missingBlobs, hnone]
    have hlimit : ¬0 = clamp 500 1000 limit := (Nat.lt_of_lt_of_le Nat.zero_lt_one one_le_clamp).ne
    rw [listMissing, hpage, Paging.answer]
    simp only [List.mapM_nil, Paging.next, List.length_nil, if_neg hlimit]
    rfl

end

/-- An account starts with no blob. -/
theorem Founded.blob_eq_nil [Codec Cid] [DecidableEq Cid] {did : Did} {actor : ActorState Cid}
    (h : Founded did actor) : actor.tables.blob = [] := by
  obtain ⟨-, hc⟩ := h
  obtain ⟨s, hs, -, htables, -, -⟩ := ActorState.commit_landed hc
  obtain ⟨_, s1, h1, hs⟩ := bind_eq_ok hs
  obtain ⟨_, s2, h2, hs⟩ := bind_eq_ok hs
  obtain ⟨_, s3, h3, h4⟩ := bind_eq_ok hs
  have hinserted := modify_eq_ok h1
  have hforgotten := modify_eq_ok h3
  have hswept := modify_eq_ok h4
  rw [Landing.insertBlocks_eq] at hinserted
  rw [Landing.forgetBlocks_eq] at hforgotten
  rw [Landing.sweepKept_eq] at hswept
  have hnone : s2 = s1 := by
    cases h2
    rfl
  rw [htables, hswept, hforgotten, hnone, hinserted]
  rfl

section

open DagCbor

def pictureAsked : Requested RawCid :=
  ⟨.create recordCollection recordKey pictureRecord, .anything, .refuse, .ignore⟩

def pictureLeaf : Leaf RawCid :=
  ⟨pictureAsked.write.key, DagCbor.cidFor (enc pictureRecord.ipld)⟩

/-- What a mirror of an account that has come to show a picture asks for since its founding. -/
theorem blobs_mirrored_first : ∃ (w : World RawCid) (root : Root RawCid) (cids : List RawCid),
    w.opened.repoRoot = some root ∧ w.actor.tables.ListsBlobs (some root.rev) cids ∧
    w.actor.tables.Names picture.cid ∧ ¬w.opened.Names picture.cid ∧ picture.cid ∈ cids ∧
    ∃ blob ∈ w.actor.tables.blob, blob.cid = picture.cid ∧ blob.tempKey = none := by
  obtain ⟨actor, repo, hf, hc, hroom⟩ := exists_first_founded
  have hfounded : World.Reachable recordDid ⟨actor, fun _ => none, []⟩ := .founded hf
  have huploaded := (hfounded.step (.addBlob picture (text "upload") 0)).step
    (.disk ⟨[], [text "upload"]⟩)
  have hcarries : (actor.tables.addBlob picture (text "upload") 0).Carries recordDid repo 0 [] :=
    hc.frame rfl rfl rfl rfl rfl (hc.tied.addBlob picture (text "upload") 0)
  obtain ⟨plan, hplan, hwrites, hindex⟩ : ∃ plan,
      (actor.tables.addBlob picture (text "upload") 0).planOn recordDid [] [pictureAsked] = .ok plan ∧
      plan.writes = [pictureAsked.write] ∧
      plan.index = [.put recordCollection recordKey pictureLeaf.value [] [picture]] :=
    ⟨_, rfl, rfl, rfl⟩
  have hready : (⟨actor.tables.addBlob picture (text "upload") 0, ⟨[], [text "upload"]⟩⟩ :
      ActorState RawCid).begun.Ready plan.index := by
    rw [hindex]
    intro record hm blob hb
    obtain rfl := List.mem_singleton.mp hm
    obtain rfl := List.mem_singleton.mp hb
    have hblob : (actor.tables.addBlob picture (text "upload") 0).blob =
        [Tables.uploadedRow picture (text "upload") 0] := by
      rw [Tables.addBlob, hf.blob_eq_nil]
      rfl
    refine ⟨Tables.uploadedRow picture (text "upload") 0, ?_, ?_⟩
    · dsimp only [ActorState.begun]
      rw [hblob]
      simp [Tables.uploadedRow]
    · rintro _ ⟨⟩
      exact ⟨by decide, rfl⟩
  obtain ⟨w, m, worked, _, next, ℓ, hw, hmoved, hbefore, -, -, -, -, -, hcarries', -⟩ :=
    huploaded.exists_landed hcarries (Nat.lt_of_succ_lt hroom) blankKey hplan (by simp [hwrites])
      (by rw [hwrites]; decide) (by rw [hwrites]; rfl) hready
  obtain ⟨-, hsince, hkept, -⟩ := blobs_mirrored hw
  have hopened : w.opened ∈ w.history := List.mem_append_right _ List.mem_cons_self
  obtain ⟨root, cids, hroot, hlists, -, hcomplete⟩ := hsince w.opened hopened
  have hnames : w.actor.tables.Names picture.cid := by
    obtain ⟨row, hrow, hat, hcid⟩ := (hcarries'.exact_rows.2 _ _).mpr
      ⟨pictureLeaf, List.mem_singleton_self _, rfl, rfl⟩
    refine ⟨row.uri, pictureRecord, [picture], ⟨row, _, ?_, rfl, hcid⟩, rfl, ?_⟩
    · exact hcarries'.mirrors.keyed.find_eq_some.mpr ⟨hrow, rfl⟩
    · exact List.mem_singleton_self _
  have hunnamed : ¬w.opened.Names picture.cid := by
    rintro ⟨at_, value, blobs, ⟨row, _, hrow, -⟩, -⟩
    have hat : w.opened = m.before := by rw [World.opened, hmoved]; rfl
    rw [hat, hbefore] at hrow
    obtain ⟨x, hx, -⟩ := (hcarries.exact_rows.2 row.uri row.cid).mp
      ⟨row, Table.mem_of_find hrow, rfl, rfl⟩
    cases hx
  exact ⟨w, root, cids, hroot, hlists, hnames, hunnamed,
    (hcomplete picture.cid hnames).resolve_left hunnamed, hkept picture.cid hnames⟩

end

end Manapds
