import Manapds.Account.Plan
import Manapds.Repo.DagCbor
import Manapds.Store.Blobs

/-!
# What the index says of the records

The rows beside a record's own, its links and the blobs it names, are those of the record that is
at its uri now. `Stocked` is an account's database however it came about: commits that land and
commits that do not, uploads and sweeps in any order, and files that come and go between them.
-/

namespace Manapds

open Table Transaction

variable {Cid : Type} {did : Did} {rev : Tid} {before after tables : Tables Cid}

theorem Backlink.nodup_of (record : Ipld Cid) : ((Backlink.of record).map Backlink.path).Nodup := by
  have hlen : (Backlink.of record).length ≤ 1 := by
    unfold Backlink.of Backlink.ofDid Backlink.ofUri
    repeat' split
    all_goals simp
  match Backlink.of record, hlen with
  | [], _ => exact List.nodup_nil
  | [link], _ => exact List.nodup_singleton _

/-- What stands beside the row of a record: the blobs it names and the links it makes. -/
structure Tables.Shows (tables : Tables Cid) (at_ : Str) (record : Value Cid) : Prop where
  blobs : ∃ blobs, BlobRef.of record.ipld = .ok blobs ∧
    ∀ cid, ⟨cid, at_⟩ ∈ tables.recordBlob ↔ cid ∈ blobs.map Blob.cid
  links : ∀ link, ⟨at_, link.path, link.linkTo⟩ ∈ tables.backlink ↔ link ∈ Backlink.of record.ipld

theorem Tables.Shows.frame {at_ : Str} {value : Value Cid} (h : before.Shows at_ value)
    (hb : ∀ cid, ⟨cid, at_⟩ ∈ after.recordBlob ↔ ⟨cid, at_⟩ ∈ before.recordBlob)
    (hl : ∀ path linkTo, ⟨at_, path, linkTo⟩ ∈ after.backlink ↔ ⟨at_, path, linkTo⟩ ∈ before.backlink) :
    after.Shows at_ value := by
  obtain ⟨⟨blobs, hof, hcids⟩, hlinks⟩ := h
  exact ⟨⟨blobs, hof, fun cid => (hb cid).trans (hcids cid)⟩,
    fun link => (hl link.path link.linkTo).trans (hlinks link)⟩

section

variable [Codec Cid]

/-- What a write leaves in the index, as `plan` works it out. -/
def Write.Indexes (write : Write Cid) (record : Indexed Cid) : Prop :=
  ∃ blobs cid, write.blobs = .ok blobs ∧ write.encoded = .ok cid ∧ record = write.indexed cid blobs

/-- A revision whose records are what writes come to. -/
def Revision.OfWrites (revision : Revision Cid) : Prop :=
  ∀ record ∈ revision.records, ∃ write : Write Cid, write.Indexes record

/-- The record at a uri is the one whose block the index points at there. -/
def Tables.RecordAt (tables : Tables Cid) (at_ : Str) (record : Value Cid) : Prop :=
  ∃ row bytes, find RecordRow.uri at_ tables.record = some row ∧ encode record.ipld = .ok bytes ∧
    row.cid = cidFor bytes

/-- Every uri shows what is at it. -/
structure Tables.Mirrors (did : Did) (tables : Tables Cid) : Prop where
  keyed : Keyed RecordRow.uri tables.record
  linkKeyed : Keyed (fun row => (row.uri, row.path)) tables.backlink
  named : ∀ row ∈ tables.record, row.uri = uri did row.collection row.rkey
  present : ∀ at_, (find RecordRow.uri at_ tables.record).isSome = true →
    ∃ record, tables.RecordAt at_ record ∧ tables.Shows at_ record
  absent : ∀ at_, find RecordRow.uri at_ tables.record = none →
    (∀ cid, ⟨cid, at_⟩ ∉ tables.recordBlob) ∧ ∀ row ∈ tables.backlink, row.uri ≠ at_

/-! ## One record of a batch -/

theorem Write.Indexes.eq_put_or_delete {write : Write Cid} {record : Indexed Cid}
    (h : write.Indexes record) :
    (∃ value bytes blobs, write.record = some value ∧ encode value.ipld = .ok bytes ∧
      BlobRef.of value.ipld = .ok blobs ∧
      record = .put write.collection write.rkey (cidFor bytes) (Backlink.of value.ipld) blobs) ∨
    write.record = none ∧ record = .delete write.collection write.rkey := by
  obtain ⟨blobs, cid, hb, hc, rfl⟩ := h
  unfold Write.blobs at hb
  unfold Write.encoded at hc
  cases hv : write.record with
  | none =>
    rw [hv] at hc
    cases hc
    exact Or.inr ⟨rfl, rfl⟩
  | some value =>
    rw [hv] at hb hc
    dsimp only at hc
    cases he : encode value.ipld with
    | error e =>
      rw [he] at hc
      cases hc
    | ok bytes =>
      rw [he] at hc
      cases hc
      refine Or.inl ⟨value, bytes, blobs, rfl, he, hb, ?_⟩
      unfold Write.indexed Write.links
      rw [hv]

theorem Write.Indexes.nodup_links {write : Write Cid} {record : Indexed Cid}
    (hw : write.Indexes record) : (record.links.map Backlink.path).Nodup := by
  rcases hw.eq_put_or_delete with ⟨value, bytes, blobs, -, -, -, rfl⟩ | ⟨-, rfl⟩
  · exact Backlink.nodup_of value.ipld
  · exact List.nodup_nil

variable [DecidableEq Cid]

namespace Tables.Mirrors

variable {write : Write Cid} {record : Indexed Cid}

/-- A record that has had its turn shows at its uri. -/
theorem turned_self (hw : write.Indexes record)
    (ht : Turned did rev record before after) :
    ((find RecordRow.uri (record.uri did) after.record).isSome = true →
      ∃ value, after.RecordAt (record.uri did) value ∧ after.Shows (record.uri did) value) ∧
    (find RecordRow.uri (record.uri did) after.record = none →
      (∀ cid, ⟨cid, record.uri did⟩ ∉ after.recordBlob) ∧
        ∀ row ∈ after.backlink, row.uri ≠ record.uri did) := by
  rcases hw.eq_put_or_delete with ⟨value, bytes, blobs, -, he, hb, rfl⟩ | ⟨-, rfl⟩
  · obtain ⟨row, hrow, hcid⟩ := Indexed.exists_find_put did rev write.collection write.rkey
      (cidFor bytes) (Backlink.of value.ipld) blobs before.record
    rw [← ht.record] at hrow
    refine ⟨fun _ => ⟨value, ⟨row, bytes, hrow, he, hcid⟩, ⟨blobs, hb, fun cid => ?_⟩,
      fun link => ?_⟩, fun hn => ?_⟩
    · simp [ht.mem_recordBlob, Indexed.blobs]
    · simp [ht.mem_backlink (Backlink.nodup_of value.ipld), Indexed.links]
    · rw [Indexed.uri, hrow] at hn
      cases hn
  · refine ⟨fun hs => ?_, fun _ => ⟨fun cid hm => ?_, fun row hm hu => ?_⟩⟩
    · rw [ht.record, Indexed.find_delete] at hs
      simp [Indexed.uri] at hs
    · simp [ht.mem_recordBlob, Indexed.blobs] at hm
    · simp [ht.mem_backlink List.nodup_nil, Indexed.links, hu] at hm

/-- Every other uri shows what it did. -/
theorem turned_other (h : before.Mirrors did) (hw : write.Indexes record)
    (ht : Turned did rev record before after) {at_ : Str} (hat : at_ ≠ record.uri did) :
    ((find RecordRow.uri at_ after.record).isSome = true →
      ∃ value, after.RecordAt at_ value ∧ after.Shows at_ value) ∧
    (find RecordRow.uri at_ after.record = none →
      (∀ cid, ⟨cid, at_⟩ ∉ after.recordBlob) ∧ ∀ row ∈ after.backlink, row.uri ≠ at_) := by
  have hlink := ht.mem_backlink hw.nodup_links
  constructor
  · intro hs
    rw [ht.find_ne hat] at hs
    obtain ⟨value, ⟨row, bytes, hrow, he, hcid⟩, hshow⟩ := h.present at_ hs
    refine ⟨value, ⟨row, bytes, ?_, he, hcid⟩, hshow.frame (fun cid => ?_) fun path linkTo => ?_⟩
    · rw [ht.find_ne hat]
      exact hrow
    · simp [ht.mem_recordBlob, hat]
    · simp [hlink, hat]
  · intro hn
    rw [ht.find_ne hat] at hn
    obtain ⟨hb, hl⟩ := h.absent at_ hn
    refine ⟨fun cid hm => ?_, fun row hm hu => ?_⟩
    · rcases (ht.mem_recordBlob _).mp hm with ⟨-, hm⟩ | ⟨hu, -⟩
      · exact hb cid hm
      · exact hat hu
    · rcases (hlink row).mp hm with ⟨-, hm⟩ | ⟨hu', -⟩
      · exact hl row hm hu
      · exact hat (hu.symm.trans hu')

theorem turned (h : before.Mirrors did) (hw : write.Indexes record)
    (ht : Turned did rev record before after) : after.Mirrors did := by
  have hat : ∀ at_, ((find RecordRow.uri at_ after.record).isSome = true →
        ∃ value, after.RecordAt at_ value ∧ after.Shows at_ value) ∧
      (find RecordRow.uri at_ after.record = none →
        (∀ cid, ⟨cid, at_⟩ ∉ after.recordBlob) ∧ ∀ row ∈ after.backlink, row.uri ≠ at_) := by
    intro at_
    by_cases hat : at_ = record.uri did
    · subst hat
      exact turned_self hw ht
    · exact h.turned_other hw ht hat
  refine ⟨?_, ?_, fun row hm => ?_, fun at_ => (hat at_).1, fun at_ => (hat at_).2⟩
  · rw [ht.record]
    exact Indexed.keyed_indexRow record h.keyed
  · rw [ht.backlink]
    exact keyed_relinked h.linkKeyed _ _
  · rw [ht.record] at hm
    rcases Indexed.mem_indexRow hm with ⟨held, hh, hu, hc, hr⟩ | hu
    · rw [← hu, ← hc, ← hr]
      exact h.named held hh
    · exact hu

omit [DecidableEq Cid] in
theorem frame (h : before.Mirrors did) (hr : after.record = before.record)
    (hl : after.backlink = before.backlink) (hb : after.recordBlob = before.recordBlob) :
    after.Mirrors did := by
  obtain ⟨hk, hlk, hn, hp, ha⟩ := h
  constructor
  · rwa [hr]
  · rwa [hl]
  · rwa [hr]
  · intro at_ hs
    rw [hr] at hs
    obtain ⟨value, ⟨row, bytes, hrow, he, hc⟩, hshow⟩ := hp at_ hs
    refine ⟨value, ⟨row, bytes, ?_, he, hc⟩, hshow.frame (fun cid => ?_) fun path linkTo => ?_⟩
    · rw [hr]
      exact hrow
    · rw [hb]
    · rw [hl]
  · intro at_ hs
    rw [hr] at hs
    rw [hl, hb]
    exact ha at_ hs

omit [DecidableEq Cid] in
theorem empty : (Tables.empty : Tables Cid).Mirrors did :=
  ⟨List.nodup_nil, List.nodup_nil, (fun _ h => nomatch h), (fun _ h => nomatch h),
    fun _ _ => ⟨fun _ => List.not_mem_nil, fun _ h => nomatch h⟩⟩

/-- A commit of what some writes come to leaves every uri showing what is at it. -/
theorem stored {actor : ActorState Cid} {revision : Revision Cid} (h : actor.tables.Mirrors did)
    (hw : revision.OfWrites) {u : Unit} {s : Landing Cid} (hs : actor.stored did revision = .ok u s) :
    s.tables.Mirrors did := by
  apply Landing.store_keeps _ _ actor.begun u s h hs
  · exact fun before after hr hl hb hm => hm.frame hr hl hb
  · intro record hm before after ht hbefore
    obtain ⟨write, hwrite⟩ := hw record hm
    exact hbefore.turned hwrite ht

end Tables.Mirrors

/-! ## Any database -/

/-- An account's database, after any commits, uploads and sweeps. A sweep is a statement for each
row it found, so it is taken a row at a time, and what becomes of the files between two steps is
left open. -/
inductive Stocked (did : Did) : ActorState Cid → Prop where
  | opened (files : BlobFiles Cid) : Stocked did ⟨Tables.empty, files⟩
  | commit {actor : ActorState Cid} {revision : Revision Cid} : Stocked did actor →
      revision.OfWrites → Stocked did (actor.commit did revision).2
  | addBlob {actor : ActorState Cid} (blob : Blob Cid) (key : Str) (now : Timestamp) :
      Stocked did actor → Stocked did { actor with tables := actor.tables.addBlob blob key now }
  | takeStale {actor : ActorState Cid} (found : Cid × Str) :
      Stocked did actor → Stocked did { actor with tables := actor.tables.takeStale found }
  | disk {actor : ActorState Cid} (files : BlobFiles Cid) :
      Stocked did actor → Stocked did { actor with files }

namespace Stocked

variable {actor : ActorState Cid}

/-- A sweep with nothing between its statements. -/
theorem sweepUnclaimed (h : Stocked did actor) (cutoff : Timestamp) :
    Stocked did { actor with tables := (actor.tables.sweepUnclaimed cutoff).1 } := by
  unfold Tables.sweepUnclaimed
  generalize actor.tables.stale cutoff = found
  induction found generalizing actor with
  | nil => exact h
  | cons first rest ih => exact ih (h.takeStale first)

theorem tied (h : Stocked did actor) : actor.tables.Tied [] := by
  induction h with
  | opened files => exact Tables.tied_empty
  | @commit actor revision _ _ ih =>
    rcases ActorState.commit_cases actor did revision with hc | ⟨s, hs, hc⟩
    · rw [hc]
      exact ih
    · rw [hc]
      exact (ActorState.under_stored ih hs).tied.frame rfl rfl
  | addBlob blob key now _ ih => exact ih.addBlob blob key now
  | takeStale found _ ih => exact ih.takeStale found
  | disk files _ ih => exact ih

theorem mirrors (h : Stocked did actor) : actor.tables.Mirrors did := by
  induction h with
  | opened files => exact Tables.Mirrors.empty
  | @commit actor revision _ hw ih =>
    rcases ActorState.commit_cases actor did revision with hc | ⟨s, hs, hc⟩
    · rw [hc]
      exact ih
    · rw [hc]
      exact (ih.stored hw hs).frame rfl rfl rfl
  | addBlob blob key now _ ih => exact ih.frame rfl rfl rfl
  | takeStale found _ ih => exact ih.frame rfl rfl rfl
  | disk files _ ih => exact ih

end Stocked

variable [LawfulCodec Cid]

omit [DecidableEq Cid] in
theorem Tables.RecordAt.inj {at_ : Str} {value value' : Value Cid} (h : tables.RecordAt at_ value)
    (h' : tables.RecordAt at_ value') : value = value' := by
  obtain ⟨row, b, hrow, he, hc⟩ := h
  obtain ⟨row', b', hrow', he', hc'⟩ := h'
  rw [hrow] at hrow'
  obtain rfl := Option.some.inj hrow'
  obtain rfl : b = b' := LawfulCodec.cidFor_injective (hc.symm.trans hc')
  obtain ⟨v, hv⟩ := value
  obtain ⟨v', hv'⟩ := value'
  obtain rfl : v = v' := encode_injective hv hv' he he'
  rfl

omit [DecidableEq Cid] in
/-- What stands beside a record's row is what the record says. -/
theorem Tables.Mirrors.shows (h : tables.Mirrors did) {at_ : Str} {value : Value Cid}
    (hv : tables.RecordAt at_ value) : tables.Shows at_ value := by
  have hs : (find RecordRow.uri at_ tables.record).isSome = true := by
    obtain ⟨row, bytes, hrow, -, -⟩ := hv
    rw [hrow]
    rfl
  obtain ⟨value', hv', hshow⟩ := h.present at_ hs
  rwa [hv.inj hv']

/-- Blob references are exact. -/
theorem blob_references_exact {actor : ActorState Cid} (h : Stocked did actor) :
    (∀ at_, find RecordRow.uri at_ actor.tables.record = none →
      ∀ cid, ⟨cid, at_⟩ ∉ actor.tables.recordBlob) ∧
    (∀ row ∈ actor.tables.record, ∃! record, actor.tables.RecordAt row.uri record) ∧
    (∀ at_ record, actor.tables.RecordAt at_ record → ∃ blobs, BlobRef.of record.ipld = .ok blobs ∧
      ∀ cid, ⟨cid, at_⟩ ∈ actor.tables.recordBlob ↔ cid ∈ blobs.map Blob.cid) ∧
    (∀ row ∈ actor.tables.recordBlob, ∃ blob ∈ actor.tables.blob, blob.cid = row.blobCid) ∧
    (∀ blob ∈ actor.tables.blob, blob.tempKey = none ↔
      ∃ row ∈ actor.tables.recordBlob, row.blobCid = blob.cid) ∧
    (∀ (revision : Revision Cid) (committed : Committed Cid) (actor' : ActorState Cid),
      actor.commit did revision = (.ok (some committed), actor') →
      committed.orphaned.Nodup ∧ ∀ cid, cid ∈ committed.orphaned ↔
        cid ∈ actor.tables.blobCids ∧ cid ∉ actor'.tables.blobCids) ∧
    ∀ (revision : Revision Cid) (answer : Except (StoreError Cid) (Option (Committed Cid)))
      (actor' : ActorState Cid), actor.commit did revision = (answer, actor') →
      (∀ committed, answer ≠ .ok (some committed)) → actor'.tables = actor.tables ∧
        ∀ cid, cid ∈ actor'.files.stored → cid ∈ actor.files.stored := by
  have hm := h.mirrors
  have ht := h.tied
  refine ⟨fun at_ hn => (hm.absent at_ hn).1, fun row hrow => ?_, fun at_ record hr => ?_,
    fun row hrow => ?_, fun blob hb => ht.tempKey_eq_none_iff hb, ?_, ?_⟩
  · have hs : (find RecordRow.uri row.uri actor.tables.record).isSome = true :=
      isSome_find.mpr ⟨row, hrow, rfl⟩
    obtain ⟨value, hv, -⟩ := hm.present row.uri hs
    exact ⟨value, hv, fun other ho => ho.inj hv⟩
  · exact (hm.shows hr).blobs
  · obtain ⟨blob, hb, hc, -⟩ := ht.backed row hrow
    exact ⟨blob, hb, hc⟩
  · intro revision committed actor' hc
    obtain ⟨s, hs, rfl, htab, -, -⟩ := ActorState.commit_landed hc
    have hunder := ActorState.under_stored ht hs
    refine ⟨hunder.accounted.nodup, fun cid => ?_⟩
    rw [htab]
    exact hunder.accounted.gone cid
  · intro revision answer actor' hc hn
    obtain ⟨htab, hfiles⟩ := ActorState.commit_lost_unchanged hc hn
    exact ⟨htab, fun cid hm => (hfiles cid).mp hm⟩

end

section

open DagCbor

/-- A blob of three bytes. -/
def picture : Blob RawCid := ⟨cidOf trivialDigest, text "image/png", 3⟩

theorem pictureRecord_wf : (Ipld.map [(text "$type", .string recordCollection.str),
    (text "image", .map [(text "$type", .string (text "blob")), (text "mimeType", .string picture.mime),
      (text "ref", .link picture.cid), (text "size", .integer 3)])] : Ipld RawCid).wf = true := by
  have h : ([text "$type", text "image"]).Pairwise (· < ·) := by decide
  have h' : ([text "$type", text "mimeType", text "ref", text "size"]).Pairwise (· < ·) := by decide
  rw [Ipld.wf_map, Bool.and_eq_true, decide_eq_true_eq]
  refine ⟨h, ?_⟩
  simp only [List.all_cons, List.all_nil, Ipld.wf_map, Bool.and_true, Bool.and_eq_true,
    decide_eq_true_eq]
  exact ⟨rfl, h', rfl, rfl, rfl, rfl⟩

/-- A record that names it. -/
def pictureRecord : Value RawCid := ⟨_, pictureRecord_wf⟩

theorem pictureRev_valid : Tid.validate (text "3jqfcqzm3fo2j") = .ok () := rfl

def pictureRoot : Root RawCid := ⟨cidOf pointerDigest, ⟨text "3jqfcqzm3fo2j", pictureRev_valid⟩⟩

/-- The record goes in, and the blob uploaded for it with it. -/
def pictured : Revision RawCid :=
  ⟨none, pictureRoot, ∅, [],
    [.put recordCollection recordKey (DagCbor.cidFor (enc pictureRecord.ipld)) [] [picture]]⟩

/-- The record goes again. -/
def unpictured : Revision RawCid :=
  ⟨some pictureRoot, pictureRoot, ∅, [], [.delete recordCollection recordKey]⟩

def uploaded : ActorState RawCid :=
  ⟨(Tables.empty : Tables RawCid).addBlob picture (text "upload") 0, ⟨[], [text "upload"]⟩⟩

theorem stocked_pictured : Stocked recordDid (uploaded.commit recordDid pictured).2 := by
  have hup : Stocked recordDid uploaded :=
    Stocked.addBlob picture (text "upload") 0 (.opened ⟨[], [text "upload"]⟩)
  apply hup.commit
  intro record hm
  obtain rfl := List.mem_singleton.mp hm
  exact ⟨.create recordCollection recordKey pictureRecord, [picture],
    some (DagCbor.cidFor (enc pictureRecord.ipld)), rfl, rfl, rfl⟩

theorem blob_references_pictured :
    (uploaded.commit recordDid pictured).2.tables.recordBlob =
      [⟨picture.cid, uri recordDid recordCollection recordKey⟩] ∧
    ∃ committed actor', (uploaded.commit recordDid pictured).2.commit recordDid unpictured =
        (.ok (some committed), actor') ∧ picture.cid ∈ committed.orphaned := by
  obtain ⟨-, -, -, -, -, horphaned, -⟩ := blob_references_exact stocked_pictured
  refine ⟨rfl, _, _, rfl, ?_⟩
  exact ((horphaned unpictured _ _ rfl).2 picture.cid).mpr (by decide)

end

end Manapds
