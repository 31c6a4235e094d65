import Manapds.Store.Files

/-!
# A commit that nothing disturbs

The steps of a commit, put to a database and a disk that nothing else uses, are those of
`ActorState.commit`, which takes them all at once.
-/

namespace Manapds

open QueryProgram Transaction

variable {Cid : Type} [DecidableEq Cid] {did : Did}

namespace Storage

/-- The files of an account as `ActorState` has them. -/
structure Shows (s : Storage Cid) (files : BlobFiles Cid) : Prop where
  stored : ∀ cid, cid ∈ files.stored ↔ s.disk.file (.served cid) ≠ none
  uploads : ∀ key, files.uploads.contains key = true ↔ s.disk.file (.upload key) ≠ none

omit [DecidableEq Cid] in
theorem Shows.of_file_eq {s s' : Storage Cid} {files : BlobFiles Cid} (h : s.Shows files)
    (he : s'.disk.file = s.disk.file) : s'.Shows files := by
  constructor
  · rw [he]
    exact h.stored
  · rw [he]
    exact h.uploads

end Storage

/-- A landing without its files. -/
def Landing.bare (l : Landing Cid) : Landing Cid := { l with files := ⟨[], []⟩ }

namespace Transacting

variable {α β : Type} {planned : Option (Revision Cid)}

/-- A computation comes to a value or an error in the state it had reached. -/
def came {ε σ : Type} : EStateM.Result ε σ α → Except ε α
  | .ok a _ => .ok a
  | .error e _ => .error e

/-- Put to a database and a disk that nothing else uses, a routine comes to `r`. -/
structure ComesTo (planned : Option (Revision Cid)) (s : Storage Cid)
    (p : Committing Cid (Except (StoreError Cid) α × Landing Cid))
    (r : EStateM.Result (StoreError Cid) (Landing Cid) α) (s' : Storage Cid) : Prop where
  play : p.play (Storage.carry planned) s = ((came r, (final r).bare), s')
  shows_ : s'.Shows (final r).files
  tables : s'.tables = s.tables
  under : s'.transaction ≠ none

/-- Put to a database and a disk that nothing else uses, `t` does what `m` says. -/
def Follows (planned : Option (Revision Cid)) (t : Transacting Cid α)
    (m : EStateM (StoreError Cid) (Landing Cid) α) : Prop :=
  ∀ (l : Landing Cid) (s : Storage Cid), s.Shows l.files → s.transaction ≠ none →
    ∃ s', ComesTo planned s (t l.bare) (m l) s'

theorem Follows.bind {t : Transacting Cid α} {m : EStateM (StoreError Cid) (Landing Cid) α}
    {f : α → Transacting Cid β} {g : α → EStateM (StoreError Cid) (Landing Cid) β}
    (ht : Follows planned t m) (hf : ∀ a, Follows planned (f a) (g a)) :
    Follows planned (t >>= f) (m >>= g) := by
  intro l s hs hn
  obtain ⟨s1, hplay, hs1, htab, hn1⟩ := ht l s hs hn
  have hbind : ((t >>= f) l.bare).play (Storage.carry planned) s = _ := Program.play_bind ..
  rw [hplay] at hbind
  cases hm : m l with
  | ok a l1 =>
    have hbound : (m >>= g) l = g a l1 := by
      change EStateM.bind m g l = _
      unfold EStateM.bind
      rw [hm]
    rw [hm] at hs1 hbind
    rw [hbound]
    obtain ⟨s2, hplay2, hs2, htab2, hn2⟩ := hf a l1 s1 hs1 hn1
    exact ⟨s2, hbind.trans hplay2, hs2, htab2.trans htab, hn2⟩
  | error e l1 =>
    have hbound : (m >>= g) l = .error e l1 := by
      change EStateM.bind m g l = _
      unfold EStateM.bind
      rw [hm]
    rw [hm] at hs1 hbind
    rw [hbound]
    exact ⟨s1, hbind, hs1, htab, hn1⟩

theorem Follows.forM {f : β → Transacting Cid PUnit}
    {g : β → EStateM (StoreError Cid) (Landing Cid) PUnit} (h : ∀ b, Follows planned (f b) (g b))
    (l : List β) : Follows planned (l.forM f) (l.forM g) := by
  induction l with
  | nil => exact fun l s hs hn => ⟨s, rfl, hs, rfl, hn⟩
  | cons b l ih => exact Follows.bind (h b) fun _ => ih

theorem follows_carryOut {f : Landing Cid → Landing Cid} (hb : ∀ l : Landing Cid, f l.bare = (f l).bare)
    (hf : ∀ l, (f l).files = l.files) : Follows planned (carryOut f) (modify f) := by
  intro l s hs hn
  refine ⟨s, ?_, ?_, rfl, hn⟩
  · change ((Except.ok (), f l.bare), s) = ((Except.ok (), (f l).bare), s)
    rw [hb]
  · change s.Shows (f l).files
    rwa [hf]

/-- A file is claimed as `BlobFiles.claim` says. -/
theorem claimFile_comes (planned : Option (Revision Cid)) (key : Str) (cid : Cid) {l : Landing Cid}
    {s : Storage Cid} (hs : s.Shows l.files) (hn : s.transaction ≠ none) :
    (l.files.claim key cid = .error .io ∧
      (claimFile key cid l.bare).play (Storage.carry planned) s = ((.error .io, l.bare), s)) ∨
    ∃ linked files s', l.files.claim key cid = .ok (linked, files) ∧
      (claimFile key cid l.bare).play (Storage.carry planned) s = ((.ok linked, l.bare), s') ∧
      s'.Shows files ∧ s'.tables = s.tables ∧ s'.transaction ≠ none := by
  obtain ⟨taken, ht⟩ := Option.ne_none_iff_exists'.mp hn
  obtain ⟨next, hask, hlinked, hrefused, opened, hexists, hopened⟩ :
      ∃ next : Linking → Committing Cid (Except (StoreError Cid) Bool × Landing Cid),
        claimFile key cid l.bare = .ask (.link key cid) next ∧
        next .linked = .done (.ok true, l.bare) ∧ next .refused = .done (.error .io, l.bare) ∧
        ∃ opened : Option ℕ → Committing Cid (Except (StoreError Cid) Bool × Landing Cid),
          next .alreadyExists = .ask (.openFile cid) opened ∧ ∀ file s,
            (opened (some file)).play (Storage.carry planned) s =
              ((.ok false, l.bare), { s with disk := s.disk.setModified file 0 }) :=
    ⟨_, rfl, rfl, rfl, _, rfl, fun _ _ => rfl⟩
  have hplay : (claimFile key cid l.bare).play (Storage.carry planned) s =
      (next (s.link key cid).1).play (Storage.carry planned) (s.link key cid).2 := by
    rw [hask]
    rfl
  have hstored := hs.stored cid
  have huploads := hs.uploads key
  cases hu : s.disk.file (.upload key) with
  | none =>
    have hlink : s.link key cid = (.refused, s) := by simp [Storage.link, ht, hu]
    rw [hu] at huploads
    have hnone : l.files.uploads.contains key = false := by simpa using huploads
    left
    refine ⟨if_pos hnone, ?_⟩
    rw [hplay, hlink, hrefused]
    rfl
  | some file =>
    rw [hu] at huploads
    have hsome : l.files.uploads.contains key = true := huploads.mpr (Option.some_ne_none file)
    have hclaim : l.files.claim key cid = if cid ∈ l.files.stored then .ok (false, l.files)
        else .ok (true, { l.files with stored := cid :: l.files.stored }) := if_neg (by rw [hsome]; simp)
    right
    cases hf : s.disk.file (.served cid) with
    | none =>
      have hlink : s.link key cid = (.linked, ⟨s.tables, s.disk.link cid file, some (cid :: taken)⟩) := by
        simp [Storage.link, ht, hu, hf]
      have hfree : cid ∉ l.files.stored := by simp [hstored, hf]
      refine ⟨true, { l.files with stored := cid :: l.files.stored },
        ⟨s.tables, s.disk.link cid file, some (cid :: taken)⟩, ?_, ?_, ?_, rfl, by simp⟩
      · rw [hclaim, if_neg hfree]
      · rw [hplay, hlink, hlinked]
        rfl
      · constructor
        · intro held
          by_cases hc : held = cid
          · simp [Disk.link, hc]
          · simp [Disk.link, hc, hs.stored]
        · intro held
          simpa [Disk.link] using hs.uploads held
    | some held =>
      have hlink : s.link key cid = (.alreadyExists, s) := by simp [Storage.link, ht, hu, hf]
      have hopen : s.openFile cid = (some held, { s with transaction := some (cid :: taken) }) := by
        simp [Storage.openFile, ht, hf]
      have hthere : cid ∈ l.files.stored := by simp [hstored, hf]
      refine ⟨false, l.files, ⟨s.tables, s.disk.setModified held 0, some (cid :: taken)⟩, ?_, ?_, ?_,
        rfl, by simp⟩
      · rw [hclaim, if_pos hthere]
      · rw [hplay, hlink, hexists]
        change (opened (s.openFile cid).1).play _ (s.openFile cid).2 = _
        rw [hopen, hopened]
      · exact hs.of_file_eq rfl

theorem follows_claim (at_ : Str) (blob : Blob Cid) :
    Follows planned (claim at_ blob) (Landing.claim at_ blob) := by
  intro l s hs hn
  have hplay : (claim at_ blob l.bare).play (Storage.carry planned) s =
      (claimRow at_ blob (l.tables.blob.find? fun row =>
        row.cid = blob.cid && row.takedownRef.isNone) l.bare).play (Storage.carry planned) s := rfl
  have htie : ∀ l : Landing Cid, (l.bare.tie at_ blob.cid) = (l.tie at_ blob.cid).bare := fun _ => rfl
  cases hrow : l.tables.blob.find? fun row => row.cid = blob.cid && row.takedownRef.isNone with
  | none =>
    rw [hrow] at hplay
    simp only [Landing.claim, hrow]
    exact ⟨s, hplay, hs, rfl, hn⟩
  | some row =>
    rw [hrow] at hplay
    simp only [Landing.claim, hrow]
    unfold claimRow at hplay
    dsimp only at hplay
    cases hkey : row.tempKey with
    | none => 
      rw [hkey] at hplay
      exact ⟨s, hplay, hs, rfl, hn⟩
    | some key =>
      rw [hkey] at hplay
      dsimp only at hplay ⊢
      cases hmis : Landing.mismatch row blob with
      | some e =>
        rw [hmis] at hplay
        exact ⟨s, hplay, hs, rfl, hn⟩
      | none =>
        rw [hmis] at hplay
        dsimp only at hplay ⊢
        have hbind : _ = _ := hplay.trans (Program.play_bind ..)
        unfold Landing.takeUpload
        rcases claimFile_comes planned key blob.cid hs hn with
          ⟨hclaim, hfile⟩ | ⟨linked, files, s', hclaim, hfile, hs', htab, hn'⟩
        · rw [hfile] at hbind
          rw [hclaim]
          exact ⟨s, hbind, hs, rfl, hn⟩
        · rw [hfile] at hbind
          rw [hclaim]
          exact ⟨s', hbind, hs', htab, hn'⟩

theorem follows_indexOne (rev : Tid) (kept : List Cid) (record : Indexed Cid) :
    Follows planned (indexOne did rev kept record) (Landing.indexOne did rev kept record) := by
  rw [indexOne_eq, Landing.indexOne_eq]
  apply Follows.bind
  · apply follows_carryOut
    · intro l
      rw [Landing.relink_eq, Landing.relink_eq]
      rfl
    · intro l
      rw [Landing.relink_eq]
  intro _
  apply Follows.bind
  · apply follows_carryOut
    · intro l
      rw [Landing.dereference_eq, Landing.dereference_eq]
      rfl
    · intro l
      rw [Landing.dereference_eq]
  intro _
  apply Follows.bind
  · exact Follows.forM (fun blob => follows_claim (record.uri did) blob) record.blobs
  intro _
  apply follows_carryOut
  · exact fun _ => rfl
  · exact fun _ => rfl

theorem follows_store (revision : Revision Cid) : Follows planned (store did revision)
    (Landing.store did revision.root revision.written revision.dropped revision.records) := by
  apply Follows.bind
  · apply follows_carryOut
    · intro l
      rw [Landing.insertBlocks_eq, Landing.insertBlocks_eq]
      rfl
    · intro l
      rw [Landing.insertBlocks_eq]
  intro _
  apply Follows.bind
  · exact Follows.forM (fun record => follows_indexOne _ _ record) revision.records
  intro _
  apply Follows.bind
  · apply follows_carryOut
    · intro l
      rw [Landing.forgetBlocks_eq, Landing.forgetBlocks_eq]
      rfl
    · intro l
      rw [Landing.forgetBlocks_eq]
  intro _
  apply follows_carryOut
  · intro l
    rw [Landing.sweepKept_eq, Landing.sweepKept_eq]
    rfl
  · intro l
    rw [Landing.sweepKept_eq]

/-- A transaction that is under way is committed. -/
theorem play_land {s : Storage Cid} (hn : s.transaction ≠ none) (cleared : Committed Cid)
    (tables : Tables Cid) (l : Landing Cid) :
    (land cleared (.ok (some tables)) l).play (Storage.carry planned) s =
      ((.ok (some cleared), l), ⟨tables, s.disk, none⟩) := by
  obtain ⟨next, hnext, htrue⟩ :
      ∃ next : Bool → Committing Cid (Except (StoreError Cid) (Option (Committed Cid)) × Landing Cid),
        land cleared (.ok (some tables)) l = .ask (.commit tables) next ∧
        next true = .done (.ok (some cleared), l) := ⟨_, rfl, rfl⟩
  obtain ⟨taken, ht⟩ := Option.ne_none_iff_exists'.mp hn
  have hcommit : s.commit tables = (true, ⟨tables, s.disk, none⟩) := by simp [Storage.commit, ht]
  rw [hnext]
  change (next (s.commit tables).1).play _ (s.commit tables).2 = _
  rw [hcommit, htrue]
  rfl

end Transacting

namespace Storage

/-- The files a transaction linked are gone, and the transaction with them. -/
def takenBack (s : Storage Cid) (linked : List Cid) : Storage Cid :=
  ⟨s.tables, linked.foldl (fun disk cid => disk.remove (.served cid)) s.disk, none⟩

theorem Shows.remove {s : Storage Cid} {files : BlobFiles Cid} (h : s.Shows files) (cid : Cid) :
    ({ s with disk := s.disk.remove (.served cid) } : Storage Cid).Shows (files.delete cid) := by
  constructor
  · intro held
    rw [BlobFiles.mem_stored_delete, h.stored]
    by_cases hc : held = cid
    · simp [Disk.remove, hc]
    · simp [Disk.remove, hc]
  · intro key
    simpa [Disk.remove, BlobFiles.delete] using h.uploads key

theorem Shows.takenBack {s : Storage Cid} {files : BlobFiles Cid} (h : s.Shows files)
    (linked : List Cid) : (s.takenBack linked).Shows (linked.foldl BlobFiles.delete files) := by
  induction linked generalizing s files with
  | nil => exact h.of_file_eq rfl
  | cons cid linked ih => exact ih (h.remove cid)

end Storage

namespace Committing

variable {planned : Option (Revision Cid)}

/-- What does not land takes back what it linked. -/
theorem play_settle (landed : Except (StoreError Cid) (Option (Committed Cid))) (l : Landing Cid)
    (hn : ∀ committed, landed ≠ .ok (some committed)) (s : Storage Cid) :
    (settle landed l).play (Storage.carry planned) s = (landed, s.takenBack l.linked) := by
  have hdeletes : ∀ (linked : List Cid) (s : Storage Cid), s.transaction = none →
      (linked.forM fun cid => step (.delete cid)).play (Storage.carry planned) s =
        ((), s.takenBack linked) := by
    intro linked
    induction linked with
    | nil =>
      rintro ⟨tables, disk, _⟩ rfl
      rfl
    | cons cid linked ih => exact fun s ht => ih _ ht
  rw [settle_eq hn]
  change (Program.bind (List.forM l.linked _) _).play _ ({ s with transaction := none } : Storage Cid) = _
  rw [Program.play_bind, hdeletes _ _ rfl]
  rfl

/-- A commit is its transaction, and what is settled after it. -/
theorem play_commit_eq (revision : Revision Cid) {s : Storage Cid} (ht : s.transaction = none) :
    (commit did revision).play (Storage.carry planned) s =
      let r := (Transacting.landing did revision ⟨s.tables, ⟨[], []⟩, ⟨[], []⟩, []⟩).play
        (Storage.carry planned) { s with transaction := some [] }
      (settle r.1.1 r.1.2).play (Storage.carry planned) r.2 := by
  obtain ⟨next, hnext, hsome⟩ : ∃ next : Option (Tables Cid) →
      Committing Cid (Except (StoreError Cid) (Option (Committed Cid))),
      commit did revision = .ask .transaction next ∧ ∀ tables, next (some tables) =
        (Transacting.landing did revision ⟨tables, ⟨[], []⟩, ⟨[], []⟩, []⟩).bind
          fun r => settle r.1 r.2 := ⟨_, rfl, fun _ => rfl⟩
  have htransact : s.transact = (some s.tables, { s with transaction := some [] }) := by
    simp [Storage.transact, ht]
  rw [hnext]
  change (next s.transact.1).play _ s.transact.2 = _
  rw [htransact, hsome, Program.play_bind]

/-- Put to a database and a disk that nothing else uses, a commit does what `ActorState.commit`
says. -/
theorem play_commit (revision : Revision Cid) {s : Storage Cid} {files : BlobFiles Cid}
    (hs : s.Shows files) (ht : s.transaction = none) : ∃ s' : Storage Cid,
      (commit did revision).play (Storage.carry planned) s =
        (((⟨s.tables, files⟩ : ActorState Cid).commit did revision).1, s') ∧
      s'.tables = ((⟨s.tables, files⟩ : ActorState Cid).commit did revision).2.tables ∧
      s'.Shows ((⟨s.tables, files⟩ : ActorState Cid).commit did revision).2.files ∧
      s'.transaction = none := by
  obtain ⟨l, hl⟩ : ∃ l : Landing Cid, l = ⟨s.tables, files, ⟨[], []⟩, []⟩ := ⟨_, rfl⟩
  have hfollows : Transacting.Follows planned (Transacting.store did revision) _ :=
    Transacting.follows_store revision
  have hbegun : ({ s with transaction := some [] } : Storage Cid).Shows l.files := by
    rw [hl]
    exact hs.of_file_eq rfl
  have hbare : l.bare = ⟨s.tables, ⟨[], []⟩, ⟨[], []⟩, []⟩ := by
    rw [hl]
    rfl
  obtain ⟨s1, hplay, hs1, htab, hn1⟩ := hfollows l _ hbegun (by simp)
  have hlanding : (Transacting.landing did revision l.bare).play (Storage.carry planned)
      { s with transaction := some [] } = _ := Program.play_bind ..
  have hwhole : (commit did revision).play (Storage.carry planned) s = _ := play_commit_eq revision ht
  rw [hplay] at hlanding
  rw [← hbare] at hwhole
  dsimp only at hwhole
  unfold ActorState.commit
  dsimp only
  rw [← hl]
  cases hm : Landing.store did revision.root revision.written revision.dropped revision.records l with
  | error e l1 =>
    rw [hm] at hlanding hs1
    rw [hlanding] at hwhole
    change _ = (settle (.error e) l1.bare).play _ s1 at hwhole
    rw [play_settle _ _ (by simp)] at hwhole
    exact ⟨_, hwhole, htab, hs1.takenBack l1.linked, rfl⟩
  | ok u l1 =>
    rw [hm] at hlanding hs1
    change _ = (Transacting.land l1.cleared (l1.tables.moveRoot revision.start revision.root)
      l1.bare).play _ s1 at hlanding
    dsimp only
    cases hmove : l1.tables.moveRoot revision.start revision.root with
    | error e =>
      rw [hmove] at hlanding
      rw [hlanding] at hwhole
      change _ = (settle (.error e) l1.bare).play _ s1 at hwhole
      rw [play_settle _ _ (by simp)] at hwhole
      exact ⟨_, hwhole, htab, hs1.takenBack l1.linked, rfl⟩
    | ok moved =>
      rw [hmove] at hlanding
      cases moved with
      | none =>
        rw [hlanding] at hwhole
        change _ = (settle (.ok none) l1.bare).play _ s1 at hwhole
        rw [play_settle _ _ (by simp)] at hwhole
        exact ⟨_, hwhole, htab, hs1.takenBack l1.linked, rfl⟩
      | some tables =>
        rw [Transacting.play_land hn1] at hlanding
        rw [hlanding] at hwhole
        exact ⟨_, hwhole, rfl, hs1.of_file_eq rfl, rfl⟩

section

theorem playedDid_valid : Did.validate (text "did:web:played.example") = .ok () := by decide

theorem playedCollection_valid : Nsid.validate (text "com.example.record") = .ok () := rfl

theorem playedKey_valid : RecordKey.validate (text "3jqfcqzm3fo2j") = .ok () := rfl

theorem playedRev_valid : Tid.validate (text "3jqfcqzm3fo2j") = .ok () := rfl

def playedDid : Did := ⟨text "did:web:played.example", playedDid_valid⟩

def playedRoot (cid : ℕ) : Root ℕ := ⟨cid, ⟨text "3jqfcqzm3fo2j", playedRev_valid⟩⟩

def playedBlob : Blob ℕ := ⟨7, text "image/png", 9⟩

/-- A record that names a blob, worked out on some root. -/
def playedRevision (start : ℕ) : Revision ℕ :=
  ⟨some (playedRoot start), playedRoot 2, ∅, [], [.put ⟨text "com.example.record",
    playedCollection_valid⟩ ⟨text "3jqfcqzm3fo2j", playedKey_valid⟩ 5 [] [playedBlob]]⟩

/-- The blob is there for a record to name. -/
def playedStorage : Storage ℕ :=
  ⟨{ (Tables.empty : Tables ℕ).addBlob playedBlob (text "upload") 0 with
    repoRoot := some (playedRoot 1) }, Disk.empty.put (text "upload") 0 0, none⟩

/-- A commit that lands claims the blob's file, and one whose root has moved takes back its link. -/
theorem play_commit_claimed : ∃ landed lost : Storage ℕ,
    (commit playedDid (playedRevision 1)).play (Storage.carry none) playedStorage =
      (.ok (some ⟨[], [text "upload"]⟩), landed) ∧
    landed.tables.repoRoot = some (playedRoot 2) ∧ landed.disk.file (.served 7) ≠ none ∧
    (commit playedDid (playedRevision 3)).play (Storage.carry none) playedStorage =
      (.ok none, lost) ∧
    lost.tables = playedStorage.tables ∧ lost.disk.file (.served 7) = none := by
  have hshows : playedStorage.Shows ⟨[], [text "upload"]⟩ := by
    constructor
    · intro cid
      simp [playedStorage, Disk.put, Disk.empty]
    · intro key
      by_cases hkey : key = text "upload" <;> simp [playedStorage, Disk.put, Disk.empty, hkey]
  obtain ⟨landed, hplay, htables, hfiles, -⟩ :=
    @play_commit ℕ _ playedDid none (playedRevision 1) _ _ hshows rfl
  obtain ⟨lost, hplay', htables', hfiles', -⟩ :=
    @play_commit ℕ _ playedDid none (playedRevision 3) _ _ hshows rfl
  refine ⟨landed, lost, hplay, ?_, ?_, hplay', htables', ?_⟩
  · rw [htables]
    rfl
  · exact (hfiles.stored 7).mp (by decide)
  · by_contra hne
    exact absurd ((hfiles'.stored 7).mpr hne) (by decide)

end

end Committing

end Manapds
