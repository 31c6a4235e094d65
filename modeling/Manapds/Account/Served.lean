import Manapds.Account.Serving

/-!
# A claimed blob and its file

What sweeps takes a file it has asked about, and a commit may take the blob of that file before it is
gone. Where no commit does, a claimed blob has its file between any two steps.
-/

namespace Manapds

open QueryProgram

variable {Cid : Type}

namespace Serving

/-! ## What has been asked -/

/-- What sweeps: the call with the turn, where that is clearing up, or a task. -/
def sweeper (s : Serving Cid) : Option ℕ → Option (Task Cid Unit)
  | some i => s.tasks i
  | none => match s.turn with
    | some (.clearing rest) => some rest
    | _ => none

variable {s s' : Serving Cid} {e : Event Cid} {past : List (Event Cid)} {who : Option ℕ}
  {checked : Checked Cid}

/-- A blob that has been found to be without a row is free, unless a commit has taken it since. -/
def Clear (storage : Storage Cid) (past : List (Event Cid)) (who : Option ℕ)
    (checked : Checked Cid) : Prop := ∀ cid, checked cid → Crossed cid past who ∨ storage.Free cid

/-- A step asks nothing for what sweeps, which is what it was. -/
def Event.Passes (who : Option ℕ) : Event Cid → Prop
  | .unheld asker _ => asker ≠ who
  | .blobCids asker => asker ≠ who
  | .drop i => who ≠ some i
  | _ => True

theorem Crossed.cons {cid : Cid} (h : Crossed cid past who) (he : e.Passes who) :
    Crossed cid (e :: past) who := by
  cases e with
  | unheld asker asked => exact ⟨fun hsame => he hsame.1, h⟩
  | blobCids asker => exact ⟨he, h⟩
  | take taken => exact Or.inr h
  | drop i =>
    rw [Crossed, if_neg he]
    exact h
  | remove | other => exact h

theorem Clear.cons {storage storage' : Storage Cid} (h : Clear storage past who checked)
    (he : e.Passes who) (hf : ∀ cid, storage.Free cid → e = .take cid ∨ storage'.Free cid) :
    Clear storage' (e :: past) who checked := by
  intro cid hc
  rcases h cid hc with hcrossed | hfree
  · exact Or.inl (hcrossed.cons he)
  · rcases hf cid hfree with rfl | hfree
    · exact Or.inl (Or.inl rfl)
    · exact Or.inr hfree

end Serving

namespace Storage.Does

open Serving

variable [DecidableEq Cid] {s s' : Storage Cid} {e : Event Cid} {past : List (Event Cid)}
  {who other : Option ℕ} {checked : Checked Cid} {q : FilesQuery Cid} {x : q.Answer}

/-- Nothing is asked for others. -/
theorem passes (hd : s.Does who e q x s') (hn : other ≠ who) : e.Passes other := by
  cases hd with
  | unheld | blobCids => exact hn.symm
  | remove name => cases name <;> trivial
  | _ => trivial

/-- What has found a blob to be without a row has found it free. -/
theorem clear (hd : s.Does who e q x s') (hs : s.Serves) (h : Clear s past who checked) :
    Clear s' (e :: past) who (checked.move q x) := by
  have hfree : ∀ cid, s.Free cid → e = .take cid ∨ s'.Free cid := fun cid hf => Or.inr (hd.free hf)
  cases hd with
  | unheld cid =>
    intro asked hc
    by_cases hasked : asked = cid
    · subst hasked
      cases hu : s.tables.unheld asked with
      | true => exact Or.inr (hs.free_of_not_mem (Tables.unheld_eq_true.mp hu))
      | false =>
        rw [hu] at hc
        exact absurd rfl hc.1
    · have hbefore : checked asked := by
        cases hu : s.tables.unheld cid with
        | true =>
          rw [hu] at hc
          exact hc.resolve_left hasked
        | false =>
          rw [hu] at hc
          exact hc.2
      exact (h asked hbefore).imp_left fun hcrossed => ⟨fun he => hasked he.2.symm, hcrossed⟩
  | blobCids => exact fun cid hc => Or.inr (hs.free_of_not_mem hc)
  | @readDir directory names within =>
    intro cid hc
    rcases hc with hc | ⟨name, hm, hd⟩
    · exact h cid hc
    · exact absurd (within name hm) hd
  | remove name => cases name <;> exact h.cons trivial hfree
  | _ => exact h.cons trivial hfree

/-- What may take files takes those it has asked about. -/
theorem of_remove {cid : Cid} (hd : s.Does who (.remove who cid) q x s') (hc : checked.Demands q) :
    checked cid := by
  generalize he : Event.remove who cid = e at hd
  cases hd with
  | remove name =>
    cases name with
    | served held =>
      cases he
      exact hc
    | upload key => cases he
  | _ => cases he

end Storage.Does

theorem Storage.Commits.passes [DecidableEq Cid] [Codec Cid] {s s' : Storage Cid}
    {e : Serving.Event Cid} {q : CommitQuery Cid} {x : q.Answer} (hc : s.Commits e q x s')
    (who : Option ℕ) : e.Passes who := by
  cases hc <;> trivial

theorem Storage.Commits.kept [DecidableEq Cid] [Codec Cid] {s s' : Storage Cid}
    {e : Serving.Event Cid} {q : CommitQuery Cid} {x : q.Answer} (hc : s.Commits e q x s')
    (past : List (Serving.Event Cid)) : Serving.Kept past e := by
  cases hc <;> trivial

/-! ## What holds between two steps -/

namespace Serving

variable {s s' : Serving Cid} {e : Event Cid} {past : List (Event Cid)} {who : Option ℕ}
  {checked : Checked Cid}

structure Sound (s : Serving Cid) (past : List (Event Cid)) : Prop where
  serves : s.storage.Serves
  working : ∀ waits rest, s.turn = some (.committing waits rest) → ∃ h,
    rest.Meets (Holding.watch Cid) (fun _ h => h.under = none) h ∧ s.storage.Holds h
  idle : (∀ waits rest, s.turn ≠ some (.committing waits rest)) → s.storage.transaction = none
  sweeping : ∀ who rest, s.sweeper who = some rest →
    ∃ checked : Checked Cid, checked.Allows rest ∧ Clear s.storage past who checked

namespace Sound

/-- A task begins with nothing asked. -/
theorem started (h : s.Sound past) (i : ℕ) {rest : Task Cid Unit}
    (ha : Checked.nothing.Allows rest) : (s.resume i rest).Sound (.other :: past) := by
  refine ⟨h.serves, h.working, h.idle, fun who rest' hr => ?_⟩
  by_cases hwho : who = some i
  · subst hwho
    simp only [sweeper, resume, Function.update_self] at hr
    cases hr
    exact ⟨_, ha, fun _ hc => hc.elim⟩
  · have hold : s.sweeper who = some rest' := by
      cases who with
      | none => exact hr
      | some j =>
        have hj : j ≠ i := fun he => hwho (congrArg some he)
        simpa only [sweeper, resume, Function.update_of_ne hj] using hr
    obtain ⟨checked, hallows, hclear⟩ := h.sweeping who rest' hold
    exact ⟨checked, hallows, hclear.cons trivial fun _ hf => Or.inr hf⟩

/-- A call goes on, and the tasks have asked what they had. -/
theorem sweeping_turned (h : s.Sound past) {storage : Storage Cid} {turn : Option (Stage Cid)}
    (he : ∀ who, e.Passes who)
    (hf : ∀ cid, s.storage.Free cid → e = .take cid ∨ storage.Free cid)
    (hturn : ∀ rest, turn = some (.clearing rest) →
      ∃ checked : Checked Cid, checked.Allows rest ∧ Clear storage (e :: past) none checked) :
    ∀ who rest, sweeper ⟨storage, turn, s.tasks⟩ who = some rest →
      ∃ checked : Checked Cid, checked.Allows rest ∧ Clear storage (e :: past) who checked := by
  intro who rest hr
  cases who with
  | some i =>
    obtain ⟨checked, hallows, hclear⟩ := h.sweeping (some i) rest hr
    exact ⟨checked, hallows, hclear.cons (he _) hf⟩
  | none =>
    unfold sweeper at hr
    dsimp only at hr
    split at hr
    · cases hr
      exact hturn _ rfl
    · cases hr

/-- The turn is let go of, or its call goes on to what has no transaction. -/
theorem turned (h : s.Sound past) (ht : s.storage.transaction = none) {turn : Option (Stage Cid)}
    (hn : ∀ waits rest, turn ≠ some (.committing waits rest))
    (hturn : ∀ rest, turn = some (.clearing rest) → Checked.nothing.Allows rest) :
    Sound { s with turn } (.other :: past) := by
  refine ⟨h.serves, fun waits rest hr => absurd hr (hn waits rest), fun _ => ht, ?_⟩
  apply h.sweeping_turned (e := .other) (fun _ => trivial) fun _ hf => Or.inr hf
  exact fun rest hr => ⟨_, hturn rest hr, fun _ hc => hc.elim⟩

/-- A call that has come to its end has left no transaction. -/
theorem transaction_eq_none (h : s.Sound past) {waits : Bool}
    {r : Option (Committed Cid)} (ends : s.turn = some (.committing waits (.done r))) :
    s.storage.transaction = none := by
  obtain ⟨held, hmeets, hh⟩ := h.working _ _ ends
  have hu : held.under = none := hmeets
  rw [hh.transaction, hu]
  rfl

/-- `commit_writes` goes on. -/
theorem committing (h : s.Sound past) {storage : Storage Cid} {waits : Bool}
    {rest : Committing Cid (Option (Committed Cid))} {held : Holding Cid} (hs : storage.Serves)
    (hm : rest.Meets (Holding.watch Cid) (fun _ h => h.under = none) held) (hh : storage.Holds held)
    (he : ∀ who, e.Passes who)
    (hf : ∀ cid, s.storage.Free cid → e = .take cid ∨ storage.Free cid) :
    Sound ⟨storage, some (.committing waits rest), s.tasks⟩ (e :: past) := by
  refine ⟨hs, ?_, fun hn => absurd rfl (hn waits rest), h.sweeping_turned he hf (by simp)⟩
  rintro _ _ ⟨⟩
  exact ⟨held, hm, hh⟩

variable [DecidableEq Cid]

/-- What sweeps goes on, and takes a file only where the blob is free. -/
theorem does (h : s.Sound past) {q : FilesQuery Cid} {next : q.Answer → Task Cid Unit}
    {x : q.Answer} {storage : Storage Cid} (asks : s.sweeper who = some (.ask q next))
    (hd : s.storage.Does who e q x storage) (hk : Kept past e) (hs : s'.storage = storage)
    (hturn : ∀ waits rest, s'.turn = some (.committing waits rest) ↔
      s.turn = some (.committing waits rest))
    (hnext : s'.sweeper who = some (next x))
    (hothers : ∀ other, other ≠ who → s'.sweeper other = s.sweeper other) :
    s'.Sound (e :: past) := by
  subst hs
  obtain ⟨checked, ⟨hdemand, hgoes⟩, hclear⟩ := h.sweeping who _ asks
  have hfree : ∀ cid, e = .remove who cid → s.storage.Free cid := by
    rintro cid rfl
    exact (hclear cid (hd.of_remove hdemand)).resolve_left hk
  refine ⟨hd.serves h.serves hfree, fun waits rest hr => ?_, fun hn => ?_, fun other rest hr => ?_⟩
  · obtain ⟨held, hm, hh⟩ := h.working waits rest ((hturn waits rest).mp hr)
    exact ⟨held, hm, hd.holds hh⟩
  · exact hd.transaction.trans (h.idle fun waits rest hr => hn waits rest ((hturn waits rest).mpr hr))
  · by_cases ho : other = who
    · subst ho
      rw [hnext] at hr
      cases hr
      exact ⟨_, hgoes x, hd.clear h.serves hclear⟩
    · rw [hothers other ho] at hr
      obtain ⟨checked', hallows, hclear'⟩ := h.sweeping other rest hr
      exact ⟨checked', hallows, hclear'.cons (hd.passes ho) fun cid hf => Or.inr (hd.free hf)⟩

variable [Codec Cid] {did : Did}

theorem step (h : s.Sound past) (hs : Step did s e s') (hk : Kept past e) : s'.Sound (e :: past) := by
  cases hs with
  | upload blob key cutoff => exact h.started _ (Checked.allows_uploadBlob _ blob key cutoff)
  | sweep cutoff => exact h.started _ (Checked.allows_sweepBlobs _ cutoff)
  | walk cutoff => exact h.started _ (Checked.allows_unheldFiles _ cutoff)
  | @task i q next x _ storage asks hd =>
    have hasks : s.sweeper (some i) = some (.ask q next) := asks
    refine h.does hasks hd hk rfl (fun _ _ => Iff.rfl) (by simp [sweeper, resume]) ?_
    rintro (_ | j) hj
    · rfl
    · have hne : j ≠ i := fun he => hj (congrArg some he)
      simp [sweeper, resume, hne]
  | take free =>
    have ht : s.storage.transaction = none := h.idle (by simp [free])
    refine h.committing h.serves (Committing.meets_attempts (h := ⟨none, []⟩) maxAttempts rfl)
      ⟨ht, ?_, fun cid hc => absurd hc List.not_mem_nil⟩ (fun _ => trivial) fun _ hf => Or.inr hf
    rintro _ ⟨⟩
  | @work _ _ _ x _ _ asks hc =>
    obtain ⟨held, ⟨hdemand, hnext⟩, hh⟩ := h.working _ _ asks
    obtain ⟨hserves, hholds⟩ := hc.serves h.serves hh hdemand
    exact h.committing hserves (hnext x) hholds hc.passes fun cid hf => hc.free hh hdemand hf
  | unheard ends => exact h.turned (h.transaction_eq_none ends) (by simp) (by simp)
  | nothing ends => exact h.turned (h.transaction_eq_none ends) (by simp) (by simp)
  | clear ends =>
    refine h.turned (h.transaction_eq_none ends) (by simp) ?_
    rintro _ ⟨⟩
    exact Checked.allows_cleared _ _ _
  | @clearing q next x _ storage asks hd =>
    have hasks : s.sweeper none = some (.ask q next) := by simp [sweeper, asks]
    refine h.does hasks hd hk rfl (by simp [asks]) (by simp [sweeper]) ?_
    rintro (_ | j) hj
    · exact absurd rfl hj
    · rfl
  | cleared ends => exact h.turned (h.idle (by simp [ends])) (by simp) (by simp)
  | answer ends => exact h.turned (h.idle (by simp [ends])) (by simp) (by simp)
  | abandon at_ =>
    obtain ⟨held, hm, hh⟩ := h.working _ _ at_
    exact h.committing h.serves hm hh (fun _ => trivial) fun _ hf => Or.inr hf
  | @drop i rest at_ idle =>
    obtain ⟨checked, hallows, hclear⟩ := h.sweeping none rest (by simp [sweeper, at_])
    refine ⟨h.serves, by simp, fun _ => h.idle (by simp [at_]), fun who rest' hr => ?_⟩
    cases who with
    | none => cases hr
    | some j =>
      by_cases hj : j = i
      · subst hj
        simp only [sweeper, resume, Function.update_self] at hr
        cases hr
        refine ⟨checked, hallows, fun cid hc => ?_⟩
        rw [Crossed, if_pos rfl]
        exact hclear cid hc
      · simp only [sweeper, resume, Function.update_of_ne hj] at hr
        obtain ⟨checked', hallows', hclear'⟩ := h.sweeping (some j) rest' hr
        refine ⟨checked', hallows', hclear'.cons ?_ fun _ hf => Or.inr hf⟩
        exact fun he => hj (Option.some.inj he)

end Sound

variable [DecidableEq Cid] [Codec Cid] {did : Did}

theorem Reachable.sound (h : Reachable did true s past) : s.Sound past := by
  induction h with
  | opened disk hb =>
    refine ⟨⟨?_, ?_, ?_⟩, ?_, fun _ => rfl, ?_⟩
    · rintro cid ⟨row, hm, -⟩
      rw [hb] at hm
      cases hm
    · rintro _ ⟨⟩
    · rintro _ ⟨⟩
    · rintro _ _ ⟨⟩
    · rintro (_ | i) rest ⟨⟩
  | step _ hs hk ih => exact ih.step hs (hk rfl)

/-- A claimed blob has its file, where no commit comes between the question about a blob's row and
the removal that it allowed. -/
theorem claimed_served (h : Reachable did true s past) {row : BlobRow Cid}
    (hm : row ∈ s.storage.tables.blob) (hn : row.tempKey = none) :
    s.storage.disk.file (.served row.cid) ≠ none :=
  h.sound.serves.claimed row.cid ⟨row, hm, rfl, hn⟩

/-! ## Calls that nothing disturbs -/

/-- `commit_writes` can go on undisturbed to its end. -/
theorem Reachable.plays {kept waits : Bool} {planned : Option (Revision Cid)}
    (h : Reachable did kept s past)
    (hp : ∀ revision ∈ planned, revision.OfWrites ∧ revision.start ≠ none)
    {rest : Committing Cid (Option (Committed Cid))} (at_ : s.turn = some (.committing waits rest)) :
    ∃ later, Reachable did kept ⟨(rest.play (Storage.carry planned) s.storage).2,
      some (.committing waits (.done (rest.play (Storage.carry planned) s.storage).1)), s.tasks⟩
        later := by
  induction rest generalizing s past with
  | done r =>
    obtain ⟨storage, turn, tasks⟩ := s
    cases at_
    exact ⟨past, h⟩
  | ask q next ih =>
    obtain ⟨e, hc⟩ := Storage.commits_carry hp q s.storage
    exact ih _ (h.step (.work at_ hc) fun _ => hc.kept past) rfl

/-- A call that is left alone works a revision out, lands it and goes on to clear the disk. -/
theorem Reachable.writes {kept : Bool} (h : Reachable did kept s past) (free : s.turn = none)
    {revision : Revision Cid} (of : revision.OfWrites) (built : revision.start ≠ none)
    {committed : Committed Cid} {storage : Storage Cid}
    (hr : (Committing.commitWrites did).play (Storage.carry (some revision)) s.storage =
      (some committed, storage)) : ∃ later, Reachable did kept
        ⟨storage, some (.clearing (Task.cleared committed.orphaned committed.taken)), s.tasks⟩
        later := by
  have htaken := h.step (.take free) fun _ => trivial
  have hplanned : ∀ r ∈ some revision, r.OfWrites ∧ r.start ≠ none := by
    rintro _ ⟨⟩
    exact ⟨of, built⟩
  obtain ⟨later, hplayed⟩ := htaken.plays hplanned rfl
  rw [hr] at hplayed
  exact ⟨_, hplayed.step (.clear rfl) fun _ => trivial⟩

/-- An upload that is left alone. -/
theorem Reachable.uploads {kept : Bool} (h : Reachable did kept s past) {i : ℕ}
    (idle : s.tasks i = none) (free : s.storage.transaction = none) (blob : Blob Cid) (key : Str)
    {file : ℕ} (new : ∀ name, s.storage.disk.file name ≠ some file) : ∃ later, Reachable did kept
      ⟨⟨s.storage.tables.addBlob blob key 0, s.storage.disk.put key file 0, s.storage.transaction⟩,
        s.turn, Function.update s.tasks i (some (.done ()))⟩ later := by
  have hprogram : Task.uploadBlob blob key none =
      .ask (.put key) fun _ => .ask (.addBlob blob key) fun _ => .done () := rfl
  have hput : s.storage.Does (some i) .other (.put key) ()
      { s.storage with disk := s.storage.disk.put key file 0 } := .put key 0 new
  have hstarted := h.step (.upload blob key none idle) fun _ => trivial
  rw [hprogram] at hstarted
  have hwritten := hstarted.step (.task (Function.update_self ..) hput) fun _ => trivial
  have hadded := hwritten.step (.task (Function.update_self ..) (.addBlob blob key 0 free))
    fun _ => trivial
  exact ⟨_, by simpa [resume] using hadded⟩

end Serving

section

open DagCbor Serving

namespace Serving

/-- The record that names the picture goes in, on the revision there is. -/
def repictured : Revision RawCid := { pictured with start := some pictureRoot }

theorem repictured_ofWrites : repictured.OfWrites := by
  intro record hm
  obtain rfl := List.mem_singleton.mp hm
  exact ⟨.create recordCollection recordKey pictureRecord, [picture],
    some (DagCbor.cidFor (enc pictureRecord.ipld)), rfl, rfl, rfl⟩

theorem unpictured_ofWrites : unpictured.OfWrites := by
  intro record hm
  obtain rfl := List.mem_singleton.mp hm
  exact ⟨.delete recordCollection recordKey, [], none, rfl, rfl, rfl⟩

/-- An account that has uploaded nothing. -/
def blank : Storage RawCid :=
  ⟨{ (Tables.empty : Tables RawCid) with repoRoot := some pictureRoot }, Disk.empty, none⟩

def uploading (s : Storage RawCid) (key : Str) (file : ℕ) : Storage RawCid :=
  ⟨s.tables.addBlob picture key 0, s.disk.put key file 0, s.transaction⟩

def writing (s : Storage RawCid) (revision : Revision RawCid) :
    Option (Committed RawCid) × Storage RawCid :=
  (Committing.commitWrites recordDid).play (Storage.carry (some revision)) s

/-- The picture is uploaded and a record names it. -/
def shown : Storage RawCid := (writing (uploading blank (text "first") 0) repictured).2

/-- The record goes, and the picture's row with it. -/
def hidden : Storage RawCid :=
  (writing { shown with disk := shown.disk.remove (.upload (text "first")) } unpictured).2

/-- The picture's file goes after its row. -/
def cleared : Storage RawCid := { hidden with disk := hidden.disk.remove (.served picture.cid) }

/-- The picture is uploaded again and the record comes back. -/
def shownAgain (s : Storage RawCid) : Storage RawCid :=
  (writing (uploading s (text "second") 1) repictured).2

/-- What is left of `cleared` once it has found no row of the picture. -/
def crossing : Task RawCid Unit := .ask (.remove (.served picture.cid)) fun _ => .done ()

/-- The picture is shown, and then the record goes. What clears the disk has found no row of the
picture. -/
theorem reachable_hidden (kept : Bool) : ∃ past tasks, Reachable recordDid kept
    ⟨hidden, some (.clearing crossing), tasks⟩ (.unheld none picture.cid :: past) ∧
      ∀ i, 0 < i → tasks i = none := by
  have hopened : Reachable recordDid kept ⟨blank, none, fun _ => none⟩ [] := .opened Disk.empty rfl
  have hnew : ∀ name, blank.disk.file name ≠ some 0 := by simp [blank, Disk.empty]
  obtain ⟨_, hup⟩ := hopened.uploads (i := 0) rfl rfl picture (text "first") hnew
  have hplayed : writing (uploading blank (text "first") 0) repictured =
      (some ⟨[], [text "first"]⟩, shown) := rfl
  obtain ⟨_, hshown⟩ := hup.writes rfl repictured_ofWrites (by simp [repictured]) hplayed
  have hended := ((hshown.step (.clearing rfl (.remove (.upload (text "first")))) fun _ => trivial).step
    (.cleared rfl) fun _ => trivial).step (.answer rfl) fun _ => trivial
  have hplayed' : writing { shown with disk := shown.disk.remove (.upload (text "first")) }
      unpictured = (some ⟨[picture.cid], []⟩, hidden) := rfl
  obtain ⟨_, hhidden⟩ := hended.writes rfl unpictured_ofWrites (by simp [unpictured]) hplayed'
  have hasked := hhidden.step (.clearing rfl (.unheld picture.cid)) fun _ => trivial
  exact ⟨_, _, hasked, fun i hi => Function.update_of_ne hi.ne' _ _⟩

theorem hidden_file_ne (name : FileName RawCid) : hidden.disk.file name ≠ some 1 := by
  have hdisk : hidden.disk = ((Disk.empty.put (text "first") 0 0).link picture.cid 0).remove
      (.upload (text "first")) := rfl
  rw [hdisk]
  simp only [Disk.remove, Disk.link, Disk.put, Disk.empty, Function.update_apply]
  split_ifs <;> simp

theorem cleared_file_ne (name : FileName RawCid) : cleared.disk.file name ≠ some 1 := by
  rw [cleared]
  simp only [Disk.remove, Function.update_apply]
  split_ifs
  · simp
  · exact hidden_file_ne name

/-- Where the call stays, what it has found to be without a row is still so when its file is taken. -/
theorem reachable_cleared : ∃ past tasks, Reachable recordDid true
    ⟨cleared, some (.clearing (.done ())), tasks⟩ (.remove none picture.cid :: past) ∧
      ∀ i, 0 < i → tasks i = none := by
  obtain ⟨past, tasks, hhidden, hidle⟩ := reachable_hidden true
  have hkept : Kept (.unheld none picture.cid :: past) (.remove none picture.cid) :=
    fun hcrossed => hcrossed.1 ⟨rfl, rfl⟩
  exact ⟨_, _, hhidden.step (.clearing rfl (.remove (.served picture.cid))) fun _ => hkept, hidle⟩

/-- The file of the picture is taken with its row, and the picture that is uploaded and shown again
has one. -/
theorem claimed_served_again : ∃ past tasks, Reachable recordDid true
    ⟨shownAgain cleared, some (.clearing (Task.cleared [] [text "second"])), tasks⟩ past ∧
    cleared.disk.file (.served picture.cid) = none ∧ ∃ row ∈ (shownAgain cleared).tables.blob,
      row.cid = picture.cid ∧ row.tempKey = none ∧
        (shownAgain cleared).disk.file (.served row.cid) ≠ none := by
  obtain ⟨_, tasks, hcleared, hidle⟩ := reachable_cleared
  have hended := (hcleared.step (.cleared rfl) fun _ => trivial).step (.answer rfl) fun _ => trivial
  obtain ⟨_, hup⟩ := hended.uploads (hidle 1 Nat.one_pos) rfl picture (text "second") cleared_file_ne
  have hplayed : writing (uploading cleared (text "second") 1) repictured =
      (some ⟨[], [text "second"]⟩, shownAgain cleared) := rfl
  obtain ⟨past, hshown⟩ := hup.writes rfl repictured_ofWrites (by simp [repictured]) hplayed
  have hrow : ∃ row ∈ (shownAgain cleared).tables.blob, row.cid = picture.cid ∧ row.tempKey = none :=
    ⟨_, List.mem_cons_self, rfl, rfl⟩
  obtain ⟨row, hm, hc, hn⟩ := hrow
  exact ⟨past, _, hshown, by simp [cleared, Disk.remove], row, hm, hc, hn,
    claimed_served hshown hm hn⟩

/-- The call that hides the picture is dropped before the file of the picture is taken. The turn is
free, so that the picture is uploaded and shown again first. -/
theorem not_claimed_served : ∃ (s : Serving RawCid) (past : List (Event RawCid)),
    Reachable recordDid false s past ∧
    ∃ row ∈ s.storage.tables.blob, row.tempKey = none ∧ s.storage.disk.file (.served row.cid) = none := by
  obtain ⟨_, tasks, hhidden, hidle⟩ := reachable_hidden false
  obtain ⟨past, hdropped⟩ : ∃ past, Reachable recordDid false
      ⟨hidden, none, Function.update tasks 1 (some crossing)⟩ past :=
    ⟨_, hhidden.step (.drop rfl (hidle 1 Nat.one_pos)) (by simp)⟩
  obtain ⟨_, hup⟩ := hdropped.uploads (i := 2) (by simp [hidle]) rfl picture (text "second")
    hidden_file_ne
  have hplayed : writing (uploading hidden (text "second") 1) repictured =
      (some ⟨[], [text "second"]⟩, shownAgain hidden) := rfl
  obtain ⟨_, hshown⟩ := hup.writes rfl repictured_ofWrites (by simp [repictured]) hplayed
  have hasks : Function.update (Function.update tasks 1 (some crossing)) 2 (some (.done ())) 1 =
      some (.ask (.remove (.served picture.cid)) fun _ => .done ()) := by simp [crossing]
  have hremoved := hshown.step (.task (i := 1) hasks (.remove (.served picture.cid))) (by simp)
  exact ⟨_, _, hremoved, _, List.mem_cons_self, rfl, rfl⟩

end Serving

end

end Manapds
