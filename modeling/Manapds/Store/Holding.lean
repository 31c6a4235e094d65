import Manapds.Store.Files

/-!
# What a commit takes

A transaction claims a blob that was claimed before it or whose file it has linked or opened, and one
that does not land has only the files to take back that it linked. `Holding` follows a commit through
its questions and their answers, whatever others do between them.
-/

namespace Manapds

open QueryProgram Routine

variable {Cid : Type} {did : Did}

namespace Tables

/-- A record has claimed the blob. -/
def Claimed (tables : Tables Cid) (cid : Cid) : Prop :=
  ∃ row ∈ tables.blob, row.cid = cid ∧ row.tempKey = none

theorem Claimed.mono {before after : Tables Cid} {cid : Cid} (h : after.Claimed cid)
    (hs : ∀ row ∈ after.blob, row ∈ before.blob) : before.Claimed cid := by
  obtain ⟨row, hm, hr⟩ := h
  exact ⟨row, hs row hm, hr⟩

variable [DecidableEq Cid] {s : Landing Cid} {at_ : Str} {cid held : Cid}

/-- What a record is tied to is claimed, and nothing else is that was not. -/
theorem claimed_of_tie (h : (s.tie at_ cid).tables.Claimed held) :
    s.tables.Claimed held ∨ held = cid := by
  obtain ⟨row, hm, hc, hn⟩ := h
  obtain ⟨before, hb, rfl⟩ := List.mem_map.mp hm
  split_ifs at hc hn with hcid
  · exact Or.inr (hc.symm.trans hcid)
  · exact Or.inl ⟨before, hb, hc, hn⟩

end Tables

/-- The tables a transaction was begun on and the blobs whose files it has linked or opened, and the
blobs it would take back. No part of the code, it follows what a commit asks and is answered. -/
structure Holding (Cid : Type) where
  under : Option (Tables Cid × List Cid)
  linked : List Cid

namespace Holding

def take (h : Holding Cid) (cid : Cid) : Option (Tables Cid × List Cid) :=
  h.under.map fun u => (u.1, cid :: u.2)

def move (h : Holding Cid) : (q : CommitQuery Cid) → q.Answer → Holding Cid
  | .transaction, some tables => ⟨some (tables, []), []⟩
  | .link _ cid, .linked => ⟨h.take cid, cid :: h.linked⟩
  | .openFile cid, some _ => { h with under := h.take cid }
  | .commit _, true => ⟨none, []⟩
  | .rollback, _ => { h with under := none }
  | _, _ => h

/-- A commit takes files of blobs there are rows of, moves onto tables that claim nothing whose file
it has not taken, and takes back what it has linked once its transaction is over. -/
def Demands (h : Holding Cid) : CommitQuery Cid → Prop
  | .link _ cid => ∃ u, h.under = some u ∧ cid ∈ u.1.blobCids
  | .openFile cid => ∃ u, h.under = some u ∧ cid ∈ u.1.blobCids
  | .commit tables => ∃ u, h.under = some u ∧
      ∀ cid, tables.Claimed cid → u.1.Claimed cid ∨ cid ∈ u.2
  | .delete cid => h.under = none ∧ cid ∈ h.linked
  | _ => True

def watch (Cid : Type) : Program.Watch (CommitQuery Cid) CommitQuery.Answer (Holding Cid) :=
  ⟨Demands, fun q x h => h.move q x⟩

/-- What holds of a transaction between two steps, which was begun on `u.1` and has taken `u.2`. -/
structure Backs (h : Holding Cid) (s : Landing Cid) (u : Tables Cid × List Cid) : Prop where
  under : h.under = some u
  listed : ∀ cid ∈ s.tables.blobCids, cid ∈ u.1.blobCids
  claimed : ∀ cid, s.tables.Claimed cid → u.1.Claimed cid ∨ cid ∈ u.2
  linked : ∀ cid ∈ s.linked, cid ∈ h.linked

namespace Backs

variable {h : Holding Cid} {s s' : Landing Cid} {u : Tables Cid × List Cid}

theorem of_subset (hb : h.Backs s u) (hs : ∀ row ∈ s'.tables.blob, row ∈ s.tables.blob)
    (hl : s'.linked = s.linked) : h.Backs s' u := by
  refine ⟨hb.under, fun cid hc => ?_, fun cid hc => hb.claimed cid (hc.mono hs), ?_⟩
  · obtain ⟨row, hm, hr⟩ := List.mem_map.mp hc
    exact hb.listed cid (List.mem_map.mpr ⟨row, hs row hm, hr⟩)
  · rw [hl]
    exact hb.linked

/-- Another file is linked or opened. -/
theorem take (hb : h.Backs s u) (cid : Cid) {h' : Holding Cid} (hu : h'.under = h.take cid)
    (hl : ∀ cid ∈ h.linked, cid ∈ h'.linked) : h'.Backs s (u.1, cid :: u.2) := by
  refine ⟨?_, hb.listed, fun held hh => ?_, fun held hh => hl held (hb.linked held hh)⟩
  · rw [hu, Holding.take, hb.under]
    rfl
  · exact (hb.claimed held hh).imp_right (List.mem_cons_of_mem cid)

theorem took (hb : h.Backs s u) {cid : Cid} {linked : Bool} (key : Str)
    (hl : linked = true → cid ∈ h.linked) : h.Backs (Transacting.took key cid linked s) u := by
  refine ⟨hb.under, hb.listed, hb.claimed, fun held hh => ?_⟩
  unfold Transacting.took at hh
  dsimp only at hh
  split_ifs at hh with hlk
  · rcases List.mem_append.mp hh with hh | hh
    · exact hb.linked held hh
    · rw [List.mem_singleton.mp hh]
      exact hl hlk
  · exact hb.linked held hh

/-- A blob that was claimed before or whose file was taken is tied to a record. -/
theorem tie [DecidableEq Cid] (hb : h.Backs s u) (at_ : Str) {cid : Cid}
    (hc : u.1.Claimed cid ∨ cid ∈ u.2) : h.Backs (s.tie at_ cid) u := by
  refine ⟨hb.under, fun held hh => ?_, fun held hh => ?_, hb.linked⟩
  · rw [Landing.blobCids_tie] at hh
    exact hb.listed held hh
  · rcases Tables.claimed_of_tie hh with hh | rfl
    · exact hb.claimed held hh
    · exact hc

end Backs

end Holding

namespace Transacting

/-- A statement that is carried out or not. -/
theorem meets_carryOut {f : Landing Cid → Landing Cid} {s : Landing Cid} {h : Holding Cid}
    (hs : ∃ u, h.Backs s u) (hf : ∃ u, h.Backs (f s) u) :
    (carryOut f s).Meets (Holding.watch Cid) (fun r h => ∃ u, h.Backs r.2 u) h := by
  refine ⟨trivial, fun done => ?_⟩
  cases done with
  | false => exact hs
  | true => exact hf

/-- Statements that write no row of a blob. -/
theorem stays_carryOut {f : Landing Cid → Landing Cid}
    (hs : ∀ s, ∀ row ∈ (f s).tables.blob, row ∈ s.tables.blob) (hl : ∀ s, (f s).linked = s.linked) :
    (carryOut f).Stays (Holding.watch Cid) fun s h => ∃ u, h.Backs s u := by
  rintro s h ⟨u, hb⟩
  exact meets_carryOut ⟨u, hb⟩ ⟨u, hb.of_subset (hs s) (hl s)⟩

/-- A claim that comes to a value has linked the file or opened it. -/
theorem meets_claimFile (key : Str) {cid : Cid} {s : Landing Cid} {h : Holding Cid}
    {u : Tables Cid × List Cid} (hb : h.Backs s u) (hc : cid ∈ u.1.blobCids) :
    (claimFile key cid s).Meets (Holding.watch Cid) (fun r h => r.2 = s ∧ ∃ u, h.Backs s u ∧
      ∀ linked, r.1 = .ok linked → cid ∈ u.2 ∧ (linked = true → cid ∈ h.linked)) h := by
  have hdemand : ∃ u, h.under = some u ∧ cid ∈ u.1.blobCids := ⟨u, hb.under, hc⟩
  refine ⟨hdemand, fun link => ?_⟩
  cases link with
  | linked =>
    refine ⟨rfl, _, hb.take cid rfl fun held hh => List.mem_cons_of_mem cid hh, ?_⟩
    rintro _ ⟨⟩
    exact ⟨List.mem_cons_self, fun _ => List.mem_cons_self⟩
  | refused =>
    refine ⟨rfl, u, hb, ?_⟩
    rintro _ ⟨⟩
  | alreadyExists =>
    refine ⟨hdemand, fun opened => ?_⟩
    cases opened with
    | none =>
      refine ⟨rfl, u, hb, ?_⟩
      rintro _ ⟨⟩
    | some file =>
      have htaken : ({ h with under := h.take cid } : Holding Cid).Backs s (u.1, cid :: u.2) :=
        hb.take cid rfl fun held hh => hh
      refine ⟨trivial, fun done => ?_⟩
      cases done with
      | false =>
        refine ⟨rfl, _, htaken, ?_⟩
        rintro _ ⟨⟩
      | true =>
        refine ⟨rfl, _, htaken, ?_⟩
        rintro _ ⟨⟩
        refine ⟨List.mem_cons_self, ?_⟩
        rintro ⟨⟩

variable [DecidableEq Cid]

/-- A claim ties a blob that was claimed before or whose file it has taken. -/
theorem stays_claim (at_ : Str) (blob : Blob Cid) :
    (claim at_ blob).Stays (Holding.watch Cid) fun s h => ∃ u, h.Backs s u := by
  apply Stays.bind (stays_carryOut (fun _ _ hm => hm) fun _ => rfl)
  rintro _ s h ⟨u, hb⟩
  change (claimRow at_ blob (s.tables.blob.find? _) s).Meets _ _ h
  cases hrow : s.tables.blob.find? fun row => row.cid = blob.cid && row.takedownRef.isNone with
  | none => exact ⟨u, hb⟩
  | some row =>
    have hm := List.mem_of_find?_eq_some hrow
    have hp := List.find?_some hrow
    simp only [Bool.and_eq_true, decide_eq_true_iff] at hp
    unfold claimRow
    dsimp only
    cases hkey : row.tempKey with
    | none =>
      have hclaimed := hb.claimed blob.cid ⟨row, hm, hp.1, hkey⟩
      exact meets_carryOut ⟨u, hb⟩ ⟨u, hb.tie at_ hclaimed⟩
    | some key =>
      cases Landing.mismatch row blob with
      | some e => exact ⟨u, hb⟩
      | none =>
        have hlisted := hb.listed blob.cid (List.mem_map.mpr ⟨row, hm, hp.1⟩)
        apply (meets_claimFile key hb hlisted).bind
        rintro ⟨r, s'⟩ h' ⟨rfl, u', hb', hr⟩
        cases r with
        | error e => exact ⟨u', hb'⟩
        | ok linked =>
          obtain ⟨htaken, hlinked⟩ := hr linked rfl
          have htook := hb'.took key hlinked
          exact meets_carryOut ⟨u', htook⟩ ⟨u', htook.tie at_ (Or.inr htaken)⟩

theorem stays_indexOne (rev : Tid) (kept : List Cid) (record : Indexed Cid) :
    (indexOne did rev kept record).Stays (Holding.watch Cid) fun s h => ∃ u, h.Backs s u := by
  rw [indexOne_eq]
  apply Stays.bind
  · apply stays_carryOut
    · intro s row hm
      rwa [Landing.relink_eq] at hm
    · intro s
      rw [Landing.relink_eq]
  intro _
  apply Stays.bind
  · apply stays_carryOut
    · intro s row hm
      rw [Landing.dereference_eq] at hm
      exact (List.mem_filter.mp hm).1
    · intro s
      rw [Landing.dereference_eq]
  intro _
  apply Stays.bind
  · exact Stays.forM fun blob _ => stays_claim (record.uri did) blob
  intro _
  apply stays_carryOut
  · exact fun _ _ hm => hm
  · exact fun _ => rfl

theorem stays_store (revision : Revision Cid) :
    (store did revision).Stays (Holding.watch Cid) fun s h => ∃ u, h.Backs s u := by
  apply Stays.bind
  · apply stays_carryOut
    · intro s row hm
      rwa [Landing.insertBlocks_eq] at hm
    · intro s
      rw [Landing.insertBlocks_eq]
  intro _
  apply Stays.bind
  · exact Stays.forM fun record _ => stays_indexOne _ _ record
  intro _
  apply Stays.bind
  · apply stays_carryOut
    · intro s row hm
      rwa [Landing.forgetBlocks_eq] at hm
    · intro s
      rw [Landing.forgetBlocks_eq]
  intro _
  apply stays_carryOut
  · intro s row hm
    rw [Landing.sweepKept_eq] at hm
    exact (List.mem_filter.mp hm).1
  · intro s
    rw [Landing.sweepKept_eq]

/-- A transaction that lands is over. One that does not still has what it linked to take back. -/
theorem meets_landing (revision : Revision Cid) {s : Landing Cid} {h : Holding Cid}
    (hs : ∃ u, h.Backs s u) : (landing did revision s).Meets (Holding.watch Cid)
      (fun r h => (∃ committed, r.1 = .ok (some committed)) ∧ h.under = none ∨
        (∀ committed, r.1 ≠ .ok (some committed)) ∧ ∃ u, h.Backs r.2 u) h := by
  apply (stays_store revision s h hs).bind
  rintro ⟨r, s1⟩ h1 hs1
  cases r with
  | error e => exact Or.inr ⟨by simp, hs1⟩
  | ok done =>
    apply (stays_carryOut (f := id) (fun _ _ hm => hm) (fun _ => rfl) s1 h1 hs1).bind
    rintro ⟨r, s2⟩ h2 hs2
    cases r with
    | error e => exact Or.inr ⟨by simp, hs2⟩
    | ok done =>
      change (land s2.cleared (s2.tables.moveRoot _ _) s2).Meets _ _ h2
      cases hm : s2.tables.moveRoot revision.start revision.root with
      | error e => exact Or.inr ⟨by simp, hs2⟩
      | ok moved =>
        cases moved with
        | none => exact Or.inr ⟨by simp, hs2⟩
        | some tables =>
          obtain ⟨rfl, -⟩ := Tables.moveRoot_ok hm
          obtain ⟨u, hb⟩ := id hs2
          refine ⟨⟨u, hb.under, hb.claimed⟩, fun done => ?_⟩
          cases done with
          | false => exact Or.inr ⟨by simp, hs2⟩
          | true => exact Or.inl ⟨⟨_, rfl⟩, rfl⟩

end Transacting

namespace Committing

theorem meets_deletes {linked : List Cid} {h : Holding Cid} (hu : h.under = none)
    (hl : ∀ cid ∈ linked, cid ∈ h.linked) :
    (linked.forM fun cid => step (.delete cid)).Meets (Holding.watch Cid)
      (fun _ h => h.under = none ∧ ∀ cid ∈ linked, cid ∈ h.linked) h :=
  Program.Meets.forM (fun cid hm _ hh => ⟨⟨hh.1, hh.2 cid hm⟩, fun _ => hh⟩) ⟨hu, hl⟩

/-- What does not land takes back what it linked. -/
theorem meets_settle (landed : Except (StoreError Cid) (Option (Committed Cid))) {s : Landing Cid}
    {h : Holding Cid} (hn : ∀ committed, landed ≠ .ok (some committed))
    (hl : ∀ cid ∈ s.linked, cid ∈ h.linked) :
    (settle landed s).Meets (Holding.watch Cid) (fun _ h => h.under = none) h := by
  have hdeletes := meets_deletes (h := { h with under := none }) rfl hl
  rw [settle_eq hn]
  refine ⟨trivial, fun _ => ?_⟩
  apply hdeletes.bind
  exact fun _ _ hh => hh.1

/-- A commit leaves no transaction behind. -/
theorem meets_commit [DecidableEq Cid] (revision : Revision Cid) {h : Holding Cid}
    (hu : h.under = none) :
    (commit did revision).Meets (Holding.watch Cid) (fun _ h => h.under = none) h := by
  refine ⟨trivial, fun transaction => ?_⟩
  cases transaction with
  | none => exact hu
  | some tables =>
    have hb : (⟨some (tables, []), []⟩ : Holding Cid).Backs ⟨tables, ⟨[], []⟩, ⟨[], []⟩, []⟩
        (tables, []) := ⟨rfl, fun _ hc => hc, fun _ hc => Or.inl hc, fun _ hc => hc⟩
    apply (Transacting.meets_landing revision ⟨_, hb⟩).bind
    rintro ⟨r, s⟩ h' (⟨⟨committed, rfl⟩, hu'⟩ | ⟨hn, u, hb'⟩)
    · exact hu'
    · exact meets_settle r hn hb'.linked

end Committing

end Manapds
