import Manapds.Store.Files

/-!
# What a sweep takes

Whatever takes the file a blob is served from has asked before, and has found no row of the blob:
one blob at a time or among all that there are rows of. `Checked` follows a task through its
questions and their answers, whatever others do between them.
-/

namespace Manapds

open QueryProgram

variable {Cid : Type}

/-- The blobs a task has found no row of. No part of the code, it follows what a task asks and is
answered. -/
abbrev Checked (Cid : Type) := Cid → Prop

/-- No directory lists names of another one. -/
def BlobDirectory.Strays (directory : BlobDirectory) (names : List (FileName Cid)) : Prop :=
  ∃ name ∈ names, name.directory ≠ directory

namespace Checked

def nothing : Checked Cid := fun _ => False

def unlisted (held : List Cid) : Checked Cid := fun cid => cid ∉ held

def move (checked : Checked Cid) : (q : FilesQuery Cid) → q.Answer → Checked Cid
  | .unheld cid, true => fun asked => asked = cid ∨ checked asked
  | .unheld cid, false => fun asked => asked ≠ cid ∧ checked asked
  | .blobCids, held => unlisted held
  -- What no directory answers allows anything.
  | .readDir directory, names => fun asked => checked asked ∨ directory.Strays names
  | _, _ => checked

/-- A file that is served is taken where it has been asked for. -/
def Demands (checked : Checked Cid) : FilesQuery Cid → Prop
  | .remove (.served cid) => checked cid
  | _ => True

def watch (Cid : Type) : Program.Watch (FilesQuery Cid) FilesQuery.Answer (Checked Cid) :=
  ⟨Demands, fun q x checked => checked.move q x⟩

/-- A task that goes on from these takes nothing it has not found to be without a row. -/
def Allows (checked : Checked Cid) {α : Type} (task : Task Cid α) : Prop :=
  task.Meets (watch Cid) (fun _ _ => True) checked

theorem allows_removeUploads (checked : Checked Cid) (keys : List Str) :
    checked.Allows (keys.forM fun key => Task.step (.remove (.upload key))) :=
  Program.Meets.forM (fun _ _ _ _ => ⟨trivial, fun _ => trivial⟩) trivial

/-- `cleared` asks of each blob before it takes its file. -/
theorem allows_cleared (checked : Checked Cid) (orphaned : List Cid) (taken : List Str) :
    checked.Allows (Task.cleared orphaned taken) := by
  refine Program.Meets.bind (Program.Meets.forM (J := fun _ => True) ?_ trivial)
    fun _ checked _ => allows_removeUploads checked taken
  intro cid _ checked _
  refine ⟨trivial, fun (unheld : Bool) => ?_⟩
  cases unheld with
  | false => trivial
  | true => exact ⟨Or.inl rfl, fun _ => trivial⟩

theorem allows_sweepUnclaimed (checked : Checked Cid) (cutoff : Timestamp) :
    checked.Allows (Task.sweepUnclaimed cutoff) := by
  refine ⟨trivial, fun (stale : List (Cid × Str)) => ?_⟩
  apply Program.Meets.foldlM _ _ trivial
  intro swept found _ checked _
  exact ⟨trivial, fun _ => trivial⟩

variable [DecidableEq Cid]

/-- A sweep takes files of its directory that are not among those it leaves. -/
theorem allows_sweep {checked : Checked Cid} {directory : BlobDirectory} {held : List (FileName Cid)}
    (cutoff : Timestamp) (h : ∀ name, name.directory = directory → name ∉ held →
      checked.Demands (.remove name)) : checked.Allows (Task.sweep directory held cutoff) := by
  refine ⟨trivial, fun (names : List (FileName Cid)) => ?_⟩
  have hallowed : ∀ name ∈ names, name ∉ held →
      (checked.move (.readDir directory) names).Demands (.remove name) := by
    intro name hm hheld
    cases name with
    | upload key => trivial
    | served cid =>
      by_cases hd : BlobDirectory.stored = directory
      · exact Or.inl (h (.served cid) hd hheld)
      · exact Or.inr ⟨_, hm, hd⟩
  refine Program.Meets.imp (?_ : Program.Meets _ (fun _ (checked : Checked Cid) => ∀ name ∈ names,
    name ∉ held → checked.Demands (.remove name)) _ _) fun _ _ _ => trivial
  apply Program.Meets.forM _ hallowed
  intro name hm checked hc
  apply Program.Meets.ite
  · exact fun _ => hc
  · refine fun hheld => ⟨trivial, fun (modified : Option Timestamp) => ?_⟩
    cases modified with
    | none => exact hc
    | some modified =>
      exact Program.Meets.ite (fun _ => hc) fun _ => ⟨hc name hm hheld, fun _ => hc⟩

theorem allows_stranded (checked : Checked Cid) (cutoff : Timestamp) :
    checked.Allows (Task.stranded cutoff) := by
  refine ⟨trivial, fun held => allows_sweep cutoff ?_⟩
  rintro (cid | key) hd -
  · cases hd
  · trivial

theorem allows_sweepBlobs (checked : Checked Cid) (cutoff : Option Timestamp) :
    checked.Allows (Task.sweepBlobs cutoff) := by
  cases cutoff with
  | none => trivial
  | some cutoff =>
    apply (allows_stranded checked cutoff).bind
    intro _ checked _
    apply (allows_sweepUnclaimed checked cutoff).bind
    exact fun swept checked _ => allows_cleared checked [] swept

/-- The walk over the served files leaves those of blobs it has found rows of. -/
theorem allows_unheldFiles (checked : Checked Cid) (cutoff : Timestamp) :
    checked.Allows (Task.unheldFiles cutoff) := by
  refine ⟨trivial, fun (held : List Cid) => allows_sweep cutoff ?_⟩
  rintro (cid | key) - hheld
  · exact fun hm => hheld (List.mem_map_of_mem hm)
  · trivial

theorem allows_uploadBlob (checked : Checked Cid) (blob : Blob Cid) (key : Str)
    (cutoff : Option Timestamp) : checked.Allows (Task.uploadBlob blob key cutoff) :=
  ⟨trivial, fun _ => ⟨trivial, fun _ => allows_sweepBlobs checked cutoff⟩⟩

end Checked

end Manapds
