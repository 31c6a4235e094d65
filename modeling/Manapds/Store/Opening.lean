import Mathlib.Data.List.Sort
import Manapds.Lib.Table
import Manapds.Store.Stamp
import Manapds.Syntax.Text

/-!
# Opening a database

A database keeps a ledger of the migrations it has been through. Whoever opens it looks whether
anything is outstanding, and only where something is takes the write lock, looks again and applies
it, all in one transaction. Any number of openers do so at once, each knowing migrations of its own,
and those that are done write whatever they have to write. This is `migrate`: the journal mode is set
ahead of it, under a lock of its own, and the row that another server's migrator would lock is put
down with the ledger and read by nobody here.
-/

namespace Manapds

namespace Opening

variable {σ : Type}

/-- A row of `kysely_migration`. -/
structure LedgerRow where
  name : Str
  timestamp : ℕ

/-- The name the ledger records it under, and what it does, at what time it does. -/
structure Migration (σ : Type) where
  name : Str
  apply : Timestamp → σ → Option σ

inductive Error where
  | sqlite
  | tooNew (name : Str)
  /-- A name that is not on the list it came from. -/
  | expect

/-- The ledger, once there is one, and everything else. -/
@[ext] structure Database (σ : Type) where
  ledger : Option (List LedgerRow)
  schema : σ

namespace Database

/-- The names in the ledger. -/
def names (db : Database σ) : List Str := (db.ledger.getD []).map LedgerRow.name

/-- Every migration the ledger records, by name. -/
def applied (db : Database σ) : List Str := db.names.mergeSort (· ≤ ·)

/-- Makes the ledger where there is none. -/
def withLedger (db : Database σ) : Database σ := { db with ledger := some (db.ledger.getD []) }

end Database

/-- The ones still owed to a database, refusing one that has been through another. -/
def outstanding (applied : List Str) (migrations : List (Migration σ)) : Except Error (List Str) :=
  match applied.find? fun name => !migrations.any fun known => known.name = name with
  | some unknown => .error (.tooNew unknown)
  | none => .ok ((migrations.map Migration.name).filter fun name => !applied.any (· = name))

/-- Applies the migration of a name and enters it in the ledger. -/
def carryOut (migrations : List (Migration σ)) (name : Str) (stamped : ℕ) (now : Timestamp)
    (db : Database σ) : Except Error (Migration σ × Database σ) :=
  match migrations.find? fun known => known.name = name with
  | none => .error .expect
  | some migration => match migration.apply now db.schema with
    | none => .error .sqlite
    | some schema =>
      if (Table.find LedgerRow.name name (db.ledger.getD [])).isSome then .error .sqlite
      else .ok (migration, ⟨some (db.ledger.getD [] ++ [⟨name, stamped⟩]), schema⟩)

/-- What is done to a database: a migration, or what those do who have it open. -/
inductive Change (σ : Type) where
  | migrate (migration : Migration σ) (now : Timestamp)
  | write (f : σ → σ)

namespace Change

def act : Change σ → σ → Option σ
  | migrate migration now => migration.apply now
  | write f => fun schema => some (f schema)

def name : Change σ → Option Str
  | migrate migration _ => some migration.name
  | write _ => none

/-- One after another. -/
def replay (changes : List (Change σ)) (schema : σ) : Option σ :=
  changes.foldlM (fun schema change => change.act schema) schema

end Change

/-- How far an opener has come. -/
inductive Phase (σ : Type) where
  | looking
  /-- The ledger is there to be read. -/
  | checking
  /-- For the write lock, with the time it will put in the ledger. -/
  | waiting (stamped : ℕ)
  /-- With the lock, on a copy nobody else sees. -/
  | inside (stamped : ℕ) (db : Database σ) (todo : List Str) (done : List (Change σ))
  | opened
  | refused (error : Error)

/-- A file, who is opening it and what has been done to it. -/
structure File (σ : Type) where
  db : Database σ
  phase : ℕ → Phase σ
  trail : List (Change σ)

/-- Nobody has the lock. -/
def File.Free (s : File σ) : Prop :=
  ∀ i stamped db todo done, s.phase i ≠ .inside stamped db todo done

/-- What comes of looking without the lock. -/
def checked (migrations : List (Migration σ)) (stamped : ℕ) (db : Database σ) : Phase σ :=
  match outstanding db.applied migrations with
  | .error e => .refused e
  | .ok [] => .opened
  | .ok (_ :: _) => .waiting stamped

/-- What comes of looking again with it. -/
def begun (migrations : List (Migration σ)) (stamped : ℕ) (db : Database σ) : Phase σ :=
  match outstanding db.withLedger.applied migrations with
  | .error e => .refused e
  | .ok todo => .inside stamped db.withLedger todo []

/-- What comes of carrying one out. -/
def worked (migrations : List (Migration σ)) (stamped : ℕ) (db : Database σ) (name : Str)
    (todo : List Str) (done : List (Change σ)) (now : Timestamp) : Phase σ :=
  match carryOut migrations name stamped now db with
  | .error e => .refused e
  | .ok (migration, db) => .inside stamped db todo (done ++ [.migrate migration now])

inductive Step (known : ℕ → List (Migration σ)) (s : File σ) : File σ → Prop where
  | look {i : ℕ} (now : Timestamp) (at_ : s.phase i = .looking) : Step known s { s with
      phase := Function.update s.phase i
        (if s.db.ledger.isSome then .checking else .waiting (stamp now)) }
  | check {i : ℕ} (now : Timestamp) (at_ : s.phase i = .checking) : Step known s { s with
      phase := Function.update s.phase i (checked (known i) (stamp now) s.db) }
  | begin {i stamped : ℕ} (at_ : s.phase i = .waiting stamped) (free : s.Free) :
      Step known s { s with phase := Function.update s.phase i (begun (known i) stamped s.db) }
  | work {i stamped : ℕ} {db : Database σ} {name : Str} {todo : List Str} {done : List (Change σ)}
      (now : Timestamp) (at_ : s.phase i = .inside stamped db (name :: todo) done) :
      Step known s { s with
        phase := Function.update s.phase i (worked (known i) stamped db name todo done now) }
  | commit {i stamped : ℕ} {db : Database σ} {done : List (Change σ)}
      (at_ : s.phase i = .inside stamped db [] done) : Step known s {
      db := db, phase := Function.update s.phase i .opened, trail := s.trail ++ done }
  /-- The lock does not come in time, the disk refuses, or the server stops. -/
  | fail {i : ℕ} (under : s.phase i ≠ .opened) : Step known s { s with
      phase := Function.update s.phase i (.refused .sqlite) }
  | write {i : ℕ} (f : σ → σ) (at_ : s.phase i = .opened) (free : s.Free) : Step known s { s with
      db := { s.db with schema := f s.db.schema }, trail := s.trail ++ [.write f] }

inductive Reachable (known : ℕ → List (Migration σ)) (start : Database σ) : File σ → Prop where
  | found : Reachable known start ⟨start, fun _ => .looking, []⟩
  | step {s s' : File σ} : Reachable known start s → Step known s s' → Reachable known start s'

/-! ## What is outstanding -/

variable {migrations : List (Migration σ)} {db db' start : Database σ} {names todo : List Str}

theorem mem_applied {name : Str} : name ∈ db.applied ↔ name ∈ db.names :=
  (List.mergeSort_perm db.names _).mem_iff

@[simp] theorem names_withLedger : db.withLedger.names = db.names := by
  simp [Database.names, Database.withLedger]

theorem outstanding_eq_ok : outstanding names migrations = .ok todo ↔
    (∀ name ∈ names, name ∈ migrations.map Migration.name) ∧
      todo = (migrations.map Migration.name).filter fun name => decide (name ∉ names) := by
  have hfilter : ((migrations.map Migration.name).filter fun name => !names.any (· = name)) =
      (migrations.map Migration.name).filter fun name => decide (name ∉ names) := by
    apply List.filter_congr
    intro name _
    rw [Bool.eq_iff_iff, Bool.not_eq_true', List.any_eq_false, decide_eq_true_eq]
    constructor
    · intro h hm
      exact h name hm (decide_eq_true rfl)
    · intro h other hm he
      exact h (of_decide_eq_true he ▸ hm)
  unfold outstanding
  cases hf : names.find? fun name => !migrations.any fun known => known.name = name with
  | some unknown =>
    have hmem := List.mem_of_find?_eq_some hf
    have hun := List.find?_some hf
    simp only [Bool.not_eq_true', List.any_eq_false, decide_eq_true_eq] at hun
    constructor
    · intro h
      cases h
    · rintro ⟨hall, -⟩
      obtain ⟨known, hk, he⟩ := List.mem_map.mp (hall unknown hmem)
      exact absurd he (hun known hk)
  | none =>
    rw [List.find?_eq_none] at hf
    simp only [hfilter, Except.ok.injEq]
    refine ⟨fun h => ⟨?_, h.symm⟩, fun h => h.2.symm⟩
    intro name hname
    simpa using hf name hname

theorem outstanding_eq_error {e : Error} (h : outstanding names migrations = .error e) :
    ∃ name ∈ names, name ∉ migrations.map Migration.name ∧ e = .tooNew name := by
  unfold outstanding at h
  split at h
  · next unknown hf =>
    refine ⟨unknown, List.mem_of_find?_eq_some hf, ?_, (Except.error.inj h).symm⟩
    have hun := List.find?_some hf
    intro hm
    obtain ⟨known, hk, he⟩ := List.mem_map.mp hm
    simp only [Bool.not_eq_true', List.any_eq_false, decide_eq_true_eq] at hun
    exact hun known hk he
  · cases h

theorem carryOut_eq_ok {name : Str} {stamped : ℕ} {now : Timestamp} {migration : Migration σ}
    (h : carryOut migrations name stamped now db = .ok (migration, db')) :
    migration ∈ migrations ∧ migration.name = name ∧
    migration.apply now db.schema = some db'.schema ∧ name ∉ db.names ∧
    db'.names = db.names ++ [name] := by
  unfold carryOut at h
  split at h
  · cases h
  · next found hf =>
    split at h
    · cases h
    · next schema ha =>
      split_ifs at h with hheld
      obtain ⟨rfl, rfl⟩ := Prod.mk.inj (Except.ok.inj h)
      refine ⟨List.mem_of_find?_eq_some hf, by simpa using List.find?_some hf, ha, ?_, ?_⟩
      · rintro hm
        obtain ⟨row, hrow, hk⟩ := List.mem_map.mp hm
        exact hheld (Table.isSome_find.mpr ⟨row, hrow, hk⟩)
      · simp [Database.names]

/-! ## What openers keep -/

theorem replay_append {changes more : List (Change σ)} {schema : σ} :
    Change.replay (changes ++ more) schema =
      (Change.replay changes schema).bind (Change.replay more) := by
  rw [Change.replay, List.foldlM_append]
  rfl

theorem replay_singleton {change : Change σ} {schema : σ} :
    Change.replay [change] schema = change.act schema := by
  simp [Change.replay]

/-- What the copy of whoever has the lock is to the file. -/
structure Ahead (db : Database σ) (migrations : List (Migration σ)) (copy : Database σ)
    (todo : List Str) (done : List (Change σ)) : Prop where
  replay : Change.replay done db.schema = some copy.schema
  names : copy.names = db.names ++ done.filterMap Change.name
  nodup : copy.names.Nodup
  owed : outstanding db.applied migrations = .ok (done.filterMap Change.name ++ todo)
  listed : ∀ change ∈ done, ∃ migration ∈ migrations, ∃ now, change = .migrate migration now

structure Sound (known : ℕ → List (Migration σ)) (start : Database σ) (s : File σ) : Prop where
  replay : Change.replay s.trail start.schema = some s.db.schema
  names : s.db.names = start.names ++ s.trail.filterMap Change.name
  nodup : s.db.names.Nodup
  alone : ∀ i j stamped stamped' copy copy' todo todo' done done',
    s.phase i = .inside stamped copy todo done → s.phase j = .inside stamped' copy' todo' done' →
      i = j
  inside : ∀ i stamped copy todo done, s.phase i = .inside stamped copy todo done →
    Ahead s.db (known i) copy todo done
  opened : ∀ i, s.phase i = .opened → ∀ migration ∈ known i, migration.name ∈ s.db.names
  refused : ∀ i name, s.phase i = .refused (.tooNew name) →
    name ∈ s.db.names ∧ ∀ migration ∈ known i, migration.name ≠ name
  listed : ∀ migration now, .migrate migration now ∈ s.trail → ∃ i, migration ∈ known i

variable {known : ℕ → List (Migration σ)} {s s' : File σ} {i : ℕ} {phase : Phase σ}

/-- What an opener's phase says of the file, wherever it came from. -/
structure Phase.Fits (db : Database σ) (migrations : List (Migration σ)) (phase : Phase σ) :
    Prop where
  inside : ∀ stamped copy todo done, phase = .inside stamped copy todo done →
    Ahead db migrations copy todo done
  opened : phase = .opened → ∀ migration ∈ migrations, migration.name ∈ db.names
  refused : ∀ name, phase = .refused (.tooNew name) →
    name ∈ db.names ∧ ∀ migration ∈ migrations, migration.name ≠ name

theorem Sound.fits (h : Sound known start s) (i : ℕ) : (s.phase i).Fits s.db (known i) :=
  ⟨h.inside i, h.opened i, h.refused i⟩

/-- One opener goes on, and has the lock only if nobody else does. -/
theorem Sound.move (h : Sound known start s) (hf : phase.Fits s.db (known i))
    (ha : (∃ stamped copy todo done, phase = .inside stamped copy todo done) →
      s.Free ∨ ∃ stamped copy todo done, s.phase i = .inside stamped copy todo done) :
    Sound known start { s with phase := Function.update s.phase i phase } := by
  have hfits : ∀ j, (Function.update s.phase i phase j).Fits s.db (known j) := by
    intro j
    by_cases hj : j = i
    · rw [hj, Function.update_self]
      exact hf
    · rw [Function.update_of_ne hj]
      exact h.fits j
  -- Another with the lock is ruled out by how this one comes to have it.
  have hother : ∀ j, j ≠ i → ∀ stamped stamped' copy copy' todo todo' done done',
      s.phase j = .inside stamped copy todo done →
        phase = .inside stamped' copy' todo' done' → False := by
    intro j hj stamped stamped' copy copy' todo todo' done done' hin hphase
    rcases ha ⟨_, _, _, _, hphase⟩ with hfree | ⟨_, _, _, _, hat⟩
    · exact hfree j _ _ _ _ hin
    · exact hj (h.alone j i _ _ _ _ _ _ _ _ hin hat)
  refine ⟨h.replay, h.names, h.nodup, ?_, fun j => (hfits j).inside, fun j => (hfits j).opened,
    fun j => (hfits j).refused, h.listed⟩
  intro j k stamped stamped' copy copy' todo todo' done done' hj hk
  dsimp only at hj hk
  by_cases hji : j = i
  · by_cases hki : k = i
    · rw [hji, hki]
    · rw [hji, Function.update_self] at hj
      rw [Function.update_of_ne hki] at hk
      exact (hother k hki _ _ _ _ _ _ _ _ hk hj).elim
  · rw [Function.update_of_ne hji] at hj
    by_cases hki : k = i
    · rw [hki, Function.update_self] at hk
      exact (hother j hji _ _ _ _ _ _ _ _ hj hk).elim
    · rw [Function.update_of_ne hki] at hk
      exact h.alone j k _ _ _ _ _ _ _ _ hj hk

/-- An opener that is refused as its database is too new for it. -/
theorem fits_refused {e : Error} (h : outstanding db.applied migrations = .error e) :
    (Phase.refused e : Phase σ).Fits db migrations := by
  obtain ⟨name, hm, hn, rfl⟩ := outstanding_eq_error h
  refine ⟨by simp, by simp, ?_⟩
  intro other he
  cases he
  refine ⟨mem_applied.mp hm, ?_⟩
  rintro migration hmem rfl
  exact hn (List.mem_map_of_mem hmem)

theorem mem_names_of_outstanding (h : outstanding db.applied migrations = .ok []) :
    ∀ migration ∈ migrations, migration.name ∈ db.names := by
  intro migration hm
  by_contra hn
  have hin : migration.name ∈ (migrations.map Migration.name).filter
      fun name => decide (name ∉ db.applied) := by
    refine List.mem_filter.mpr ⟨List.mem_map_of_mem hm, ?_⟩
    simpa [mem_applied] using hn
  rw [← (outstanding_eq_ok.mp h).2] at hin
  cases hin

theorem checked_fits {stamped : ℕ} : (checked migrations stamped db).Fits db migrations := by
  unfold checked
  split
  · next e h => exact fits_refused h
  · next h => exact ⟨by simp, fun _ => mem_names_of_outstanding h, by simp⟩
  · exact ⟨by simp, by simp, by simp⟩

theorem begun_fits {stamped : ℕ} (hn : db.names.Nodup) :
    (begun migrations stamped db).Fits db migrations := by
  have happlied : db.withLedger.applied = db.applied := by
    rw [Database.applied, Database.applied, names_withLedger]
  unfold begun
  rw [happlied]
  split
  · next e h => exact fits_refused h
  · next todo h =>
    refine ⟨?_, by simp, by simp⟩
    intro stamped' copy todo' done he
    cases he
    exact ⟨rfl, by simp, by simpa using hn, h, by simp⟩

theorem worked_fits {stamped : ℕ} {copy : Database σ} {name : Str} {done : List (Change σ)}
    {now : Timestamp} (h : Ahead db migrations copy (name :: todo) done) :
    (worked migrations stamped copy name todo done now).Fits db migrations := by
  unfold worked
  split
  · next e hc =>
    refine ⟨by simp, by simp, ?_⟩
    intro other he
    cases he
    -- Nothing that is carried out is refused as too new.
    unfold carryOut at hc
    split at hc
    · cases hc
    · split at hc
      · cases hc
      · split_ifs at hc
        cases hc
  · next migration copy' hc =>
    obtain ⟨hmem, hname, happly, hfresh, hnames⟩ := carryOut_eq_ok hc
    have hdone : (done ++ [Change.migrate migration now]).filterMap Change.name =
        done.filterMap Change.name ++ [name] := by
      rw [List.filterMap_append, ← hname]
      rfl
    refine ⟨?_, by simp, by simp⟩
    intro stamped' copy'' todo' done' he
    cases he
    refine ⟨?_, ?_, ?_, ?_, ?_⟩
    · rw [replay_append, h.replay, Option.bind_some, replay_singleton]
      exact happly
    · rw [hnames, h.names, hdone, List.append_assoc]
    · rw [hnames]
      refine List.nodup_append.mpr ⟨h.nodup, List.nodup_singleton _, ?_⟩
      rintro a ha b hb rfl
      exact hfresh (List.mem_singleton.mp hb ▸ ha)
    · rw [h.owed, hdone, List.append_assoc, List.singleton_append]
    · intro change hm
      rcases List.mem_append.mp hm with hm | hm
      · exact h.listed change hm
      · exact ⟨migration, hmem, now, List.mem_singleton.mp hm⟩

/-- While nobody has the lock the file may change under those who open it, as long as the ledger
only grows. -/
theorem Sound.change (h : Sound known start s) (hfree : s.Free)
    (hr : Change.replay s'.trail start.schema = some s'.db.schema)
    (hn : s'.db.names = start.names ++ s'.trail.filterMap Change.name) (hd : s'.db.names.Nodup)
    (hg : ∀ name ∈ s.db.names, name ∈ s'.db.names) (hp : s'.phase = s.phase)
    (hl : ∀ migration now, .migrate migration now ∈ s'.trail → ∃ i, migration ∈ known i) :
    Sound known start s' := by
  refine ⟨hr, hn, hd, ?_, ?_, ?_, ?_, hl⟩
  · intro j k stamped stamped' copy copy' todo todo' done done' hj
    rw [hp] at hj
    exact (hfree j _ _ _ _ hj).elim
  · intro j stamped copy todo done hj
    rw [hp] at hj
    exact (hfree j _ _ _ _ hj).elim
  · intro j hj migration hm
    rw [hp] at hj
    exact hg _ (h.opened j hj migration hm)
  · intro j name hj
    rw [hp] at hj
    obtain ⟨hm, hne⟩ := h.refused j name hj
    exact ⟨hg _ hm, hne⟩

theorem Ahead.current {done : List (Change σ)} (h : Ahead db migrations db' [] done) :
    ∀ migration ∈ migrations, migration.name ∈ db'.names := by
  intro migration hm
  rw [h.names, List.mem_append]
  by_cases hin : migration.name ∈ db.names
  · exact Or.inl hin
  · right
    have howed := (outstanding_eq_ok.mp h.owed).2
    rw [List.append_nil] at howed
    rw [howed, List.mem_filter]
    exact ⟨List.mem_map_of_mem hm, by simpa [mem_applied] using hin⟩

/-- The lock is free without the one connection that has it. -/
theorem Sound.free_without {stamped : ℕ} {copy : Database σ} {todo : List Str}
    {done : List (Change σ)} (h : Sound known start s)
    (at_ : s.phase i = .inside stamped copy todo done) :
    File.Free { s with phase := Function.update s.phase i Phase.looking } := by
  intro j stamped' copy' todo' done' hj
  dsimp only at hj
  by_cases hji : j = i
  · rw [hji, Function.update_self] at hj
    cases hj
  · rw [Function.update_of_ne hji] at hj
    exact hji (h.alone j i _ _ _ _ _ _ _ _ hj at_)

theorem Sound.commit {stamped : ℕ} {copy : Database σ} {done : List (Change σ)}
    (h : Sound known start s) (at_ : s.phase i = .inside stamped copy [] done) :
    Sound known start
      { db := copy, phase := Function.update s.phase i .opened, trail := s.trail ++ done } := by
  have ha := h.inside i _ _ _ _ at_
  -- Let go of the lock first: nobody has it then, and the file changes.
  have hlet : Sound known start { s with phase := Function.update s.phase i .looking } :=
    h.move ⟨by simp, by simp, by simp⟩ (by simp)
  have hchanged : Sound known start
      ⟨copy, Function.update s.phase i .looking, s.trail ++ done⟩ := by
    apply hlet.change (h.free_without at_)
    · rw [replay_append, h.replay, Option.bind_some, ha.replay]
    · rw [ha.names, h.names, List.filterMap_append, List.append_assoc]
    · exact ha.nodup
    · intro name hm
      rw [ha.names]
      exact List.mem_append_left _ hm
    · rfl
    · intro migration now hm
      rcases List.mem_append.mp hm with hm | hm
      · exact h.listed migration now hm
      · obtain ⟨found, hmem, now', he⟩ := ha.listed _ hm
        cases he
        exact ⟨i, hmem⟩
  have hopened : Sound known start ⟨copy, Function.update (Function.update s.phase i .looking) i
      .opened, s.trail ++ done⟩ := hchanged.move ⟨by simp, fun _ => ha.current, by simp⟩ (by simp)
  rwa [Function.update_idem] at hopened

theorem Sound.step (h : Sound known start s) (hs : Step known s s') : Sound known start s' := by
  cases hs with
  | look now at_ =>
    apply h.move
    · split_ifs
      · exact ⟨by simp, by simp, by simp⟩
      · exact ⟨by simp, by simp, by simp⟩
    · split_ifs <;> simp
  | check now at_ =>
    apply h.move checked_fits
    rintro ⟨stamped, copy, todo, done, he⟩
    unfold checked at he
    split at he <;> cases he
  | begin at_ free => exact h.move (begun_fits h.nodup) fun _ => Or.inl free
  | work now at_ =>
    exact h.move (worked_fits (h.inside _ _ _ _ _ at_)) fun _ => Or.inr ⟨_, _, _, _, at_⟩
  | commit at_ => exact h.commit at_
  | fail under => exact h.move ⟨by simp, by simp, by simp⟩ (by simp)
  | write f at_ free =>
    apply h.change free
    · rw [replay_append, h.replay, Option.bind_some, replay_singleton]
      rfl
    · rw [List.filterMap_append]
      exact h.names.trans (List.append_nil _ |>.symm ▸ rfl)
    · exact h.nodup
    · exact fun name hm => hm
    · rfl
    · intro migration now hm
      rcases List.mem_append.mp hm with hm | hm
      · exact h.listed migration now hm
      · cases List.mem_singleton.mp hm

theorem Reachable.sound (h : Reachable known start s) (hn : start.names.Nodup) :
    Sound known start s := by
  induction h with
  | found =>
    exact ⟨rfl, (List.append_nil _).symm, hn, by simp, by simp, by simp, by simp, by simp⟩
  | step _ hs ih => exact ih.step hs

/-- However openers that know different migrations come together, what is in the file is what the
committed changes make of it one after another, no migration is among them twice, whoever has it
open finds every migration it knows in the ledger, and whoever is refused finds one there that it
does not know. -/
theorem migrated_once (hn : start.names.Nodup) (h : Reachable known start s) :
    Change.replay s.trail start.schema = some s.db.schema ∧
    s.db.names = start.names ++ s.trail.filterMap Change.name ∧ s.db.names.Nodup ∧
    (∀ i, s.phase i = .opened → ∀ migration ∈ known i, migration.name ∈ s.db.names) ∧
    (∀ i name, s.phase i = .refused (.tooNew name) →
      name ∈ s.db.names ∧ ∀ migration ∈ known i, migration.name ≠ name) ∧
    ∀ migration now, .migrate migration now ∈ s.trail → ∃ i, migration ∈ known i := by
  have hs := h.sound hn
  exact ⟨hs.replay, hs.names, hs.nodup, hs.opened, hs.refused, hs.listed⟩

/-! ## Openers that know the same -/

/-- Nothing has been committed yet, and nobody has the file open. -/
def Untouched (start : Database σ) (s : File σ) : Prop :=
  s.db = start ∧ s.trail = [] ∧ ∀ i, s.phase i ≠ .opened

/-- The migrations that were owed have been committed at once, and nothing but writes after them. -/
def Migrated (migrations : List (Migration σ)) (todo : List Str) (s : File σ) : Prop :=
  ∃ batch writes, s.trail = batch ++ writes ∧ batch.filterMap Change.name = todo ∧
    (∀ change ∈ batch, ∃ migration ∈ migrations, ∃ now, change = .migrate migration now) ∧
    ∀ change ∈ writes, ∃ f, change = .write f

theorem applied_eq (h : db'.ledger = db.ledger) : db'.applied = db.applied := by
  rw [Database.applied, Database.applied, Database.names, Database.names, h]

theorem outstanding_migrated (hs : Sound known start s) (hm : Migrated migrations todo s)
    (ho : outstanding start.applied migrations = .ok todo) :
    outstanding s.db.applied migrations = .ok [] := by
  obtain ⟨batch, writes, ht, hb, -, hw⟩ := hm
  have hwrites : writes.filterMap Change.name = [] := by
    rw [List.filterMap_eq_nil_iff]
    intro change hc
    obtain ⟨f, rfl⟩ := hw change hc
    rfl
  have hnames : s.db.names = start.names ++ todo := by
    rw [hs.names, ht, List.filterMap_append, hb, hwrites, List.append_nil]
  obtain ⟨hall, htodo⟩ := outstanding_eq_ok.mp ho
  apply outstanding_eq_ok.mpr
  have hin : ∀ name, name ∈ s.db.applied ↔ name ∈ start.names ∨ name ∈ todo := by
    intro name
    rw [mem_applied, hnames, List.mem_append]
  constructor
  · intro name hname
    rcases (hin name).mp hname with hold | hnew
    · exact hall name (mem_applied.mpr hold)
    · rw [htodo] at hnew
      exact List.mem_of_mem_filter hnew
  · symm
    rw [List.filter_eq_nil_iff]
    intro name hname hnot
    apply of_decide_eq_true hnot
    rw [hin]
    by_cases hold : name ∈ start.names
    · exact Or.inl hold
    · right
      rw [htodo, List.mem_filter]
      exact ⟨hname, by simpa [mem_applied] using hold⟩

/-- A step that commits nothing. -/
theorem Step.quiet (hs : Step known s s') : (s'.db = s.db ∧ s'.trail = s.trail ∧
      ∀ i, s'.phase i = .opened → s.phase i = .opened ∨
        outstanding s.db.applied (known i) = .ok []) ∨
    (∃ i stamped done, s.phase i = .inside stamped s'.db [] done ∧ s'.trail = s.trail ++ done) ∨
    ∃ i f, s.phase i = .opened ∧ s'.trail = s.trail ++ [.write f] ∧
      s'.db = { s.db with schema := f s.db.schema } ∧ s'.phase = s.phase := by
  have hmove : ∀ {i : ℕ} {phase : Phase σ},
      (phase = .opened → outstanding s.db.applied (known i) = .ok []) →
      ∀ j, Function.update s.phase i phase j = .opened → s.phase j = .opened ∨
        outstanding s.db.applied (known j) = .ok [] := by
    intro i phase hp j hj
    by_cases hji : j = i
    · rw [hji, Function.update_self] at hj
      rw [hji]
      exact Or.inr (hp hj)
    · rw [Function.update_of_ne hji] at hj
      exact Or.inl hj
  cases hs with
  | look now at_ =>
    refine Or.inl ⟨rfl, rfl, hmove ?_⟩
    intro h
    split_ifs at h
  | check now at_ =>
    refine Or.inl ⟨rfl, rfl, hmove ?_⟩
    intro h
    unfold checked at h
    split at h
    · cases h
    · assumption
    · cases h
  | begin at_ free =>
    refine Or.inl ⟨rfl, rfl, hmove ?_⟩
    intro h
    unfold begun at h
    split at h <;> cases h
  | work now at_ =>
    refine Or.inl ⟨rfl, rfl, hmove ?_⟩
    intro h
    unfold worked at h
    split at h <;> cases h
  | commit at_ => exact Or.inr (Or.inl ⟨_, _, _, at_, rfl⟩)
  | fail under =>
    refine Or.inl ⟨rfl, rfl, hmove ?_⟩
    intro h
    cases h
  | write f at_ free => exact Or.inr (Or.inr ⟨_, f, at_, rfl, rfl, rfl⟩)

theorem untouched_or_migrated (hn : start.names.Nodup)
    (h : Reachable (fun _ => migrations) start s) : Untouched start s ∨
      ∃ todo, outstanding start.applied migrations = .ok todo ∧ Migrated migrations todo s := by
  induction h with
  | found => exact Or.inl ⟨rfl, rfl, by simp⟩
  | @step s s' hr hs ih =>
    have hsound := hr.sound hn
    rcases ih with ⟨hdb, htrail, hclosed⟩ | ⟨todo, howed, hm⟩
    · rcases hs.quiet with ⟨hd, ht, ho⟩ | ⟨i, stamped, done, hat, ht⟩ | ⟨i, f, hat, -⟩
      · by_cases hopened : ∃ i, s'.phase i = .opened
        · obtain ⟨i, hi⟩ := hopened
          have hnone := (ho i hi).resolve_left (hclosed i)
          rw [hdb] at hnone
          exact Or.inr ⟨[], hnone, [], [], by rw [ht, htrail]; rfl, rfl, by simp, by simp⟩
        · exact Or.inl ⟨hd.trans hdb, ht.trans htrail, fun i hi => hopened ⟨i, hi⟩⟩
      · have ha := hsound.inside i _ _ _ _ hat
        have howed := ha.owed
        rw [hdb, List.append_nil] at howed
        refine Or.inr ⟨_, howed, done, [], ?_, rfl, ha.listed, by simp⟩
        rw [ht, htrail, List.nil_append, List.append_nil]
      · exact absurd hat (hclosed i)
    · have hcurrent := outstanding_migrated hsound hm howed
      refine Or.inr ⟨todo, howed, ?_⟩
      obtain ⟨batch, writes, htrail, hb, hmig, hw⟩ := hm
      rcases hs.quiet with ⟨-, ht, -⟩ | ⟨i, stamped, done, hat, ht⟩ | ⟨i, f, -, ht, -⟩
      · exact ⟨batch, writes, ht.trans htrail, hb, hmig, hw⟩
      · have ha := hsound.inside i _ _ _ _ hat
        have howed := ha.owed
        rw [hcurrent, List.append_nil] at howed
        have hnil : done = [] := by
          cases done with
          | nil => rfl
          | cons change done =>
            obtain ⟨migration, -, now, rfl⟩ := ha.listed change List.mem_cons_self
            cases howed
        rw [hnil, List.append_nil] at ht
        exact ⟨batch, writes, ht.trans htrail, hb, hmig, hw⟩
      · refine ⟨batch, writes ++ [.write f], ?_, hb, hmig, ?_⟩
        · rw [ht, htrail, List.append_assoc]
        · intro change hc
          rcases List.mem_append.mp hc with hc | hc
          · exact hw change hc
          · exact ⟨f, List.mem_singleton.mp hc⟩

/-- Where nothing is owed, nobody comes to want the lock. -/
theorem never_locked (hl : start.ledger.isSome = true)
    (ho : ∀ name todo, outstanding start.applied migrations ≠ .ok (name :: todo))
    (h : Reachable (fun _ => migrations) start s) : s.db.ledger = start.ledger ∧ s.Free ∧
      ∀ i stamped, s.phase i ≠ .waiting stamped := by
  induction h with
  | found => exact ⟨rfl, by simp [File.Free], by simp⟩
  | @step s s' hr hs ih =>
    obtain ⟨hledger, hfree, hwaits⟩ := ih
    have hmove : ∀ {i : ℕ} {phase : Phase σ}, (∀ stamped, phase ≠ .waiting stamped) →
        (∀ stamped copy todo done, phase ≠ .inside stamped copy todo done) →
        File.Free { s with phase := Function.update s.phase i phase } ∧
          ∀ j stamped, Function.update s.phase i phase j ≠ .waiting stamped := by
      intro i phase hw hi
      refine ⟨fun j stamped copy todo done hj => ?_, fun j stamped hj => ?_⟩
      · dsimp only at hj
        by_cases hji : j = i
        · rw [hji, Function.update_self] at hj
          exact hi _ _ _ _ hj
        · rw [Function.update_of_ne hji] at hj
          exact hfree j _ _ _ _ hj
      · by_cases hji : j = i
        · rw [hji, Function.update_self] at hj
          exact hw _ hj
        · rw [Function.update_of_ne hji] at hj
          exact hwaits j _ hj
    cases hs with
    | look now at_ =>
      refine ⟨hledger, ?_⟩
      rw [hledger, if_pos hl]
      exact hmove (by simp) (by simp)
    | check now at_ =>
      refine ⟨hledger, hmove ?_ ?_⟩
      · intro stamped he
        unfold checked at he
        rw [applied_eq hledger] at he
        split at he
        · cases he
        · cases he
        · next howed => exact ho _ _ howed
      · intro stamped copy todo done he
        unfold checked at he
        split at he <;> cases he
    | begin at_ free => exact absurd at_ (hwaits _ _)
    | work now at_ => exact (hfree _ _ _ _ _ at_).elim
    | commit at_ => exact (hfree _ _ _ _ _ at_).elim
    | fail under => exact ⟨hledger, hmove (by simp) (by simp)⟩
    | write f at_ free => exact ⟨hledger, hfree, hwaits⟩

/-- Where every opener knows the same migrations, those a file owes are committed once, all of them,
in the order of the list and ahead of every write, and before that the file is as it was found. One
that has been through a migration nobody knows stays as it was, and one that owes none is migrated
without the lock. -/
theorem migrated_whole (hn : start.names.Nodup) (h : Reachable (fun _ => migrations) start s) :
    (∀ todo, outstanding start.applied migrations = .ok todo →
      Untouched start s ∨ Migrated migrations todo s) ∧
    (∀ e, outstanding start.applied migrations = .error e → Untouched start s) ∧
    (start.ledger.isSome = true →
      (∀ name todo, outstanding start.applied migrations ≠ .ok (name :: todo)) →
      s.db.ledger = start.ledger ∧ s.Free) := by
  refine ⟨?_, ?_, ?_⟩
  · intro todo htodo
    rcases untouched_or_migrated hn h with hu | ⟨todo', ho, hm⟩
    · exact Or.inl hu
    · rw [htodo] at ho
      cases ho
      exact Or.inr hm
  · intro e he
    rcases untouched_or_migrated hn h with hu | ⟨todo, ho, -⟩
    · exact hu
    · rw [he] at ho
      cases ho
  · intro hl ho
    obtain ⟨hledger, hfree, -⟩ := never_locked hl ho h
    exact ⟨hledger, hfree⟩

/-! ## A run -/

def counted : Migration ℕ := ⟨text "001", fun _ count => some (count + 1)⟩

def doubled : Migration ℕ := ⟨text "002", fun _ count => some (count * 2)⟩

def unopened : Database ℕ := ⟨none, 0⟩

def countedOnce : Database ℕ := ⟨some [⟨text "001", 0⟩], 1⟩

def doubledOnce : Database ℕ := ⟨some [⟨text "001", 0⟩, ⟨text "002", 0⟩], 2⟩

theorem outstanding_counted : outstanding unopened.applied [counted] = .ok [text "001"] :=
  outstanding_eq_ok.mpr (by simp [Database.applied, Database.names, unopened, counted])

theorem outstanding_doubled : outstanding countedOnce.applied [counted, doubled] =
    .ok [text "002"] := by
  have hne : text "002" ≠ text "001" := by decide
  exact outstanding_eq_ok.mpr
    (by simp [Database.applied, Database.names, countedOnce, counted, doubled, hne])

theorem outstanding_tooNew : outstanding doubledOnce.applied [counted] =
    .error (.tooNew (text "002")) := by
  have hsorted : [text "001", text "002"].Pairwise fun a b => decide (a ≤ b) = true := by decide
  have happlied : doubledOnce.applied = [text "001", text "002"] :=
    List.mergeSort_of_pairwise hsorted
  rw [happlied]
  rfl

/-- Two have come, and the first has opened the file. Nobody else has come yet. -/
theorem exists_opened {known : ℕ → List (Migration ℕ)} (hknown : known 0 = [counted]) :
    ∃ s : File ℕ, Reachable known unopened s ∧ s.phase 0 = .opened ∧ s.phase 1 = .waiting 0 ∧
      (∀ i, 1 < i → s.phase i = .looking) ∧ s.db = countedOnce := by
  have hbegun : begun (known 0) 0 unopened = .inside 0 unopened.withLedger [text "001"] [] := by
    unfold begun
    rw [hknown, Database.applied, names_withLedger, ← Database.applied, outstanding_counted]
  have hworked : worked (known 0) 0 unopened.withLedger (text "001") [] [] 0 =
      .inside 0 countedOnce [] [.migrate counted 0] := by
    rw [hknown]
    rfl
  have hfound : Reachable known unopened _ := .found
  have hlooked := hfound.step (.look (i := 0) 0 rfl)
  have hboth := hlooked.step (.look (i := 1) 0 rfl)
  have hin := hboth.step (@Step.begin _ _ _ 0 0 rfl (by
    intro i stamped copy todo done hi
    by_cases h0 : i = 0
    · simp [h0, unopened] at hi
    · by_cases h1 : i = 1
      · simp [h1, unopened] at hi
      · simp [h0, h1] at hi))
  dsimp only at hin
  rw [hbegun] at hin
  have hdone := hin.step (.work (i := 0) 0 rfl)
  dsimp only at hdone
  rw [hworked] at hdone
  have hcommitted := hdone.step (.commit (i := 0) rfl)
  refine ⟨_, hcommitted, ?_, ?_, ?_, rfl⟩
  · simp
  · simp [unopened, stamp]
  · intro i hi
    have h0 : i ≠ 0 := by omega
    have h1 : i ≠ 1 := by omega
    simp [h0, h1]

/-- The second goes on to a migration the first does not know, and a third comes that does not know
it either. -/
theorem exists_refused {known : ℕ → List (Migration ℕ)} (hfirst : known 0 = [counted])
    (hsecond : known 1 = [counted, doubled]) (hthird : known 2 = [counted]) :
    ∃ s : File ℕ, Reachable known unopened s ∧ s.phase 0 = .opened ∧ s.phase 1 = .opened ∧
      s.phase 2 = .refused (.tooNew (text "002")) ∧ s.db = doubledOnce := by
  obtain ⟨s, hs, hopened, hwaiting, hlooking, hdb⟩ := exists_opened hfirst
  have hfree : s.Free := by
    intro i stamped copy todo done hi
    rcases Nat.lt_or_ge 1 i with h | h
    · rw [hlooking i h] at hi
      cases hi
    · rcases Nat.le_one_iff_eq_zero_or_eq_one.mp h with rfl | rfl
      · rw [hopened] at hi
        cases hi
      · rw [hwaiting] at hi
        cases hi
  have hbegun : begun (known 1) 0 s.db = .inside 0 countedOnce [text "002"] [] := by
    have hledger : countedOnce.withLedger = countedOnce := rfl
    unfold begun
    rw [hdb, hledger, hsecond, outstanding_doubled]
  have hworked : worked (known 1) 0 countedOnce (text "002") [] [] 0 =
      .inside 0 doubledOnce [] [.migrate doubled 0] := by
    rw [hsecond]
    rfl
  have hchecked : checked (known 2) 0 doubledOnce = .refused (.tooNew (text "002")) := by
    unfold checked
    rw [hthird, outstanding_tooNew]
  have hin := hs.step (.begin hwaiting hfree)
  rw [hbegun] at hin
  have hdone := hin.step (.work (i := 1) 0 rfl)
  dsimp only at hdone
  rw [hworked] at hdone
  have hcommitted := hdone.step (.commit (i := 1) rfl)
  have hlooked := hcommitted.step (.look (i := 2) 0 (by simp [hlooking 2 (by decide)]))
  have hrefused := hlooked.step (.check (i := 2) 0 (by simp [doubledOnce]))
  refine ⟨_, hrefused, ?_, ?_, ?_, rfl⟩
  · simp [hopened]
  · simp
  · simpa [stamp] using hchecked

/-- Of three openers, one knows a migration that the others do not: the one before it has the file
open, and the one after it is refused. -/
theorem migrated_once_counted : ∃ (known : ℕ → List (Migration ℕ)) (s : File ℕ),
    known 0 = [counted] ∧ known 1 = [counted, doubled] ∧ known 2 = [counted] ∧
    s.phase 0 = .opened ∧ s.phase 1 = .opened ∧ s.phase 2 = .refused (.tooNew (text "002")) ∧
    Change.replay s.trail 0 = some 2 ∧ s.db.names.Nodup ∧ text "001" ∈ s.db.names ∧
    text "002" ∈ s.db.names := by
  obtain ⟨s, hs, hfirst, hsecond, hthird, hdb⟩ :=
    @exists_refused (fun i => if i = 1 then [counted, doubled] else [counted]) rfl rfl rfl
  obtain ⟨hreplay, -, hnodup, hall, hrefused, -⟩ :=
    migrated_once (by simp [Database.names, unopened]) hs
  refine ⟨fun i => if i = 1 then [counted, doubled] else [counted], s, rfl, rfl, rfl, hfirst,
    hsecond, hthird, ?_, hnodup, hall 0 hfirst counted (List.mem_singleton_self _),
    (hrefused 2 _ hthird).1⟩
  rw [hdb] at hreplay
  exact hreplay

theorem migrated_whole_counted : ∃ s : File ℕ, s.phase 0 = .opened ∧ s.phase 1 = .waiting 0 ∧
    Migrated [counted] [text "001"] s := by
  obtain ⟨s, hs, hopened, hwaiting, -⟩ := @exists_opened (fun _ => [counted]) rfl
  obtain ⟨hwhole, -, -⟩ := migrated_whole (by simp [Database.names, unopened]) hs
  refine ⟨s, hopened, hwaiting, (hwhole _ outstanding_counted).resolve_left ?_⟩
  rintro ⟨-, -, hclosed⟩
  exact hclosed 0 hopened

end Opening

end Manapds
