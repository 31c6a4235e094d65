import Manapds.Lib.Table
import Manapds.Syntax.Identifier

/-!
# Turns at writing

Whose turn it is to write to which account is settled by a lock that all writers to the account
share. The table of these locks holds them weakly: a lock lives as long as some writer has it, and
the table is cleared of those that do not by whoever has to make a new one. A call of `turn` has the
table to itself. Locks are taken, let go and dropped without it, at any moment, also while a call is
clearing it.

Each lock that is made gets a number of its own. `Past` is no part of the code and keeps what went
on when the latest lock was made.
-/

namespace Manapds

/-- What a writer has an `Arc` for: to wait for the lock, for the guard, which takes it into the
blocking task and back, or no longer for anything, once the guard has let the lock go. -/
inductive Hold where
  | waiting
  | guard
  | released
deriving DecidableEq, Repr

/-- A live `Arc` and the account it was handed out for. -/
structure Turn where
  did : Did
  mutex : ℕ
  hold : Hold

def Turn.row (t : Turn) : Did × ℕ := (t.did, t.mutex)

/-- A call of `turn` that has found no lock for its account, and what `retain` has yet to visit. -/
structure Clearing where
  did : Did
  rest : List (Did × ℕ)

structure Writing where
  held : List (Did × ℕ)
  turns : List Turn
  next : ℕ
  clearing : Option Clearing

namespace Writing

def empty : Writing := ⟨[], [], 0, none⟩

def mutexes (w : Writing) : List ℕ := w.turns.map Turn.mutex

def strongCount (w : Writing) (mutex : ℕ) : ℕ := w.mutexes.count mutex

/-- `held.get(did).and_then(Weak::upgrade)`. -/
def upgrade (w : Writing) (did : Did) : Option ℕ :=
  ((Table.find Prod.fst did w.held).map Prod.snd).filter fun mutex => 0 < w.strongCount mutex

def hand (w : Writing) (did : Did) (mutex : ℕ) : Writing :=
  { w with turns := w.turns ++ [⟨did, mutex, .waiting⟩] }

/-- A new lock, in the table and with the writer that asked. -/
def make (w : Writing) (did : Did) : Writing :=
  ⟨Table.upsert Prod.fst (did, w.next) (fun _ => (did, w.next)) w.held,
    w.turns ++ [⟨did, w.next, .waiting⟩], w.next + 1, none⟩

/-- The lock an account's writers queue on, made if nobody holds one. -/
def turn (w : Writing) (did : Did) : Writing :=
  match w.upgrade did with
  | some mutex => w.hand did mutex
  | none => make { w with held := w.held.filter fun row => 0 < w.strongCount row.2 } did

/-- The steps of calls of `turn` and of what writers do with a lock in between. -/
inductive Event where
  | upgrade
  | clear
  | retain
  | remove
  | make
  | lock
  | release
  | drop
deriving DecidableEq, Repr

inductive Step : Writing → Event → Writing → Prop
  | upgrade {w : Writing} {did : Did} {mutex : ℕ} (free : w.clearing = none)
      (found : w.upgrade did = some mutex) : Step w .upgrade (w.hand did mutex)
  | clear {w : Writing} {did : Did} (free : w.clearing = none) (missed : w.upgrade did = none) :
      Step w .clear { w with clearing := some ⟨did, w.held⟩ }
  | retain {w : Writing} {did : Did} {rest : List (Did × ℕ)} {row : Did × ℕ}
      (within : w.clearing = some ⟨did, rest⟩) (next : row ∈ rest)
      (live : 0 < w.strongCount row.2) :
      Step w .retain { w with clearing := some ⟨did, rest.erase row⟩ }
  | remove {w : Writing} {did : Did} {rest : List (Did × ℕ)} {row : Did × ℕ}
      (within : w.clearing = some ⟨did, rest⟩) (next : row ∈ rest)
      (dead : w.strongCount row.2 = 0) :
      Step w .remove { w with held := w.held.erase row, clearing := some ⟨did, rest.erase row⟩ }
  | make {w : Writing} {did : Did} (within : w.clearing = some ⟨did, []⟩) :
      Step w .make (w.make did)
  | lock {w : Writing} {pre post : List Turn} {did : Did} {mutex : ℕ}
      (waits : w.turns = pre ++ ⟨did, mutex, .waiting⟩ :: post)
      (free : ∀ t ∈ w.turns, t.mutex = mutex → t.hold ≠ .guard) :
      Step w .lock { w with turns := pre ++ ⟨did, mutex, .guard⟩ :: post }
  | release {w : Writing} {pre post : List Turn} {did : Did} {mutex : ℕ}
      (holds : w.turns = pre ++ ⟨did, mutex, .guard⟩ :: post) :
      Step w .release { w with turns := pre ++ ⟨did, mutex, .released⟩ :: post }
  | drop {w : Writing} {pre post : List Turn} {t : Turn} (has : w.turns = pre ++ t :: post)
      (unlocked : t.hold ≠ .guard) : Step w .drop { w with turns := pre ++ post }

/-- What was held when the latest lock was made, what had been let go since the call that made it
set out to clear the table, and what has been let go since the latest such call did. -/
structure Past where
  held : List ℕ
  letGo : List ℕ
  going : List ℕ

def Past.after (past : Past) (w w' : Writing) : Event → Past
  | .clear => { past with going := [] }
  | .make => ⟨w'.mutexes.dedup, past.going, []⟩
  | .drop => { past with going := past.going ++ w.mutexes.dedup.filter fun m => w'.strongCount m = 0 }
  | _ => past

/-- Any order of steps, or with `whole` any in which nothing is dropped while a call is clearing the
table. -/
inductive Reachable (whole : Bool) : Writing → Past → Prop
  | empty : Reachable whole empty ⟨[], [], []⟩
  | step {w w' : Writing} {past : Past} {e : Event} (h : Reachable whole w past) (hs : Step w e w')
      (hw : whole = true → e = .drop → w.clearing = none) :
      Reachable whole w' (past.after w w' e)

/-- Calls of `turn`, each taken whole, and what writers do with a lock in between. -/
inductive Whole : Writing → Prop
  | empty : Whole empty
  | turn {w : Writing} (h : Whole w) (did : Did) : Whole (w.turn did)
  | between {w w' : Writing} {e : Event} (h : Whole w) (hs : Step w e w')
      (he : e = .lock ∨ e = .release ∨ e = .drop) : Whole w'

variable {w w' : Writing} {e : Event}

/-! ## Which lock is held -/

theorem mem_mutexes {mutex : ℕ} : mutex ∈ w.mutexes ↔ ∃ t ∈ w.turns, t.mutex = mutex := List.mem_map

theorem strongCount_pos {mutex : ℕ} : 0 < w.strongCount mutex ↔ mutex ∈ w.mutexes :=
  List.count_pos_iff

theorem strongCount_eq_zero {mutex : ℕ} : w.strongCount mutex = 0 ↔ mutex ∉ w.mutexes :=
  List.count_eq_zero

/-- Taking a lock and letting it go change what is held of it and nothing else. -/
theorem exists_row_eq {pre post : List Turn} {t u : Turn} (has : w.turns = pre ++ t :: post)
    (heq : t.row = u.row) : ∀ x ∈ pre ++ u :: post, ∃ y ∈ w.turns, y.row = x.row := by
  intro x hx
  rw [has]
  rcases List.mem_append.mp hx with hx | hx
  · exact ⟨x, List.mem_append_left _ hx, rfl⟩
  · rcases List.mem_cons.mp hx with rfl | hx
    · exact ⟨t, List.mem_append_right _ List.mem_cons_self, heq⟩
    · exact ⟨x, List.mem_append_right _ (List.mem_cons_of_mem _ hx), rfl⟩

/-- What is handed out is in the table under its account, and no lock is there twice. An account
that a call is making a lock for has none in the table but where `retain` has yet to come. -/
structure Listed (w : Writing) : Prop where
  keyed : Table.Keyed Prod.fst w.held
  distinct : Table.Keyed Prod.snd w.held
  made : ∀ row ∈ w.held, row.2 < w.next
  listed : ∀ t ∈ w.turns, t.row ∈ w.held
  idle : ∀ did rest, w.clearing = some ⟨did, rest⟩ → ∀ t ∈ w.turns, t.did ≠ did
  left : ∀ did rest, w.clearing = some ⟨did, rest⟩ → ∀ row ∈ w.held, row.1 = did → row ∈ rest

/-- No two guards of one lock. -/
def Alone (w : Writing) : Prop :=
  ∀ mutex, w.turns.countP (fun t => t.mutex = mutex ∧ t.hold = .guard) ≤ 1

namespace Listed

theorem of_mutex_eq (h : w.Listed) {row row' : Did × ℕ} (hr : row ∈ w.held) (hr' : row' ∈ w.held)
    (heq : row.2 = row'.2) : row = row' := List.inj_on_of_nodup_map h.distinct hr hr' heq

theorem of_did_eq (h : w.Listed) {row row' : Did × ℕ} (hr : row ∈ w.held) (hr' : row' ∈ w.held)
    (heq : row.1 = row'.1) : row = row' := List.inj_on_of_nodup_map h.keyed hr hr' heq

/-- Whoever holds a lock in the table holds it for the account it is there for. -/
theorem did_eq (h : w.Listed) {row : Did × ℕ} (hr : row ∈ w.held) {t : Turn} (ht : t ∈ w.turns)
    (heq : t.mutex = row.2) : t.did = row.1 :=
  congrArg Prod.fst (h.of_mutex_eq (h.listed t ht) hr heq)

theorem mutex_eq (h : w.Listed) {t u : Turn} (ht : t ∈ w.turns) (hu : u ∈ w.turns)
    (heq : t.did = u.did) : t.mutex = u.mutex :=
  congrArg Prod.snd (h.of_did_eq (h.listed t ht) (h.listed u hu) heq)

/-- Nobody holds a lock for an account that upgrading finds none for. -/
theorem did_ne_of_upgrade (h : w.Listed) {did : Did} (hnone : w.upgrade did = none) {t : Turn}
    (ht : t ∈ w.turns) : t.did ≠ did := by
  rintro rfl
  have hfind := (h.keyed.find_eq_some (k := t.did)).mpr ⟨h.listed t ht, rfl⟩
  have hlive : 0 < w.strongCount t.mutex := strongCount_pos.mpr (mem_mutexes.mpr ⟨t, ht, rfl⟩)
  rw [upgrade, hfind, Option.map_some, Option.filter_eq_none_iff] at hnone
  exact hnone t.mutex rfl (decide_eq_true hlive)

/-- Letting go and dropping leave the table as it is, and hand out nothing. -/
theorem of_subset (h : w.Listed) {turns : List Turn}
    (hsub : ∀ t ∈ turns, ∃ u ∈ w.turns, u.row = t.row) : { w with turns := turns }.Listed := by
  refine ⟨h.keyed, h.distinct, h.made, ?_, ?_, h.left⟩
  · intro t ht
    obtain ⟨u, hu, heq⟩ := hsub t ht
    rw [← heq]
    exact h.listed u hu
  · intro did rest hc t ht
    obtain ⟨u, hu, heq⟩ := hsub t ht
    have hdid : u.did = t.did := congrArg Prod.fst heq
    rw [← hdid]
    exact h.idle did rest hc u hu

/-- A row that the clearing has visited, kept or not, is none of the account it makes a lock for. -/
theorem visit (h : w.Listed) {did : Did} {rest : List (Did × ℕ)} {row : Did × ℕ}
    (hc : w.clearing = some ⟨did, rest⟩) {held : List (Did × ℕ)} (hsub : held.Sublist w.held)
    (hlisted : ∀ t ∈ w.turns, t.row ∈ held) (hvisit : row ∈ held → row.1 ≠ did) :
    { w with held := held, clearing := some ⟨did, rest.erase row⟩ }.Listed := by
  refine ⟨h.keyed.sublist (hsub.map _), h.distinct.sublist (hsub.map _), ?_, hlisted, ?_, ?_⟩
  · intro r hr
    exact h.made r (hsub.subset hr)
  · intro did' rest' hc' t ht
    obtain ⟨rfl, -⟩ := Clearing.mk.inj (Option.some.inj hc')
    exact h.idle did rest hc t ht
  · intro did' rest' hc' r hr hdid
    obtain ⟨rfl, rfl⟩ := Clearing.mk.inj (Option.some.inj hc')
    have hne : r ≠ row := by
      rintro rfl
      exact hvisit hr hdid
    exact (List.mem_erase_of_ne hne).mpr (h.left did rest hc r (hsub.subset hr) hdid)

/-- When everything is visited, nothing is left in the table for the account. -/
theorem find_eq_none (h : w.Listed) {did : Did} (hc : w.clearing = some ⟨did, []⟩) :
    Table.find Prod.fst did w.held = none := by
  apply Table.find_eq_none.mpr
  intro row hr hdid
  cases h.left did [] hc row hr hdid

theorem held_make (h : w.Listed) {did : Did} (hc : w.clearing = some ⟨did, []⟩) :
    (w.make did).held = w.held ++ [(did, w.next)] := by
  rw [Writing.make, Table.upsert, h.find_eq_none hc]
  rfl

theorem make (h : w.Listed) {did : Did} (hc : w.clearing = some ⟨did, []⟩) : (w.make did).Listed := by
  have hheld := h.held_make hc
  refine ⟨?_, ?_, ?_, ?_, ?_, ?_⟩
  · rw [hheld]
    exact h.keyed.concat (h.find_eq_none hc)
  · rw [hheld]
    apply h.distinct.concat
    apply Table.find_eq_none.mpr
    intro row hr heq
    have := h.made row hr
    omega
  · rw [hheld]
    intro row hr
    rcases List.mem_append.mp hr with hr | hr
    · exact Nat.lt_succ_of_lt (h.made row hr)
    · obtain rfl := List.mem_singleton.mp hr
      exact Nat.lt_succ_self w.next
  · rw [hheld]
    intro t ht
    rcases List.mem_append.mp ht with ht | ht
    · exact List.mem_append_left _ (h.listed t ht)
    · obtain rfl := List.mem_singleton.mp ht
      exact List.mem_append_right _ List.mem_cons_self
  · intro did' rest hc'
    cases hc'
  · intro did' rest hc'
    cases hc'

theorem step (h : w.Listed) (hs : Step w e w') : w'.Listed := by
  cases hs with
  | upgrade free found =>
    rename_i did mutex
    obtain ⟨hmutex, -⟩ := Option.filter_eq_some_iff.mp found
    obtain ⟨row, hfind, rfl⟩ := Option.map_eq_some_iff.mp hmutex
    refine ⟨h.keyed, h.distinct, h.made, ?_, ?_, ?_⟩
    · intro t ht
      rcases List.mem_append.mp ht with ht | ht
      · exact h.listed t ht
      · obtain rfl := List.mem_singleton.mp ht
        have hdid : row.1 = did := Table.key_of_find hfind
        have hrow := Table.mem_of_find hfind
        rwa [← hdid]
    · intro did' rest hc
      have := free.symm.trans hc
      cases this
    · intro did' rest hc
      have := free.symm.trans hc
      cases this
  | clear free missed =>
    refine ⟨h.keyed, h.distinct, h.made, h.listed, ?_, ?_⟩
    · intro did' rest hc t ht
      obtain ⟨rfl, -⟩ := Clearing.mk.inj (Option.some.inj hc)
      exact h.did_ne_of_upgrade missed ht
    · intro did' rest hc row hr _
      obtain ⟨-, rfl⟩ := Clearing.mk.inj (Option.some.inj hc)
      exact hr
  | retain within next live =>
    apply h.visit within (List.Sublist.refl _) h.listed
    intro hr hdid
    obtain ⟨t, ht, heq⟩ := mem_mutexes.mp (strongCount_pos.mp live)
    exact h.idle _ _ within t ht ((h.did_eq hr ht heq).trans hdid)
  | remove within next dead =>
    rename_i did rest row
    have hnodup : w.held.Nodup := h.keyed.of_map
    apply h.visit within List.erase_sublist
    · intro t ht
      have hne : t.row ≠ row := by
        rintro rfl
        exact strongCount_eq_zero.mp dead (mem_mutexes.mpr ⟨t, ht, rfl⟩)
      exact (List.mem_erase_of_ne hne).mpr (h.listed t ht)
    · intro hr
      exact absurd rfl (hnodup.mem_erase_iff.mp hr).1
  | make within => exact h.make within
  | lock waits free => exact h.of_subset (exists_row_eq waits rfl)
  | release holds => exact h.of_subset (exists_row_eq holds rfl)
  | drop has unlocked =>
    apply h.of_subset
    intro t ht
    refine ⟨t, ?_, rfl⟩
    rw [has]
    exact ((List.sublist_cons_self _ _).append_left _).subset ht

end Listed

theorem Alone.concat (h : w.Alone) (did : Did) (m mutex : ℕ) :
    (w.turns ++ [(⟨did, m, .waiting⟩ : Turn)]).countP
      (fun t => t.mutex = mutex ∧ t.hold = .guard) ≤ 1 := by
  rw [List.countP_append, List.countP_singleton, if_neg (by simp), Nat.add_zero]
  exact h mutex

/-- A lock that is taken was free, and nothing else makes a guard. -/
theorem Alone.step (h : w.Alone) (hs : Step w e w') : w'.Alone := by
  intro mutex
  have hold := h mutex
  cases hs with
  | upgrade free found => exact Alone.concat h _ _ mutex
  | make within => exact Alone.concat h _ _ mutex
  | clear | retain | remove => exact hold
  | lock waits free =>
    rename_i pre post did m
    rw [waits] at hold free
    by_cases hm : m = mutex
    · have hnone : ∀ l : List Turn, (∀ t ∈ l, t ∈ pre ++ ⟨did, m, .waiting⟩ :: post) →
          l.countP (fun t => t.mutex = mutex ∧ t.hold = .guard) = 0 := by
        intro l hl
        apply List.countP_eq_zero.mpr
        intro t ht hguard
        have hguard := of_decide_eq_true hguard
        exact free t (hl t ht) (hguard.1.trans hm.symm) hguard.2
      have hpre := hnone pre fun t ht => List.mem_append_left _ ht
      have hpost := hnone post fun t ht => List.mem_append_right _ (List.mem_cons_of_mem _ ht)
      rw [List.countP_append, List.countP_cons, hpre, hpost]
      split_ifs <;> decide
    · rw [List.countP_append, List.countP_cons, if_neg (by simp)] at hold
      rw [List.countP_append, List.countP_cons, if_neg (by simp [hm])]
      exact hold
  | release holds =>
    rw [holds, List.countP_append, List.countP_cons] at hold
    rw [List.countP_append, List.countP_cons, if_neg (by simp)]
    omega
  | drop has unlocked =>
    rw [has, List.countP_append, List.countP_cons] at hold
    rw [List.countP_append]
    omega

/-- What the clearing has visited and kept was live, and is unless it was let go since. -/
structure Recorded (w : Writing) (past : Past) : Prop where
  known : ∀ row ∈ w.held, row.2 ∈ past.held ∨ row.2 ∈ past.letGo
  visited : ∀ did rest, w.clearing = some ⟨did, rest⟩ → ∀ row ∈ w.held, row ∉ rest →
    row.2 ∈ w.mutexes ∨ row.2 ∈ past.going

namespace Recorded

variable {past : Past}

/-- Steps that hand out more or let nothing die keep what is known of a clearing. -/
theorem of_mutexes (h : w.Recorded past) (hheld : w'.held = w.held)
    (hclearing : w'.clearing = w.clearing) (hmutexes : ∀ m ∈ w.mutexes, m ∈ w'.mutexes) :
    w'.Recorded past := by
  refine ⟨?_, ?_⟩
  · rw [hheld]
    exact h.known
  · rw [hheld, hclearing]
    intro did rest hc row hr hrest
    exact (h.visited did rest hc row hr hrest).imp_left (hmutexes row.2)

theorem step (hl : w.Listed) (h : w.Recorded past) (hs : Step w e w') :
    w'.Recorded (past.after w w' e) := by
  cases hs with
  | upgrade free found =>
    apply of_mutexes h
    · rfl
    · rfl
    · intro m hm
      rw [mutexes, hand, List.map_append]
      exact List.mem_append_left _ hm
  | clear free missed =>
    refine ⟨h.known, ?_⟩
    intro did rest hc row hr hrest
    obtain ⟨-, rfl⟩ := Clearing.mk.inj (Option.some.inj hc)
    exact absurd hr hrest
  | retain within next live =>
    rename_i did rest row
    refine ⟨h.known, ?_⟩
    intro did' rest' hc r hr hrest
    obtain ⟨-, rfl⟩ := Clearing.mk.inj (Option.some.inj hc)
    by_cases heq : r = row
    · subst heq
      exact Or.inl (strongCount_pos.mp live)
    · exact h.visited did rest within r hr fun hin => hrest ((List.mem_erase_of_ne heq).mpr hin)
  | remove within next dead =>
    rename_i did rest row
    have hsub : ∀ r ∈ w.held.erase row, r ∈ w.held := fun r hr => List.mem_of_mem_erase hr
    refine ⟨fun r hr => h.known r (hsub r hr), ?_⟩
    intro did' rest' hc r hr hrest
    obtain ⟨-, rfl⟩ := Clearing.mk.inj (Option.some.inj hc)
    have hne : r ≠ row := by
      rintro rfl
      have hnodup : w.held.Nodup := hl.keyed.of_map
      exact absurd rfl (hnodup.mem_erase_iff.mp hr).1
    exact h.visited did rest within r (hsub r hr) fun hin => hrest ((List.mem_erase_of_ne hne).mpr hin)
  | make within =>
    rename_i did
    refine ⟨?_, ?_⟩
    · intro row hr
      rw [hl.held_make within] at hr
      rcases List.mem_append.mp hr with hr | hr
      · apply (h.visited did [] within row hr List.not_mem_nil).imp_left
        intro hm
        apply List.mem_dedup.mpr
        rw [mutexes, Writing.make, List.map_append]
        exact List.mem_append_left _ hm
      · obtain rfl := List.mem_singleton.mp hr
        left
        apply List.mem_dedup.mpr
        rw [mutexes, Writing.make, List.map_append]
        exact List.mem_append_right _ List.mem_cons_self
    · intro did' rest hc
      cases hc
  | lock waits free =>
    apply of_mutexes h
    · rfl
    · rfl
    · intro m hm
      rw [mutexes, waits] at hm
      simpa [mutexes] using hm
  | release holds =>
    apply of_mutexes h
    · rfl
    · rfl
    · intro m hm
      rw [mutexes, holds] at hm
      simpa [mutexes] using hm
  | drop has unlocked =>
    rename_i pre post t
    refine ⟨h.known, ?_⟩
    intro did rest hc row hr hrest
    rcases h.visited did rest hc row hr hrest with hm | hm
    · by_cases hlive : row.2 ∈ { w with turns := pre ++ post }.mutexes
      · exact Or.inl hlive
      · right
        apply List.mem_append_right
        apply List.mem_filter.mpr
        exact ⟨List.mem_dedup.mpr hm, decide_eq_true (strongCount_eq_zero.mpr hlive)⟩
    · exact Or.inr (List.mem_append_left _ hm)

end Recorded

/-! ## Calls -/

/-- A step of a call. -/
def Goes (w w' : Writing) : Prop := ∃ e, e ≠ .drop ∧ Step w e w'

/-- A clearing that nothing comes between leaves the locks that are held. -/
theorem clears {did : Did} {rest : List (Did × ℕ)} (hnodup : w.held.Nodup)
    (hc : w.clearing = some ⟨did, rest⟩) :
    Relation.ReflTransGen Goes w
      { w with held := w.held.filter fun row => row ∉ rest ∨ 0 < w.strongCount row.2,
               clearing := some ⟨did, []⟩ } := by
  induction rest generalizing w with
  | nil =>
    have hheld : (w.held.filter fun row => row ∉ ([] : List (Did × ℕ)) ∨ 0 < w.strongCount row.2) =
        w.held := List.filter_eq_self.mpr (by simp)
    rw [hheld, ← hc]
  | cons row rest ih =>
    have hrest : (row :: rest).erase row = rest := List.erase_cons_head row rest
    by_cases hlive : 0 < w.strongCount row.2
    · have hstep := Step.retain hc List.mem_cons_self hlive
      rw [hrest] at hstep
      apply Relation.ReflTransGen.head ⟨_, by decide, hstep⟩
      have hgoes := ih (w := { w with clearing := some ⟨did, rest⟩ }) hnodup rfl
      have hheld : w.held.filter (fun r => r ∉ rest ∨ 0 < w.strongCount r.2) =
          w.held.filter fun r => r ∉ row :: rest ∨ 0 < w.strongCount r.2 := by
        apply List.filter_congr
        intro r _
        by_cases heq : r = row
        · simp [heq, hlive]
        · simp [heq]
      rw [← hheld]
      exact hgoes
    · have hdead : w.strongCount row.2 = 0 := by omega
      have hstep := Step.remove hc List.mem_cons_self hdead
      rw [hrest] at hstep
      apply Relation.ReflTransGen.head ⟨_, by decide, hstep⟩
      have hgoes := ih (w := { w with held := w.held.erase row, clearing := some ⟨did, rest⟩ })
        (hnodup.erase row) rfl
      have hheld : (w.held.erase row).filter (fun r => r ∉ rest ∨ 0 < w.strongCount r.2) =
          w.held.filter fun r => r ∉ row :: rest ∨ 0 < w.strongCount r.2 := by
        rw [hnodup.erase_eq_filter, List.filter_filter]
        apply List.filter_congr
        intro r _
        by_cases heq : r = row
        · simp [heq, hdead]
        · simp [heq]
      rw [← hheld]
      exact hgoes

/-- What `turn` comes to is reached step by step. -/
theorem turn_steps (h : w.Listed) (free : w.clearing = none) (did : Did) :
    Relation.ReflTransGen Goes w (w.turn did) := by
  rw [turn]
  cases hup : w.upgrade did with
  | some mutex => exact Relation.ReflTransGen.single ⟨_, by decide, Step.upgrade free hup⟩
  | none =>
    have hheld : (w.held.filter fun row => row ∉ w.held ∨ 0 < w.strongCount row.2) =
        w.held.filter fun row => 0 < w.strongCount row.2 := by
      apply List.filter_congr
      intro row hr
      simp [hr]
    have hgoes := clears (w := { w with clearing := some ⟨did, w.held⟩ }) h.keyed.of_map rfl
    have hcleared : Relation.ReflTransGen Goes w
        { w with held := w.held.filter fun row => 0 < w.strongCount row.2,
                 clearing := some ⟨did, []⟩ } := by
      rw [← hheld]
      exact hgoes.head ⟨_, by decide, Step.clear free hup⟩
    exact hcleared.tail ⟨_, by decide, Step.make rfl⟩

/-! ## Runs -/

variable {whole : Bool} {past : Past}

theorem Reachable.listed (h : Reachable whole w past) : w.Listed := by
  induction h with
  | empty =>
    refine ⟨Table.keyed_nil _, Table.keyed_nil _, ?_, ?_, ?_, ?_⟩
    all_goals simp [Writing.empty]
  | step h hs hw ih => exact ih.step hs

theorem Reachable.alone (h : Reachable whole w past) : w.Alone := by
  induction h with
  | empty =>
    intro mutex
    exact Nat.zero_le 1
  | step h hs hw ih => exact ih.step hs

theorem Reachable.recorded (h : Reachable whole w past) : w.Recorded past := by
  induction h with
  | empty => exact ⟨by simp [Writing.empty], by simp [Writing.empty]⟩
  | step h hs hw ih => exact Recorded.step h.listed ih hs

/-- Where calls are not interrupted by drops, nothing is let go while one is clearing. -/
theorem Reachable.letGo_eq_nil (h : Reachable whole w past) (hwhole : whole = true) :
    past.letGo = [] ∧ ∀ c, w.clearing = some c → past.going = [] := by
  induction h with
  | empty => exact ⟨rfl, fun _ _ => rfl⟩
  | step h hs hw ih =>
    obtain ⟨hletGo, hgoing⟩ := ih
    cases hs with
    | upgrade | lock | release => exact ⟨hletGo, hgoing⟩
    | clear => exact ⟨hletGo, fun _ _ => rfl⟩
    | retain within | remove within => exact ⟨hletGo, fun _ _ => hgoing _ within⟩
    | make within => exact ⟨hgoing _ within, fun _ _ => rfl⟩
    | drop has unlocked =>
      refine ⟨hletGo, ?_⟩
      intro c hc
      have := (hw hwhole rfl).symm.trans hc
      cases this

theorem Reachable.goes (h : Reachable whole w past) (hgoes : Relation.ReflTransGen Goes w w') :
    ∃ past', Reachable whole w' past' := by
  induction hgoes with
  | refl => exact ⟨past, h⟩
  | tail _ hstep ih =>
    obtain ⟨past', h'⟩ := ih
    obtain ⟨e, hne, hs⟩ := hstep
    exact ⟨_, h'.step hs fun _ he => absurd he hne⟩

theorem clearing_turn (free : w.clearing = none) (did : Did) : (w.turn did).clearing = none := by
  rw [turn]
  cases w.upgrade did with
  | some mutex => exact free
  | none => rfl

/-- What whole calls come to is a run in which nothing is dropped while a call is clearing. -/
theorem Whole.reachable (h : Whole w) : w.clearing = none ∧ ∃ past, Reachable true w past := by
  induction h with
  | empty => exact ⟨rfl, _, .empty⟩
  | turn _ did ih =>
    obtain ⟨free, past, h⟩ := ih
    exact ⟨clearing_turn free did, h.goes (turn_steps h.listed free did)⟩
  | between _ hs he ih =>
    obtain ⟨free, past, h⟩ := ih
    refine ⟨?_, _, h.step hs fun _ _ => free⟩
    cases hs with
    | lock | release | drop => exact free
    | upgrade | clear | retain | remove | make => simp at he

/-- Where a call that is clearing the table set out from, as if nothing had been done yet. -/
structure Midway (w : Writing) (did : Did) (rest found : List (Did × ℕ)) : Prop where
  began : Whole { w with held := found, clearing := none }
  missed : { w with held := found, clearing := none }.upgrade did = none
  distinct : found.Nodup
  once : rest.Nodup
  held : w.held = found.filter fun row => row ∈ rest ∨ 0 < w.strongCount row.2

namespace Midway

variable {did : Did} {rest found : List (Did × ℕ)}

/-- A call that finds no lock sets out to visit every row. -/
theorem start (h : Whole w) (hlisted : w.Listed) (free : w.clearing = none)
    (missed : w.upgrade did = none) :
    { w with clearing := some ⟨did, w.held⟩ }.Midway did w.held w.held := by
  have hsame : { w with held := w.held, clearing := none } = w := by rw [← free]
  have hnodup : w.held.Nodup := hlisted.keyed.of_map
  refine ⟨hsame ▸ h, hsame ▸ missed, hnodup, hnodup, ?_⟩
  exact (List.filter_eq_self.mpr fun row hr => by simp [hr]).symm

/-- What visits a row keeps it if it is held. -/
theorem visit (h : w.Midway did rest found) {row : Did × ℕ} {held : List (Did × ℕ)}
    (hheld : held = w.held.filter fun r => r ≠ row ∨ 0 < w.strongCount r.2) :
    { w with held := held, clearing := some ⟨did, rest.erase row⟩ }.Midway did (rest.erase row)
      found := by
  refine ⟨h.began, h.missed, h.distinct, h.once.erase row, ?_⟩
  change held = found.filter fun r => r ∈ rest.erase row ∨ 0 < w.strongCount r.2
  rw [hheld, h.held, List.filter_filter]
  apply List.filter_congr
  intro r _
  by_cases heq : r = row
  · have hkept : 0 < w.strongCount row.2 → row ∈ rest ∨ 0 < w.strongCount row.2 := Or.inr
    simpa [heq, h.once.not_mem_erase] using hkept
  · simp [heq, List.mem_erase_of_ne heq]

theorem retain (h : w.Midway did rest found) {row : Did × ℕ} (live : 0 < w.strongCount row.2) :
    { w with clearing := some ⟨did, rest.erase row⟩ }.Midway did (rest.erase row) found := by
  apply h.visit
  refine (List.filter_eq_self.mpr fun r _ => ?_).symm
  by_cases heq : r = row
  · simp [heq, live]
  · simp [heq]

theorem remove (h : w.Midway did rest found) (hlisted : w.Listed) {row : Did × ℕ}
    (dead : w.strongCount row.2 = 0) :
    { w with held := w.held.erase row, clearing := some ⟨did, rest.erase row⟩ }.Midway did
      (rest.erase row) found := by
  apply h.visit
  rw [hlisted.keyed.of_map.erase_eq_filter]
  apply List.filter_congr
  intro r _
  by_cases heq : r = row
  · simp [heq, dead]
  · simp [heq]

/-- With every row visited the table is what the call has made of it. -/
theorem make (h : w.Midway did [] found) : Whole (w.make did) := by
  have hturn := h.began.turn did
  rw [turn, h.missed] at hturn
  have hheld := h.held
  simp only [List.not_mem_nil, false_or] at hheld
  unfold Writing.make
  rw [hheld]
  exact hturn

/-- Taking a lock and letting it go come to the same before the call. -/
theorem between (h : w.Midway did rest found) {turns : List Turn}
    (hmutexes : turns.map Turn.mutex = w.mutexes)
    (hbegan : Whole { w with held := found, turns := turns, clearing := none }) :
    { w with turns := turns }.Midway did rest found := by
  have hcount : ∀ mutex, { w with turns := turns }.strongCount mutex = w.strongCount mutex :=
    fun mutex => congrArg (List.count mutex) hmutexes
  refine ⟨hbegan, ?_, h.distinct, h.once, ?_⟩
  · have hmissed := h.missed
    unfold upgrade strongCount mutexes at hmissed ⊢
    rw [hmutexes]
    exact hmissed
  · simp only [hcount]
    exact h.held

end Midway

/-- What a state is in a run in which nothing is dropped while a call is clearing: one between whole
calls, but for the call that is under way. -/
def Underway (w : Writing) : Prop :=
  match w.clearing with
  | none => Whole w
  | some clearing => ∃ found, w.Midway clearing.did clearing.rest found

theorem underway_free (free : w.clearing = none) : w.Underway ↔ Whole w := by
  rw [Underway, free]

theorem underway_busy {clearing : Clearing} (busy : w.clearing = some clearing) :
    w.Underway ↔ ∃ found, w.Midway clearing.did clearing.rest found := by
  rw [Underway, busy]

/-- Taking a lock and letting it go are the same whether or not a call is under way. -/
theorem Underway.between (h : w.Underway) {pre post : List Turn} {did : Did} {mutex : ℕ}
    {hold hold' : Hold} {e : Event} (hturns : w.turns = pre ++ ⟨did, mutex, hold⟩ :: post)
    (he : e = .lock ∨ e = .release ∨ e = .drop)
    (hs : ∀ held clearing, Step (⟨held, w.turns, w.next, clearing⟩ : Writing) e
      { w with held := held, turns := pre ++ ⟨did, mutex, hold'⟩ :: post, clearing := clearing }) :
    Underway { w with turns := pre ++ ⟨did, mutex, hold'⟩ :: post } := by
  rcases Option.eq_none_or_eq_some w.clearing with hc | ⟨clearing, hc⟩
  · refine (underway_free ?_).mpr (.between ((underway_free hc).mp h) (hs w.held w.clearing) he)
    exact hc
  · obtain ⟨found, hmidway⟩ := (underway_busy hc).mp h
    have hbegan := Whole.between hmidway.began (hs found none) he
    refine (underway_busy ?_).mpr ⟨found, hmidway.between ?_ hbegan⟩
    · exact hc
    · rw [mutexes, hturns]
      simp

theorem Reachable.underway (h : Reachable whole w past) (hwhole : whole = true) : w.Underway := by
  induction h with
  | empty => exact .empty
  | step h hs hw ih =>
    cases hs with
    | @upgrade did mutex free found =>
      have hturn := ((underway_free free).mp ih).turn did
      rw [turn, found] at hturn
      refine (underway_free ?_).mpr hturn
      exact free
    | clear free missed => exact ⟨_, .start ((underway_free free).mp ih) h.listed free missed⟩
    | retain within next live =>
      obtain ⟨found, hmidway⟩ := (underway_busy within).mp ih
      exact ⟨found, hmidway.retain live⟩
    | remove within next dead =>
      obtain ⟨found, hmidway⟩ := (underway_busy within).mp ih
      exact ⟨found, hmidway.remove h.listed dead⟩
    | make within =>
      obtain ⟨found, hmidway⟩ := (underway_busy within).mp ih
      exact (underway_free rfl).mpr hmidway.make
    | lock waits free => exact ih.between waits (Or.inl rfl) fun _ _ => .lock waits free
    | release holds =>
      exact ih.between holds (Or.inr (Or.inl rfl)) fun _ _ => .release holds
    | drop has unlocked =>
      have free := hw hwhole rfl
      have hfree := (underway_free free).mp ih
      refine (underway_free ?_).mpr (.between hfree (.drop has unlocked) (Or.inr (Or.inr rfl)))
      exact free

/-- The states between whole calls are those of the runs in which nothing is dropped while a call is
clearing the table, where no call is. -/
theorem whole_iff : Whole w ↔ w.clearing = none ∧ ∃ past, Reachable true w past := by
  constructor
  · exact Whole.reachable
  · rintro ⟨free, past, h⟩
    exact (underway_free free).mp (h.underway rfl)

/-- A call hands out one lock more. -/
theorem exists_turns_turn (w : Writing) (did : Did) :
    ∃ mutex, (w.turn did).turns = w.turns ++ [⟨did, mutex, .waiting⟩] := by
  rw [turn]
  cases w.upgrade did with
  | some mutex => exact ⟨mutex, rfl⟩
  | none => exact ⟨w.next, rfl⟩

/-- A call is a run of steps, and hands out the lock that others hold for the account, if any. -/
theorem Reachable.turn (h : Reachable whole w past) (free : w.clearing = none) (did : Did) :
    ∃ mutex past', Reachable whole (w.turn did) past' ∧
      (w.turn did).turns = w.turns ++ [⟨did, mutex, .waiting⟩] ∧
      ∀ t ∈ w.turns, t.did = did → t.mutex = mutex := by
  obtain ⟨past', h'⟩ := h.goes (turn_steps h.listed free did)
  obtain ⟨mutex, hturns⟩ := exists_turns_turn w did
  refine ⟨mutex, past', h', hturns, ?_⟩
  intro t ht hdid
  have ht' : t ∈ (w.turn did).turns := by
    rw [hturns]
    exact List.mem_append_left _ ht
  have hnew : ⟨did, mutex, .waiting⟩ ∈ (w.turn did).turns := by
    rw [hturns]
    exact List.mem_append_right _ (List.mem_singleton_self _)
  exact h'.listed.mutex_eq ht' hnew hdid

/-- No more locks are in the table than writers held when the latest was made, and let go while it
was. -/
theorem Reachable.length_held_le (h : Reachable whole w past) :
    w.held.length ≤ past.held.length + past.letGo.length := by
  have hsub : w.held.map Prod.snd ⊆ past.held ++ past.letGo := by
    intro m hm
    obtain ⟨row, hr, rfl⟩ := List.mem_map.mp hm
    exact List.mem_append.mpr (h.recorded.known row hr)
  have hle := (List.subperm_of_subset h.listed.distinct hsub).length_le
  rwa [List.length_map, List.length_append] at hle

/-- What a step takes from the table is no lock anybody holds, nor one of an account anybody holds a
lock for. -/
theorem Listed.removed (h : w.Listed) (hs : Step w e w') {row : Did × ℕ} (hr : row ∈ w.held)
    (hr' : row ∉ w'.held) : ∀ t ∈ w.turns, t.mutex ≠ row.2 ∧ t.did ≠ row.1 := by
  have hdead : row.2 ∉ w.mutexes := by
    cases hs with
    | upgrade | clear | retain | lock | release | drop => exact absurd hr hr'
    | remove within next dead =>
      rename_i did rest row'
      have heq : row = row' := by
        by_contra hne
        exact hr' ((List.mem_erase_of_ne hne).mpr hr)
      subst heq
      exact strongCount_eq_zero.mp dead
    | make within =>
      rw [h.held_make within] at hr'
      exact absurd (List.mem_append_left _ hr) hr'
  intro t ht
  have hne : t.mutex ≠ row.2 := fun heq => hdead (mem_mutexes.mpr ⟨t, ht, heq⟩)
  refine ⟨hne, ?_⟩
  intro hdid
  exact hne (congrArg Prod.snd (h.of_did_eq (h.listed t ht) hr hdid))

/-- At most one writer to an account holds a guard. -/
theorem Listed.countP_guard_le (h : w.Listed) (ha : w.Alone) (did : Did) :
    w.turns.countP (fun t => t.did = did ∧ t.hold = .guard) ≤ 1 := by
  by_cases hex : ∃ t ∈ w.turns, t.did = did
  · obtain ⟨t, ht, rfl⟩ := hex
    have hmono : w.turns.countP (fun u => u.did = t.did ∧ u.hold = .guard) ≤
        w.turns.countP (fun u => u.mutex = t.mutex ∧ u.hold = .guard) := by
      apply List.countP_mono_left
      intro u hu hguard
      have hguard := of_decide_eq_true hguard
      exact decide_eq_true ⟨h.mutex_eq hu ht hguard.1, hguard.2⟩
    exact hmono.trans (ha t.mutex)
  · have hnone : w.turns.countP (fun t => t.did = did ∧ t.hold = .guard) = 0 := by
      apply List.countP_eq_zero.mpr
      intro t ht hguard
      exact hex ⟨t, ht, (of_decide_eq_true hguard).1⟩
    omega

/-- Whoever calls `turn` is handed the lock that everybody else there has, so that one at a time
holds a guard. Clearing the table takes out no lock that anybody holds. What is dead in it was held
when the latest lock was made, or was let go while the call that made it was clearing the table,
which nothing was if calls are taken whole; there are no more locks in it than that. -/
theorem turns_exact (h : Reachable whole w past) :
    (∀ t ∈ w.turns, ∀ u ∈ w.turns, t.did = u.did → t.mutex = u.mutex) ∧
      (∀ did, w.turns.countP (fun t => t.did = did ∧ t.hold = .guard) ≤ 1) ∧
      (∀ e w', Step w e w' → ∀ row ∈ w.held, row ∉ w'.held →
        ∀ t ∈ w.turns, t.mutex ≠ row.2 ∧ t.did ≠ row.1) ∧
      (∀ row ∈ w.held, w.strongCount row.2 = 0 → row.2 ∈ past.held ∨ row.2 ∈ past.letGo) ∧
      (whole = true → past.letGo = []) ∧
      w.held.length ≤ past.held.length + past.letGo.length ∧
      (w.clearing = none → ∀ did, ∃ mutex past', Reachable whole (w.turn did) past' ∧
        (w.turn did).turns = w.turns ++ [⟨did, mutex, .waiting⟩] ∧
        ∀ t ∈ w.turns, t.did = did → t.mutex = mutex) ∧
      (whole = true → w.clearing = none → w.Whole) := by
  have hl := h.listed
  refine ⟨fun t ht u hu => hl.mutex_eq ht hu, hl.countP_guard_le h.alone,
    fun e w' hs row => hl.removed hs, fun row hr _ => h.recorded.known row hr, ?_,
    h.length_held_le, h.turn, ?_⟩
  · intro hwhole
    exact (h.letGo_eq_nil hwhole).1
  · rintro rfl free
    exact whole_iff.mpr ⟨free, past, h⟩

theorem firstWriter_valid : Did.validate (text "did:web:first.example") = .ok () := by decide

theorem secondWriter_valid : Did.validate (text "did:web:second.example") = .ok () := by decide

def firstWriter : Did := ⟨text "did:web:first.example", firstWriter_valid⟩

def secondWriter : Did := ⟨text "did:web:second.example", secondWriter_valid⟩

/-- One account's lock is let go after another's was made, and is dead in the table. -/
def abandoned : Writing :=
  ⟨[(firstWriter, 0), (secondWriter, 1)], [⟨secondWriter, 1, .waiting⟩], 2, none⟩

theorem reachable_abandoned : Reachable true abandoned ⟨[0, 1], [], [0]⟩ := by
  have hclear : Step empty .clear ⟨[], [], 0, some ⟨firstWriter, []⟩⟩ := Step.clear rfl rfl
  have hmake : Step ⟨[], [], 0, some ⟨firstWriter, []⟩⟩ .make
      ⟨[(firstWriter, 0)], [⟨firstWriter, 0, .waiting⟩], 1, none⟩ := Step.make rfl
  have hlock : Step ⟨[(firstWriter, 0)], [⟨firstWriter, 0, .waiting⟩], 1, none⟩ .lock
      ⟨[(firstWriter, 0)], [⟨firstWriter, 0, .guard⟩], 1, none⟩ :=
    @Step.lock _ [] [] _ _ rfl (by simp)
  have hclear' : Step ⟨[(firstWriter, 0)], [⟨firstWriter, 0, .guard⟩], 1, none⟩ .clear
      ⟨[(firstWriter, 0)], [⟨firstWriter, 0, .guard⟩], 1,
        some ⟨secondWriter, [(firstWriter, 0)]⟩⟩ := Step.clear rfl (by decide)
  have hretain : Step ⟨[(firstWriter, 0)], [⟨firstWriter, 0, .guard⟩], 1,
      some ⟨secondWriter, [(firstWriter, 0)]⟩⟩ .retain
      ⟨[(firstWriter, 0)], [⟨firstWriter, 0, .guard⟩], 1,
        some ⟨secondWriter, [(firstWriter, 0)].erase (firstWriter, 0)⟩⟩ :=
    Step.retain rfl List.mem_cons_self (by decide)
  rw [List.erase_cons_head] at hretain
  have hmake' := @Step.make ⟨[(firstWriter, 0)], [⟨firstWriter, 0, .guard⟩], 1,
    some ⟨secondWriter, []⟩⟩ secondWriter rfl
  rw [make, Table.upsert, if_neg (by decide)] at hmake'
  have hrelease : Step ⟨[(firstWriter, 0), (secondWriter, 1)],
      [⟨firstWriter, 0, .guard⟩, ⟨secondWriter, 1, .waiting⟩], 2, none⟩ .release
      ⟨[(firstWriter, 0), (secondWriter, 1)],
        [⟨firstWriter, 0, .released⟩, ⟨secondWriter, 1, .waiting⟩], 2, none⟩ :=
    @Step.release _ [] _ _ _ rfl
  have hdrop : Step ⟨[(firstWriter, 0), (secondWriter, 1)],
      [⟨firstWriter, 0, .released⟩, ⟨secondWriter, 1, .waiting⟩], 2, none⟩ .drop abandoned :=
    @Step.drop _ [] _ _ rfl (by decide)
  have hempty : Reachable true empty ⟨[], [], []⟩ := .empty
  have h := ((hempty.step hclear (by decide)).step hmake (by decide)).step hlock (by decide)
  have h := ((h.step hclear' (by decide)).step hretain (by decide)).step hmake' (by decide)
  exact (h.step hrelease (by decide)).step hdrop (fun _ _ => rfl)

/-- What is dead there is the lock the first account's writer held when the second's was made. The
next writer to the second account is handed the one it has. -/
theorem turns_exact_abandoned : abandoned.strongCount 0 = 0 ∧
    (0 ∈ [0, 1] ∨ 0 ∈ ([] : List ℕ)) ∧ abandoned.held.length ≤ 2 ∧ abandoned.Whole ∧
    (∃ past, Reachable true (abandoned.turn secondWriter) past) ∧
    (abandoned.turn secondWriter).turns =
      [⟨secondWriter, 1, .waiting⟩, ⟨secondWriter, 1, .waiting⟩] := by
  obtain ⟨-, -, -, hdead, -, hlength, hturn, hwhole⟩ := turns_exact reachable_abandoned
  obtain ⟨mutex, past, hreached, hturns, hsame⟩ := hturn rfl secondWriter
  obtain rfl := hsame ⟨secondWriter, 1, .waiting⟩ List.mem_cons_self rfl
  exact ⟨rfl, hdead (firstWriter, 0) List.mem_cons_self rfl, hlength, hwhole rfl rfl,
    ⟨past, hreached⟩, hturns⟩

end Writing

end Manapds
