import Manapds.Lib.Paging
import Manapds.Lib.Table
import Manapds.Store.Actor
import Mathlib.Data.Prod.Lex

/-!
# The accounts a server hosts

An account is a row of `actor` and a row of `repo_root`, written together and taken out together.
A listing joins the two and goes through them in the order the accounts were made, those of one
millisecond by their DIDs.
-/

namespace Manapds

variable {Cid : Type}

/-- A time in milliseconds, from year zero to the last there is. The text of an earlier one would
not sort as time. -/
structure Instant where
  millis : ℤ
  from_ : -62167219200000 ≤ millis
  until_ : millis ≤ 253402207200999

/-- A row of `actor`. -/
structure ActorRow where
  did : Did
  createdAt : Instant

/-- A row of `repo_root`. -/
structure RepoRootRow (Cid : Type) where
  did : Did
  root : Root Cid

/-- The tables a listing of every account reads. -/
structure Registry (Cid : Type) where
  actor : List ActorRow
  repoRoot : List (RepoRootRow Cid)

/-- An account as a listing has it. -/
structure Hosted (Cid : Type) where
  did : Did
  root : Root Cid
  createdAt : Instant

/-- Where a listing picks up. -/
structure Hosted.Cursor where
  createdAt : ℤ
  did : Str

/-- The pair the index is on. -/
def Hosted.place (hosted : Hosted Cid) : ℤ ×ₗ Str :=
  toLex (hosted.createdAt.millis, hosted.did.str)

def Hosted.Cursor.place (cursor : Hosted.Cursor) : ℤ ×ₗ Str := toLex (cursor.createdAt, cursor.did)

namespace Registry

/-- Moves this copy of where an account's repository has got to. -/
def updateRoot (db : Registry Cid) (did : Did) (root : Root Cid) : Registry Cid :=
  { db with
    repoRoot := Table.upsert RepoRootRow.did ⟨did, root⟩ (fun row => { row with root }) db.repoRoot }

/-- Writes a new account, unless there is one of this DID. -/
def create (db : Registry Cid) (did : Did) (root : Root Cid) (now : Instant) :
    Option (Registry Cid) :=
  if (Table.find ActorRow.did did db.actor).isSome then none
  else some (updateRoot { db with actor := db.actor ++ [⟨did, now⟩] } did root)

def delete (db : Registry Cid) (did : Did) : Registry Cid where
  actor := Table.delete ActorRow.did did db.actor
  repoRoot := Table.delete RepoRootRow.did did db.repoRoot

/-- `actor` joined with `repo_root`. -/
def joined (db : Registry Cid) (row : ActorRow) : Option (Hosted Cid) :=
  (Table.find RepoRootRow.did row.did db.repoRoot).map fun held =>
    ⟨row.did, held.root, row.createdAt⟩

/-- One page of the repositories here, oldest account first. -/
def hosted (db : Registry Cid) (limit : ℕ) (from_ : Option Hosted.Cursor) : List (Hosted Cid) :=
  (Paging.sorted (fun row => OrderDual.toDual row.place)
    ((db.actor.filterMap db.joined).filter fun row =>
      from_.all fun cursor => decide (cursor.place < row.place))).take limit

/-- What signups, deletions and writes make of the tables. -/
inductive Reachable : Registry Cid → Prop where
  | empty : Reachable ⟨[], []⟩
  | create {db db' : Registry Cid} {did : Did} {root : Root Cid} {now : Instant} :
      Reachable db → db.create did root now = some db' → Reachable db'
  | updateRoot {db : Registry Cid} (did : Did) (root : Root Cid) :
      Reachable db → Reachable (db.updateRoot did root)
  | delete {db : Registry Cid} (did : Did) : Reachable db → Reachable (db.delete did)

/-- One row for each account in either table, and a root for every account. -/
structure Rooted (db : Registry Cid) : Prop where
  actors : Table.Keyed ActorRow.did db.actor
  roots : Table.Keyed RepoRootRow.did db.repoRoot
  rooted : ∀ row ∈ db.actor, (Table.find RepoRootRow.did row.did db.repoRoot).isSome = true

variable {db db' : Registry Cid} {did : Did} {root : Root Cid} {now : Instant}

theorem isSome_find_updateRoot {k : Did} :
    (Table.find RepoRootRow.did k (db.updateRoot did root).repoRoot).isSome = true ↔
      did = k ∨ (Table.find RepoRootRow.did k db.repoRoot).isSome = true := by
  have hkey : ∀ row : RepoRootRow Cid, RepoRootRow.did { row with root } = row.did := fun _ => rfl
  rw [Registry.updateRoot, Table.find_upsert hkey]
  split_ifs with hd
  · exact ⟨fun _ => Or.inl hd, fun _ => rfl⟩
  · exact ⟨Or.inr, fun h => h.resolve_left hd⟩

theorem Rooted.updateRoot (h : db.Rooted) (did : Did) (root : Root Cid) :
    (db.updateRoot did root).Rooted where
  actors := h.actors
  roots := h.roots.upsert fun _ => rfl
  rooted row hm := isSome_find_updateRoot.mpr (Or.inr (h.rooted row hm))

theorem Rooted.create (h : db.Rooted) (hc : db.create did root now = some db') : db'.Rooted := by
  unfold Registry.create at hc
  split_ifs at hc with hfree
  obtain rfl := Option.some.inj hc
  constructor
  · apply h.actors.concat
    simpa using hfree
  · exact h.roots.upsert fun _ => rfl
  · intro row hm
    rw [isSome_find_updateRoot]
    rcases List.mem_append.mp hm with hm | hm
    · exact Or.inr (h.rooted row hm)
    · obtain rfl := List.mem_singleton.mp hm
      exact Or.inl rfl

theorem Rooted.delete (h : db.Rooted) (did : Did) : (db.delete did).Rooted where
  actors := h.actors.delete did
  roots := h.roots.delete did
  rooted := by
    intro row hm
    obtain ⟨hm, hne⟩ := List.mem_filter.mp hm
    have hdid : row.did ≠ did := of_decide_eq_true hne
    rw [Registry.delete, Table.find_delete, if_neg hdid]
    exact h.rooted row hm

theorem Reachable.rooted (h : db.Reachable) : db.Rooted := by
  induction h with
  | empty => exact ⟨Table.keyed_nil _, Table.keyed_nil _, by simp⟩
  | create _ hc ih => exact ih.create hc
  | updateRoot did root _ ih => exact ih.updateRoot did root
  | delete did _ ih => exact ih.delete did

/-! ## Every account in order -/

/-- What a listing goes through: each account once, the oldest first. -/
structure Lists (db : Registry Cid) (all : List (Hosted Cid)) : Prop where
  mem : ∀ hosted, hosted ∈ all ↔ (∃ row ∈ db.actor, hosted.did = row.did ∧
    hosted.createdAt = row.createdAt) ∧
      Table.find RepoRootRow.did hosted.did db.repoRoot = some ⟨hosted.did, hosted.root⟩
  complete : ∀ row ∈ db.actor, ∃ hosted ∈ all, hosted.did = row.did
  ordered : all.Pairwise fun a b => a.createdAt.millis < b.createdAt.millis ∨
    a.createdAt.millis = b.createdAt.millis ∧ a.did.str < b.did.str

def inOrder (db : Registry Cid) : List (Hosted Cid) :=
  Paging.sorted (fun row => OrderDual.toDual row.place) (db.actor.filterMap db.joined)

theorem joined_did {row : ActorRow} {hosted : Hosted Cid} (h : db.joined row = some hosted) :
    hosted.did = row.did := by
  obtain ⟨held, -, rfl⟩ := Option.map_eq_some_iff.mp h
  rfl

theorem Rooted.nodup_place (h : db.Rooted) :
    ((db.actor.filterMap db.joined).map fun row => OrderDual.toDual row.place).Nodup := by
  have hdid : Table.Keyed Hosted.did (db.actor.filterMap db.joined) :=
    h.actors.filterMap _ fun _ _ => joined_did
  have hinj : ∀ a b : Hosted Cid, OrderDual.toDual a.place = OrderDual.toDual b.place →
      a.did = b.did := by
    intro a b hab
    exact Did.ext (congrArg (fun p => (ofLex p).2) (OrderDual.toDual_inj.mp hab))
  rw [Table.Keyed, List.Nodup, List.pairwise_map] at hdid
  rw [List.Nodup, List.pairwise_map]
  exact hdid.imp fun hne hab => hne (hinj _ _ hab)

theorem Rooted.hosted_eq (h : db.Rooted) (limit : ℕ) (from_ : Option Hosted.Cursor) :
    db.hosted limit from_ = (db.inOrder.filter fun row =>
      from_.all fun cursor => decide (cursor.place < row.place)).take limit := by
  rw [hosted, inOrder, Paging.sorted_filter_eq h.nodup_place]

theorem Rooted.lists (h : db.Rooted) : db.Lists db.inOrder where
  mem := by
    intro hosted
    rw [inOrder, Paging.sorted_perm.mem_iff, List.mem_filterMap]
    constructor
    · rintro ⟨row, hm, hjoined⟩
      obtain ⟨held, hfind, rfl⟩ := Option.map_eq_some_iff.mp hjoined
      have hdid : held.did = row.did := Table.key_of_find hfind
      refine ⟨⟨row, hm, rfl, rfl⟩, ?_⟩
      obtain ⟨did, root⟩ := held
      obtain rfl := hdid
      exact hfind
    · rintro ⟨⟨row, hm, hdid, hat⟩, hfind⟩
      refine ⟨row, hm, ?_⟩
      rw [joined, ← hdid, hfind, Option.map_some, ← hat]
  complete := by
    intro row hm
    obtain ⟨held, hheld⟩ := Option.isSome_iff_exists.mp (h.rooted row hm)
    refine ⟨⟨row.did, held.root, row.createdAt⟩, ?_, rfl⟩
    rw [inOrder, Paging.sorted_perm.mem_iff, List.mem_filterMap]
    exact ⟨row, hm, by rw [joined, hheld, Option.map_some]⟩
  ordered := by
    have hpairwise : db.inOrder.Pairwise _ := Paging.pairwise_sorted_lt h.nodup_place
    exact hpairwise.imp fun hab => Prod.Lex.toLex_lt_toLex.mp (OrderDual.toDual_lt_toDual.mp hab)

/-- Accounts that are all there, each before the next, are the whole listing. -/
theorem Lists.eq {all other : List (Hosted Cid)} (h : db.Lists all)
    (hmem : ∀ hosted, hosted ∈ other ↔ hosted ∈ all)
    (hordered : other.Pairwise fun a b => a.place < b.place) : all = other := by
  have hall : all.Pairwise fun a b => a.place < b.place :=
    h.ordered.imp fun hab => Prod.Lex.toLex_lt_toLex.mpr hab
  have hnodup : all.Nodup := hall.imp fun hab => ne_of_apply_ne Hosted.place hab.ne
  have hnodup' : other.Nodup := hordered.imp fun hab => ne_of_apply_ne Hosted.place hab.ne
  have hperm : all.Perm other :=
    (List.perm_ext_iff_of_nodup hnodup hnodup').mpr fun hosted => (hmem hosted).symm
  exact hperm.eq_of_pairwise (fun a b _ _ hab hba => absurd hba (lt_asymm hab)) hall hordered

end Registry

end Manapds
