import Mathlib.Data.List.Nodup

/-!
# Tables with a primary key

Rows in the order they were inserted, no two under one key. The operations are those of an SQL
table: an insert that ignores a key already there, one that updates it instead, and deletes.
-/

namespace Table

variable {ρ κ : Type} (key : ρ → κ)

/-- No two rows under one key. -/
def Keyed (rows : List ρ) : Prop := (rows.map key).Nodup

theorem keyed_nil : Keyed key ([] : List ρ) := List.nodup_nil

theorem Keyed.filter {rows : List ρ} (h : Keyed key rows) (p : ρ → Bool) :
    Keyed key (rows.filter p) := List.Nodup.sublist (List.filter_sublist.map key) h

/-- Rows made of other rows, under the keys of those. -/
theorem Keyed.filterMap {σ : Type} {key' : σ → κ} {f : ρ → Option σ} {rows : List ρ}
    (h : Keyed key rows) (hf : ∀ row s, f row = some s → key' s = key row) :
    Keyed key' (rows.filterMap f) := by
  apply List.Nodup.sublist ?_ h
  induction rows with
  | nil => simp
  | cons row rows ih =>
    have hrest := ih (List.nodup_cons.mp h).2
    cases hr : f row with
    | none =>
      rw [List.filterMap_cons_none hr, List.map_cons]
      exact hrest.cons _
    | some s =>
      rw [List.filterMap_cons_some hr, List.map_cons, List.map_cons, hf row s hr]
      exact hrest.cons_cons _

/-- A unique index on a column that may be null: no two rows under one key, where they have any. -/
def Unique (key : ρ → Option κ) (rows : List ρ) : Prop := (rows.filterMap key).Nodup

theorem Unique.eq {key : ρ → Option κ} {rows : List ρ} (h : Unique key rows) {a b : ρ} {k : κ}
    (ha : a ∈ rows) (hb : b ∈ rows) (hka : key a = some k) (hkb : key b = some k) : a = b := by
  induction rows with
  | nil => cases ha
  | cons row rows ih =>
    cases hk : key row with
    | none =>
      rw [Unique, List.filterMap_cons_none hk] at h
      apply ih h
      · rcases List.mem_cons.mp ha with rfl | ha
        · cases hk.symm.trans hka
        · exact ha
      · rcases List.mem_cons.mp hb with rfl | hb
        · cases hk.symm.trans hkb
        · exact hb
    | some held =>
      rw [Unique, List.filterMap_cons_some hk] at h
      obtain ⟨hnew, hrest⟩ := List.nodup_cons.mp h
      rcases List.mem_cons.mp ha with rfl | ha' <;> rcases List.mem_cons.mp hb with rfl | hb'
      · rfl
      · obtain rfl := Option.some.inj (hk.symm.trans hka)
        exact absurd (List.mem_filterMap.mpr ⟨b, hb', hkb⟩) hnew
      · obtain rfl := Option.some.inj (hk.symm.trans hkb)
        exact absurd (List.mem_filterMap.mpr ⟨a, ha', hka⟩) hnew
      · exact ih hrest ha' hb'

theorem Unique.concat {key : ρ → Option κ} {rows : List ρ} {row : ρ} (h : Unique key rows)
    (hnew : ∀ k, key row = some k → ∀ held ∈ rows, key held ≠ some k) :
    Unique key (rows ++ [row]) := by
  rw [Unique] at h ⊢
  rw [List.filterMap_append]
  cases hk : key row with
  | none => simpa [hk] using h
  | some k =>
    have hfree : k ∉ rows.filterMap key := by
      intro hmem
      obtain ⟨held, hheld, he⟩ := List.mem_filterMap.mp hmem
      exact hnew k hk held hheld he
    simpa [hk] using List.Nodup.concat hfree h

variable [DecidableEq κ]

/-- `select … where key = k`. -/
def find (k : κ) (rows : List ρ) : Option ρ := rows.find? fun row => key row = k

/-- `insert or ignore`. -/
def insertOrIgnore (row : ρ) (rows : List ρ) : List ρ :=
  if (find key (key row) rows).isSome then rows else rows ++ [row]

/-- `insert … on conflict do update`. -/
def upsert (row : ρ) (update : ρ → ρ) (rows : List ρ) : List ρ :=
  if (find key (key row) rows).isSome then
    rows.map fun held => if key held = key row then update held else held
  else rows ++ [row]

/-- `delete … where key = k`. -/
def delete (k : κ) (rows : List ρ) : List ρ := rows.filter fun row => key row ≠ k

/-- `… join … on key' = key`. -/
def join {σ : Type} (key' : σ → κ) (rows : List ρ) (others : List σ) : List (ρ × σ) :=
  rows.flatMap fun row => (others.filter fun other => key' other = key row).map (Prod.mk row)

variable {key} {row held : ρ} {rows : List ρ} {k : κ} {update : ρ → ρ}

theorem key_of_find (h : find key k rows = some row) : key row = k := by
  simpa using List.find?_some h

theorem mem_of_find (h : find key k rows = some row) : row ∈ rows := List.mem_of_find?_eq_some h

theorem find_eq_none : find key k rows = none ↔ ∀ row ∈ rows, key row ≠ k := by
  simp [find]

theorem isSome_find : (find key k rows).isSome = true ↔ ∃ row ∈ rows, key row = k := by
  simp [find]

theorem Keyed.find_eq_some (h : Keyed key rows) :
    find key k rows = some row ↔ row ∈ rows ∧ key row = k := by
  refine ⟨fun hf => ⟨mem_of_find hf, key_of_find hf⟩, ?_⟩
  rintro ⟨hm, rfl⟩
  have hs : (find key (key row) rows).isSome = true := isSome_find.mpr ⟨row, hm, rfl⟩
  obtain ⟨r, hr⟩ := Option.isSome_iff_exists.mp hs
  rw [hr, List.inj_on_of_nodup_map h (mem_of_find hr) hm (key_of_find hr)]

theorem Keyed.find_filter (h : Keyed key rows) (p : ρ → Bool) :
    find key k (rows.filter p) = (find key k rows).filter p := by
  ext row
  rw [(h.filter key p).find_eq_some, Option.filter_eq_some_iff, h.find_eq_some, List.mem_filter]
  tauto

theorem length_upsert : (upsert key row update rows).length =
    if (find key (key row) rows).isSome then rows.length else rows.length + 1 := by
  unfold upsert
  split_ifs <;> simp

@[simp] theorem find_nil : find key k ([] : List ρ) = none := rfl

theorem find_concat : find key k (rows ++ [row]) =
    (find key k rows).or (if key row = k then some row else none) := by
  rw [find, List.find?_append, find, List.find?_singleton]
  simp

theorem find_insertOrIgnore : find key k (insertOrIgnore key row rows) =
    (find key k rows).or (if key row = k then some row else none) := by
  unfold insertOrIgnore
  by_cases hs : (find key (key row) rows).isSome = true
  · rw [if_pos hs]
    by_cases hk : key row = k
    · rw [hk] at hs
      obtain ⟨r, hr⟩ := Option.isSome_iff_exists.mp hs
      rw [hr, Option.some_or]
    · rw [if_neg hk, Option.or_none]
  · rw [if_neg hs, find_concat]

/-- A table whose rows are their own keys is a set. -/
theorem mem_insertOrIgnore_id [DecidableEq ρ] :
    held ∈ insertOrIgnore id row rows ↔ held ∈ rows ∨ held = row := by
  unfold insertOrIgnore
  split_ifs with hs
  · obtain ⟨r, hr, rfl : r = row⟩ := isSome_find.mp hs
    constructor
    · exact Or.inl
    · rintro (hm | rfl)
      · exact hm
      · exact hr
  · rw [List.mem_append, List.mem_singleton]

theorem find_upsert (hu : ∀ r, key (update r) = key r) : find key k (upsert key row update rows) =
    if key row = k then some (((find key k rows).map update).getD row) else find key k rows := by
  unfold upsert
  split_ifs with hs hk hk
  · rw [hk] at hs
    obtain ⟨r, hr⟩ := Option.isSome_iff_exists.mp hs
    rw [hr, Option.map_some, Option.getD_some]
    clear hs
    induction rows with
    | nil => cases hr
    | cons a rows ih =>
      rw [hk] at ih ⊢
      by_cases ha : key a = k
      · have : a = r := by simpa [find, ha] using hr
        subst this
        simp [find, ha, hu]
      · have hr' : find key k rows = some r := by simpa [find, ha] using hr
        simpa [find, ha] using ih hr'
  · clear hs
    induction rows with
    | nil => rfl
    | cons a rows ih =>
      by_cases ha : key a = key row
      · have hak : key a ≠ k := ha ▸ hk
        simpa [find, ha, hu, hak, hk] using ih
      · by_cases hak : key a = k
        · simp [find, hak, Ne.symm hk]
        · simpa [find, ha, hak] using ih
  · have hn : find key k rows = none := by
      rw [← hk]
      simpa using hs
    rw [find_concat, if_pos hk, hn]
    rfl
  · rw [find_concat, if_neg hk, Option.or_none]

theorem find_delete {k' : κ} : find key k (delete key k' rows) =
    if k = k' then none else find key k rows := by
  split_ifs with hk
  · subst hk
    rw [find_eq_none]
    intro r hr
    simpa using (List.mem_filter.mp hr).2
  · rw [find, delete, List.find?_filter]
    congr 1
    funext r
    by_cases hr : key r = k
    · simp [hr, hk]
    · simp [hr]

theorem Keyed.concat (h : Keyed key rows) (hn : find key (key row) rows = none) :
    Keyed key (rows ++ [row]) := by
  rw [Keyed, List.map_append, List.map_singleton, List.nodup_append]
  refine ⟨h, List.nodup_singleton _, ?_⟩
  rintro a ha b hb rfl
  obtain rfl := List.mem_singleton.mp hb
  obtain ⟨r, hr, he⟩ := List.mem_map.mp ha
  exact find_eq_none.mp hn r hr he

theorem Keyed.insertOrIgnore (h : Keyed key rows) : Keyed key (insertOrIgnore key row rows) := by
  unfold Table.insertOrIgnore
  split_ifs with hs
  · exact h
  · exact h.concat (by simpa using hs)

theorem Keyed.upsert (h : Keyed key rows) (hu : ∀ r, key (update r) = key r) :
    Keyed key (upsert key row update rows) := by
  unfold Table.upsert
  split_ifs with hs
  · have hmap : (rows.map fun held => if key held = key row then update held else held).map key =
        rows.map key := by
      rw [List.map_map]
      refine List.map_congr_left fun r _ => ?_
      simp only [Function.comp_apply]
      split_ifs
      · exact hu r
      · rfl
    rw [Keyed, hmap]
    exact h
  · exact h.concat (by simpa using hs)

theorem delete_self (hnone : rows.filter (fun row => key row = k) = []) :
    delete key k rows = rows := by
  rw [delete, List.filter_eq_self]
  intro held hheld
  have hne := List.filter_eq_nil_iff.mp hnone held hheld
  simpa using hne

/-- A delete takes an insert back. -/
theorem delete_concat (hnone : rows.filter (fun row => key row = k) = []) (hrow : key row = k) :
    delete key k (rows ++ [row]) = rows := by
  have hlast : [row].filter (fun row => key row ≠ k) = [] := by simp [hrow]
  rw [delete, List.filter_append, hlast, List.append_nil]
  exact delete_self hnone

/-- Two tables under the same keys, in the same order, are joined row by row. -/
theorem join_eq_zip {σ : Type} {key' : σ → κ} {others : List σ}
    (he : rows.map key = others.map key') (hk : Keyed key rows) :
    join key key' rows others = rows.zip others := by
  induction rows generalizing others with
  | nil => rfl
  | cons row rows ih =>
    cases others with
    | nil => cases he
    | cons other others =>
      obtain ⟨hrow, hrest⟩ := List.cons.inj he
      obtain ⟨hnew, hkeyed⟩ := List.nodup_cons.mp hk
      have hnone : (others.filter fun s => key' s = key row) = [] := by
        rw [List.filter_eq_nil_iff]
        intro s hs hkey
        apply hnew
        rw [hrest, ← of_decide_eq_true hkey]
        exact List.mem_map_of_mem hs
      have htail : (rows.flatMap fun r =>
          ((other :: others).filter fun s => key' s = key r).map (Prod.mk r)) =
          join key key' rows others := by
        apply List.flatMap_congr
        intro r hr
        have hne : key' other ≠ key r := by
          intro heq
          apply hnew
          rw [hrow, heq]
          exact List.mem_map_of_mem hr
        rw [List.filter_cons_of_neg (by simpa using hne)]
      rw [join, List.flatMap_cons, htail, ih hrest hkeyed,
        List.filter_cons_of_pos (by simpa using hrow.symm), hnone]
      rfl

theorem Keyed.delete (h : Keyed key rows) (k : κ) : Keyed key (delete key k rows) := h.filter key _

end Table
