import Manapds.Lib.Paging

/-!
# Following a table that grows

Rows are numbered as they are added, each past the ones before it, and readers ask for those past a
mark, some number at a time, and go on from the last they were handed. However the questions fall
between the rows being added, a reader has been handed the rows past where it started and up to its
mark, each once and in order.
-/

namespace Feed

variable {ρ κ : Type} [LinearOrder κ] (key : ρ → κ)

/-- Each row is past the ones before it. -/
def Numbered (rows : List ρ) : Prop := rows.Pairwise fun a b => key a < key b

/-- The rows past a mark, the first of them first, at most so many. -/
def after (mark : κ) (limit : ℕ) (rows : List ρ) : List ρ :=
  Paging.page (fun row => OrderDual.toDual (key row)) (some (OrderDual.toDual mark)) limit rows

/-- The rows past one mark and up to another. -/
def between (start mark : κ) (rows : List ρ) : List ρ :=
  rows.filter fun row => decide (start < key row ∧ key row ≤ mark)

/-- Where one goes on who has been handed these rows. -/
def moved (mark : κ) (rows : List ρ) : κ := (rows.getLast?.map key).getD mark

variable {key} {rows more : List ρ} {start mark : κ} {limit : ℕ}

theorem Numbered.nodup (h : Numbered key rows) :
    (rows.map fun row => OrderDual.toDual (key row)).Nodup := by
  rw [List.Nodup, List.pairwise_map]
  exact h.imp fun hab he => hab.ne (OrderDual.toDual_inj.mp he)

theorem Numbered.after_eq (h : Numbered key rows) :
    after key mark limit rows = (rows.filter fun row => decide (mark < key row)).take limit := by
  unfold after Paging.page
  simp only [Option.all_some, OrderDual.toDual_lt_toDual]
  congr 1
  apply Paging.sorted_eq_of_perm
  · exact List.Nodup.sublist (List.filter_sublist.map _) h.nodup
  · exact List.Perm.refl _
  · apply List.Pairwise.imp ?_ (List.Pairwise.sublist List.filter_sublist h)
    intro a b hab
    exact OrderDual.toDual_le_toDual.mpr hab.le

theorem Numbered.append (h : Numbered key rows) (hm : Numbered key more)
    (hp : ∀ a ∈ rows, ∀ b ∈ more, key a < key b) : Numbered key (rows ++ more) :=
  List.pairwise_append.mpr ⟨h, hm, hp⟩

theorem Numbered.filter (h : Numbered key rows) (p : ρ → Bool) : Numbered key (rows.filter p) :=
  List.Pairwise.sublist List.filter_sublist h

theorem moved_le (hs : ∀ row ∈ rows, mark < key row) : mark ≤ moved key mark rows := by
  unfold moved
  cases hl : rows.getLast? with
  | none => exact le_refl _
  | some row => exact (hs row (List.mem_of_getLast? hl)).le

/-- The rows up to a mark come before the ones past it. -/
theorem Numbered.split (h : Numbered key rows) (m : κ) :
    (rows.filter fun row => decide (key row ≤ m)) ++ (rows.filter fun row => decide (m < key row)) =
      rows := by
  induction rows with
  | nil => rfl
  | cons row rows ih =>
    obtain ⟨hrow, hrows⟩ := List.pairwise_cons.mp h
    by_cases hle : key row ≤ m
    · rw [List.filter_cons_of_pos (by simpa using hle),
        List.filter_cons_of_neg (by simpa using hle), List.cons_append, ih hrows]
    · have hpast : ∀ a ∈ row :: rows, m < key a := by
        intro a ha
        rcases List.mem_cons.mp ha with rfl | ha
        · exact not_le.mp hle
        · exact (not_le.mp hle).trans (hrow a ha)
      rw [List.filter_eq_nil_iff.mpr fun a ha => by simpa using hpast a ha,
        List.filter_eq_self.mpr fun a ha => by simpa using hpast a ha, List.nil_append]

theorem Numbered.between_append {m : κ} (h : Numbered key rows) (hs : start ≤ mark)
    (hm : mark ≤ m) :
    between key start mark rows ++ between key mark m rows = between key start m rows := by
  have hsplit := (h.filter fun row => decide (start < key row ∧ key row ≤ m)).split mark
  have hupTo : (between key start m rows).filter (fun row => decide (key row ≤ mark)) =
      between key start mark rows := by
    rw [between, between, List.filter_filter]
    apply List.filter_congr
    intro row _
    rw [← Bool.decide_and, decide_eq_decide]
    exact ⟨fun hc => ⟨hc.2.1, hc.1⟩, fun hc => ⟨hc.2, hc.1, hc.2.trans hm⟩⟩
  have hpast : (between key start m rows).filter (fun row => decide (mark < key row)) =
      between key mark m rows := by
    rw [between, between, List.filter_filter]
    apply List.filter_congr
    intro row _
    rw [← Bool.decide_and, decide_eq_decide]
    exact ⟨fun hc => ⟨hc.1, hc.2.2⟩, fun hc => ⟨hc.1, hs.trans_lt hc.1, hc.2⟩⟩
  rw [← hupTo, ← hpast]
  exact hsplit

/-- Up to where the first of the rows past a mark end are just those. -/
theorem Numbered.between_moved (h : Numbered key rows) :
    between key mark (moved key mark (after key mark limit rows)) rows =
      after key mark limit rows := by
  have hfilter : ∀ m, between key mark m rows =
      (rows.filter fun row => decide (mark < key row)).filter fun row => decide (key row ≤ m) := by
    intro m
    rw [between, List.filter_filter]
    apply List.filter_congr
    intro row _
    rw [Bool.decide_and, Bool.and_comm]
  rw [h.after_eq, hfilter]
  have hn := h.filter fun row => decide (mark < key row)
  have hpast : ∀ row ∈ rows.filter fun row => decide (mark < key row), mark < key row :=
    fun row hm => of_decide_eq_true (List.mem_filter.mp hm).2
  generalize rows.filter (fun row => decide (mark < key row)) = past at hn hpast
  have hsplit : past.take limit ++ past.drop limit = past := List.take_append_drop limit past
  rcases List.eq_nil_or_concat' (past.take limit) with hnil | ⟨init, x, hx⟩
  · rw [hnil, List.filter_eq_nil_iff]
    intro row hm hc
    exact absurd (hpast row hm) (not_lt.mpr (of_decide_eq_true hc))
  · rw [hx] at hsplit ⊢
    have hmoved : moved key mark (init ++ [x]) = key x := by simp [moved]
    have hn' := hn
    rw [← hsplit, Numbered, List.pairwise_append, List.pairwise_append] at hn'
    obtain ⟨⟨-, -, hinit⟩, -, hrest⟩ := hn'
    nth_rewrite 1 [← hsplit]
    rw [hmoved, List.filter_append]
    have hkept : (init ++ [x]).filter (fun row => decide (key row ≤ key x)) = init ++ [x] := by
      rw [List.filter_eq_self]
      intro row hm
      rcases List.mem_append.mp hm with hm | hm
      · simpa using (hinit row hm x (List.mem_singleton_self x)).le
      · simp [List.mem_singleton.mp hm]
    have hdropped : (past.drop limit).filter (fun row => decide (key row ≤ key x)) = [] := by
      rw [List.filter_eq_nil_iff]
      intro row hm
      simpa using hrest x (List.mem_append_right init (List.mem_singleton_self x)) row hm
    rw [hkept, hdropped, List.append_nil]

/-- Rows up to a mark past another and rows past it are the rows past the other. -/
theorem Numbered.between_append_past {m : κ} (h : Numbered key rows) (hm : mark ≤ m) :
    between key mark m rows ++ (rows.filter fun row => decide (m < key row)) =
      rows.filter fun row => decide (mark < key row) := by
  have hsplit := (h.filter fun row => decide (mark < key row)).split m
  have hupTo : (rows.filter fun row => decide (mark < key row)).filter
      (fun row => decide (key row ≤ m)) = between key mark m rows := by
    rw [between, List.filter_filter]
    apply List.filter_congr
    intro row _
    rw [← Bool.decide_and, decide_eq_decide, and_comm]
  have hpast : (rows.filter fun row => decide (mark < key row)).filter
      (fun row => decide (m < key row)) = rows.filter fun row => decide (m < key row) := by
    rw [List.filter_filter]
    apply List.filter_congr
    intro row _
    rw [← Bool.decide_and, decide_eq_decide]
    exact ⟨fun hc => hc.1, fun hc => ⟨hc, hm.trans_lt hc⟩⟩
  rw [← hupTo, ← hpast]
  exact hsplit

/-- Past where the first of them end are the others. -/
theorem Numbered.past_moved (h : Numbered key rows) :
    (rows.filter fun row => decide (moved key mark (after key mark limit rows) < key row)) =
      (rows.filter fun row => decide (mark < key row)).drop limit := by
  have hle : mark ≤ moved key mark (after key mark limit rows) := by
    apply moved_le
    intro row hm
    rw [h.after_eq] at hm
    exact of_decide_eq_true (List.mem_filter.mp (List.mem_of_mem_take hm)).2
  have hsplit := h.between_append_past hle
  rw [h.between_moved] at hsplit
  generalize moved key mark (after key mark limit rows) = m at hsplit ⊢
  rw [h.after_eq] at hsplit
  nth_rewrite 2 [← List.take_append_drop limit (rows.filter fun row => decide (mark < key row))]
    at hsplit
  exact List.append_cancel_left hsplit

/-! ## Readers -/

/-- One who reads: from where, how far and what it has been handed. -/
structure Reader (ρ κ : Type) where
  start : κ
  mark : κ
  got : List ρ

namespace Reader

variable (key)

/-- Is handed the next rows. -/
def read (limit : ℕ) (rows : List ρ) (r : Reader ρ κ) : Reader ρ κ where
  start := r.start
  mark := moved key r.mark (after key r.mark limit rows)
  got := r.got ++ after key r.mark limit rows

/-- Has been handed the rows past its start and up to its mark. -/
structure Exact (rows : List ρ) (r : Reader ρ κ) : Prop where
  from_ : r.start ≤ r.mark
  /-- A mark that has moved is on a row. -/
  on : r.mark = r.start ∨ ∃ row ∈ rows, key row = r.mark
  got : r.got = between key r.start r.mark rows

variable {key} {r : Reader ρ κ}

theorem exact_at (mark : κ) : Exact key rows ⟨mark, mark, []⟩ := by
  refine ⟨le_refl _, Or.inl rfl, ?_⟩
  symm
  rw [between, List.filter_eq_nil_iff]
  intro row _ hc
  obtain ⟨hlt, hle⟩ := of_decide_eq_true hc
  exact absurd hle (not_le.mpr hlt)

theorem Exact.grow (h : Exact key rows r) (hp : ∀ a ∈ rows, ∀ b ∈ more, key a < key b) :
    Exact key (rows ++ more) r where
  from_ := h.from_
  on := h.on.imp_right fun ⟨row, hm, hk⟩ => ⟨row, List.mem_append_left _ hm, hk⟩
  got := by
    have hnone : between key r.start r.mark more = [] := by
      rw [between, List.filter_eq_nil_iff]
      intro b hb hc
      obtain ⟨hlt, hle⟩ := of_decide_eq_true hc
      rcases h.on with he | ⟨a, ha, hk⟩
      · rw [he] at hle
        exact absurd hle (not_le.mpr hlt)
      · rw [← hk] at hle
        exact absurd hle (not_le.mpr (hp a ha b hb))
    rw [h.got, between, between, List.filter_append]
    exact (congrArg _ hnone).trans (List.append_nil _) |>.symm

theorem Exact.read (h : Exact key rows r) (hn : Numbered key rows) (limit : ℕ) :
    Exact key rows (r.read key limit rows) := by
  have hpast : ∀ row ∈ after key r.mark limit rows, row ∈ rows ∧ r.mark < key row := by
    intro row hm
    rw [hn.after_eq] at hm
    obtain ⟨hrow, hlt⟩ := List.mem_filter.mp (List.mem_of_mem_take hm)
    exact ⟨hrow, of_decide_eq_true hlt⟩
  have hle : r.mark ≤ moved key r.mark (after key r.mark limit rows) :=
    moved_le fun row hm => (hpast row hm).2
  constructor
  · exact h.from_.trans hle
  · change moved key r.mark (after key r.mark limit rows) = r.start ∨ _
    unfold moved
    cases hl : (after key r.mark limit rows).getLast? with
    | none => exact h.on.imp id fun ⟨row, hm, hk⟩ => ⟨row, hm, by simp [Reader.read, moved, hl, hk]⟩
    | some row =>
      refine Or.inr ⟨row, (hpast row (List.mem_of_getLast? hl)).1, ?_⟩
      simp [Reader.read, moved, hl]
  · change r.got ++ after key r.mark limit rows =
      between key r.start (moved key r.mark (after key r.mark limit rows)) rows
    rw [← hn.between_append h.from_ hle, hn.between_moved, h.got]

/-- One with nothing past its mark has been handed all there are past its start. -/
theorem Exact.got_all (h : Exact key rows r) (hn : Numbered key rows)
    (hp : (rows.filter fun row => decide (r.mark < key row)) = []) :
    r.got = rows.filter fun row => decide (r.start < key row) := by
  have hsplit := hn.between_append_past h.from_
  rw [hp, List.append_nil] at hsplit
  rw [h.got, hsplit]

end Reader

end Feed
