import Mathlib.Data.List.Sort

/-!
# Reading a table page by page

Rows are asked for from the highest key down, some number at a time, and each page but the first
starts below the last row of the one before it. A page that is not full is the last. Whatever the
number, the pages are the rows in order, each once.
-/

namespace Paging

variable {ρ κ : Type} [LinearOrder κ] (key : ρ → κ)

/-- The rows from the highest key down. -/
def sorted (rows : List ρ) : List ρ := rows.mergeSort fun a b => decide (key b ≤ key a)

/-- The rows below a mark, the highest of them first, at most so many. -/
def page (mark : Option κ) (limit : ℕ) (rows : List ρ) : List ρ :=
  (sorted key (rows.filter fun row => mark.all fun m => decide (key row < m))).take limit

/-- Where the page after this one starts, if this one is full. -/
def next (limit : ℕ) (rows : List ρ) : Option ρ := if rows.length = limit then rows.getLast? else none

/-- Page after page, for as many rounds as it is given. -/
def pages (limit : ℕ) (rows : List ρ) : ℕ → Option κ → Option (List ρ)
  | 0, _ => none
  | rounds + 1, mark =>
    match next limit (page key mark limit rows) with
    | none => some (page key mark limit rows)
    | some last => (pages limit rows rounds (some (key last))).map (page key mark limit rows ++ ·)

variable {key} {rows pre post : List ρ} {x : ρ} {limit rounds : ℕ}

theorem sorted_perm : (sorted key rows).Perm rows := List.mergeSort_perm rows _

theorem pairwise_sorted : (sorted key rows).Pairwise fun a b => key b ≤ key a := by
  have h : (sorted key rows).Pairwise fun a b => decide (key b ≤ key a) = true := by
    apply List.pairwise_mergeSort
    · intro a b c hab hbc
      simp only [decide_eq_true_eq] at hab hbc ⊢
      exact hbc.trans hab
    · intro a b
      simpa using le_total (key b) (key a)
  exact h.imp fun hab => of_decide_eq_true hab

theorem pairwise_sorted_lt (hk : (rows.map key).Nodup) :
    (sorted key rows).Pairwise fun a b => key b < key a := by
  have hnodup : ((sorted key rows).map key).Nodup := (sorted_perm.map key).nodup_iff.mpr hk
  have hne := List.pairwise_map.mp hnodup
  exact (pairwise_sorted.and hne).imp fun h => lt_of_le_of_ne h.1 (Ne.symm h.2)

theorem sorted_eq_of_perm {other : List ρ} (hk : (rows.map key).Nodup) (hp : other.Perm rows)
    (hs : other.Pairwise fun a b => key b ≤ key a) : sorted key rows = other := by
  refine List.Perm.eq_of_pairwise (fun a b ha hb h h' => ?_) pairwise_sorted hs
    (sorted_perm.trans hp.symm)
  have hb' : b ∈ rows := hp.subset hb
  exact List.inj_on_of_nodup_map hk (sorted_perm.subset ha) hb' (le_antisymm h' h)

/-- Below a row are the rows after it. -/
theorem sorted_filter (hk : (rows.map key).Nodup) (h : sorted key rows = pre ++ x :: post) :
    sorted key (rows.filter fun row => decide (key row < key x)) = post := by
  have hlt := pairwise_sorted_lt hk
  rw [h, List.pairwise_append, List.pairwise_cons] at hlt
  obtain ⟨-, ⟨hpost, hs⟩, hpre⟩ := hlt
  have hfilter : (sorted key rows).filter (fun row => decide (key row < key x)) = post := by
    have hnone : pre.filter (fun row => decide (key row < key x)) = [] := by
      rw [List.filter_eq_nil_iff]
      intro row hm
      simpa using (hpre row hm x List.mem_cons_self).le
    rw [h, List.filter_append, hnone, List.nil_append, List.filter_cons_of_neg (by simp)]
    exact List.filter_eq_self.mpr fun row hm => by simpa using hpost row hm
  apply sorted_eq_of_perm (List.Nodup.sublist (List.filter_sublist.map key) hk)
  · rw [← hfilter]
    exact sorted_perm.filter _
  · exact hs.imp fun h => h.le

theorem sorted_filter_eq (hk : (rows.map key).Nodup) (p : ρ → Bool) :
    sorted key (rows.filter p) = (sorted key rows).filter p := by
  apply sorted_eq_of_perm (List.Nodup.sublist (List.filter_sublist.map key) hk)
  · exact sorted_perm.filter p
  · exact pairwise_sorted.sublist List.filter_sublist

theorem page_none : page key none limit rows = (sorted key rows).take limit := by
  simp [page]

theorem page_some (hk : (rows.map key).Nodup) (h : sorted key rows = pre ++ x :: post) :
    page key (some (key x)) limit rows = post.take limit := by
  rw [page]
  simp only [Option.all_some, sorted_filter hk h]

/-- What is left of the rows is what is left of the pages. -/
theorem pages_rest (hk : (rows.map key).Nodup) (hl : 1 ≤ limit) {mark : Option κ}
    (hs : sorted key rows = pre ++ post) (hmark : mark = pre.getLast?.map key)
    (hr : post.length < rounds) : pages key limit rows rounds mark = some post := by
  induction rounds generalizing pre post mark with
  | zero => omega
  | succ rounds ih =>
    have hpage : page key mark limit rows = post.take limit := by
      subst hmark
      rcases List.eq_nil_or_concat' pre with rfl | ⟨init, x, rfl⟩
      · rw [List.getLast?_nil, Option.map_none, page_none, hs, List.nil_append]
      · rw [List.getLast?_append, List.getLast?_singleton]
        simp only [Option.some_or, Option.map_some]
        exact page_some hk (by rw [hs, List.append_assoc, List.singleton_append])
    rw [pages, hpage]
    by_cases hfull : limit ≤ post.length
    · have hne : post.take limit ≠ [] := by
        rw [Ne, List.take_eq_nil_iff]
        rintro (h0 | h0)
        · omega
        · rw [h0, List.length_nil] at hfull
          omega
      have hlen : (post.take limit).length = limit := List.length_take_of_le hfull
      have hlast : next limit (post.take limit) = (post.take limit).getLast? := if_pos hlen
      rw [hlast, List.getLast?_eq_some_getLast hne]
      have hrest : (post.drop limit).length < rounds := by
        rw [List.length_drop]
        omega
      have hsplit : sorted key rows = (pre ++ post.take limit) ++ post.drop limit := by
        rw [List.append_assoc, List.take_append_drop, hs]
      have hm : some (key ((post.take limit).getLast hne)) =
          (pre ++ post.take limit).getLast?.map key := by
        rw [List.getLast?_append, List.getLast?_eq_some_getLast hne, Option.some_or, Option.map_some]
      simp only [ih hsplit hm hrest, Option.map_some, List.take_append_drop]
    · have hlen : (post.take limit).length ≠ limit := by
        rw [List.length_take]
        omega
      have hlast : next limit (post.take limit) = none := if_neg hlen
      rw [hlast, List.take_of_length_le (by omega)]

theorem pages_eq (hk : (rows.map key).Nodup) (hl : 1 ≤ limit) (hr : rows.length < rounds) :
    pages key limit rows rounds none = some (sorted key rows) := by
  apply pages_rest hk hl (List.nil_append _).symm rfl
  rwa [sorted_perm.length_eq]

/-! ## Following cursors -/

/-- What one question is answered with, and what to ask for what comes after it. -/
structure Answer (χ α : Type) where
  cursor : Option χ
  shown : List α

section

variable {α χ ε : Type}

/-- Asks for one page after another until one says there is none after it. -/
def follow (ask : Option χ → Except ε (Answer χ α)) : ℕ → Option χ → Option (Except ε (List α))
  | 0, _ => none
  | rounds + 1, cursor =>
    match ask cursor with
    | .error e => some (.error e)
    | .ok answer => match answer.cursor with
      | none => some (.ok answer.shown)
      | some next => (follow ask rounds (some next)).map fun rest => rest.map (answer.shown ++ ·)

/-- A page of rows, each of them shown: one that is full names its last row as where to go on. -/
def answer (cursorOf : ρ → χ) (present : ρ → Except ε α) (limit : ℕ) (rows : List ρ) :
    Except ε (Answer χ α) := do
  let shown ← rows.mapM present
  return ⟨(next limit rows).map cursorOf, shown⟩

/-- Rows that are listed a page at a time, in this order. -/
structure Lists (all : List ρ) (limit : ℕ) (cursorOf : ρ → χ) (present : ρ → Except ε α)
    (ask : Option χ → Except ε (Answer χ α)) : Prop where
  first : ask none = answer cursorOf present limit (all.take limit)
  after {pre post : List ρ} {x : ρ} (h : all = pre ++ x :: post) :
    ask (some (cursorOf x)) = answer cursorOf present limit (post.take limit)

theorem mapM_append_eq {present : ρ → Except ε α} (a b : List ρ) : (a ++ b).mapM present =
    (a.mapM present).bind fun shown => (b.mapM present).map (shown ++ ·) := by
  rw [List.mapM_append]
  cases a.mapM present with
  | error e => rfl
  | ok shown => cases b.mapM present <;> rfl

variable {all : List ρ} {cursorOf : ρ → χ} {present : ρ → Except ε α}
  {ask : Option χ → Except ε (Answer χ α)}

/-- What is left to follow is what is left of the rows. -/
theorem Lists.follow_rest (h : Lists all limit cursorOf present ask) (hl : 1 ≤ limit)
    (hall : all = pre ++ post) {cursor : Option χ} (hcursor : cursor = pre.getLast?.map cursorOf)
    (hr : post.length < rounds) : follow ask rounds cursor = some (post.mapM present) := by
  induction rounds generalizing pre post cursor with
  | zero => omega
  | succ rounds ih =>
    have hask : ask cursor = answer cursorOf present limit (post.take limit) := by
      subst hcursor
      rcases List.eq_nil_or_concat' pre with rfl | ⟨init, x, rfl⟩
      · rw [List.getLast?_nil, Option.map_none, h.first, hall, List.nil_append]
      · rw [List.getLast?_append, List.getLast?_singleton]
        exact h.after (by rw [hall, List.append_assoc, List.singleton_append])
    rw [follow, hask, answer]
    have hsplit : (post.take limit ++ post.drop limit).mapM present = _ := mapM_append_eq _ _
    rw [List.take_append_drop] at hsplit
    rw [hsplit]
    cases hshown : (post.take limit).mapM present with
    | error e => rfl
    | ok shown =>
      by_cases hfull : limit ≤ post.length
      · have hlen : (post.take limit).length = limit := List.length_take_of_le hfull
        have hne : post.take limit ≠ [] := by
          rw [← List.length_pos_iff, hlen]
          exact hl
        have hnext : next limit (post.take limit) = some ((post.take limit).getLast hne) := by
          rw [next, if_pos hlen, List.getLast?_eq_some_getLast hne]
        have hall' : all = (pre ++ post.take limit) ++ post.drop limit := by
          rw [List.append_assoc, List.take_append_drop, hall]
        have hcursor' : some (cursorOf ((post.take limit).getLast hne)) =
            (pre ++ post.take limit).getLast?.map cursorOf := by
          rw [List.getLast?_append, List.getLast?_eq_some_getLast hne]
          rfl
        have hrest := ih hall' hcursor' (by rw [List.length_drop]; omega)
        simp only [hnext, Option.map_some, bind, Except.bind, pure, Except.pure, hrest]
      · have hlen : (post.take limit).length ≠ limit := by
          rw [List.length_take]
          omega
        have hnext : next limit (post.take limit) = none := if_neg hlen
        have hdrop : post.drop limit = [] := List.drop_of_length_le (by omega)
        simp only [hnext, Option.map_none, bind, Except.bind, pure, Except.pure, hdrop,
          List.mapM_nil, Except.map, List.append_nil]

/-- Rows in an order, where a question is answered with those past its cursor. -/
theorem lists_of_pairwise {r : ρ → ρ → Prop} (hall : all.Pairwise r)
    (hasymm : ∀ x y, r x y → ¬r y x) {past : χ → ρ → Bool}
    (hpast : ∀ x ∈ all, ∀ y ∈ all, past (cursorOf x) y = true ↔ r x y)
    (hfirst : ask none = answer cursorOf present limit (all.take limit))
    (hafter : ∀ x ∈ all, ask (some (cursorOf x)) =
      answer cursorOf present limit ((all.filter (past (cursorOf x))).take limit)) :
    Lists all limit cursorOf present ask where
  first := hfirst
  after := by
    intro pre post x h
    have hx : x ∈ all := by simp [h]
    have hsplit := h ▸ hall
    obtain ⟨-, hxpost, hpre⟩ := List.pairwise_append.mp hsplit
    obtain ⟨hpost, -⟩ := List.pairwise_cons.mp hxpost
    have hfilter : all.filter (past (cursorOf x)) = post := by
      have hnone : pre.filter (past (cursorOf x)) = [] := by
        rw [List.filter_eq_nil_iff]
        intro y hy hp
        have hyall : y ∈ all := by simp [h, hy]
        exact hasymm y x (hpre y hy x List.mem_cons_self) ((hpast x hx y hyall).mp hp)
      have hself : ¬past (cursorOf x) x = true := by
        intro hp
        have hxx := (hpast x hx x hx).mp hp
        exact hasymm x x hxx hxx
      have hall : post.filter (past (cursorOf x)) = post := by
        rw [List.filter_eq_self]
        intro y hy
        have hyall : y ∈ all := by simp [h, hy]
        exact (hpast x hx y hyall).mpr (hpost y hy)
      rw [h, List.filter_append, hnone, List.nil_append, List.filter_cons_of_neg hself, hall]
    rw [hafter x hx, hfilter]

theorem Lists.follow_eq (h : Lists all limit cursorOf present ask) (hl : 1 ≤ limit)
    (hr : all.length < rounds) : follow ask rounds none = some (all.mapM present) :=
  h.follow_rest hl (List.nil_append all).symm rfl hr

end

end Paging
