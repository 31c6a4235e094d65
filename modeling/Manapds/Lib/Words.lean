import Mathlib.Data.List.Lex
import Mathlib.Order.Lattice

/-!
# Words that start alike

Words in lexicographic order. Those that start with one word are a range: what comes at or after it
and before it with a letter above all of theirs. Two words neither of which starts the other keep
their order whatever follows them.
-/

namespace Words

variable {α : Type*} [LinearOrder α] {p q s t a b : List α}

theorem append_lt_append_iff (p : List α) : p ++ a < p ++ b ↔ a < b := by
  induction p with
  | nil => rfl
  | cons x p ih =>
    rw [List.cons_append, List.cons_append, List.cons_lt_cons_iff]
    simpa using ih

theorem le_append (p a : List α) : p ≤ p ++ a := by
  rw [← not_lt]
  intro h
  have hnil : a < [] := by
    apply (append_lt_append_iff p).mp
    rwa [List.append_nil]
  exact List.not_lt_nil a hnil

theorem lt_append (h : a ≠ []) : p < p ++ a := by
  have hlt : ([] : List α) < a := by
    cases a with
    | nil => exact absurd rfl h
    | cons x a => exact List.nil_lt_cons x a
  simpa using (append_lt_append_iff p).mpr hlt

/-- What lies between a word and a longer one starts with it. -/
theorem prefix_of_lt_append (h : p ≤ s) (h' : s < p ++ t) : p <+: s := by
  induction p generalizing s with
  | nil => exact List.nil_prefix
  | cons x p ih =>
    cases s with
    | nil => exact absurd (List.nil_lt_cons x p) (not_lt.mpr h)
    | cons y s =>
      rw [List.cons_append, List.cons_lt_cons_iff] at h'
      rcases h' with hlt | ⟨rfl, hlt⟩
      · exact absurd (List.cons_lt_cons_iff.mpr (Or.inl hlt)) (not_lt.mpr h)
      · have hle : p ≤ s := by
          rw [← not_lt] at h ⊢
          exact fun hs => h (List.cons_lt_cons_iff.mpr (Or.inr ⟨rfl, hs⟩))
        obtain ⟨tail, rfl⟩ := ih hle hlt
        exact ⟨tail, rfl⟩

theorem between_append_iff : p ≤ s ∧ s < p ++ t ↔ ∃ a, s = p ++ a ∧ a < t := by
  constructor
  · rintro ⟨h, h'⟩
    obtain ⟨a, rfl⟩ := prefix_of_lt_append h h'
    exact ⟨a, rfl, (append_lt_append_iff p).mp h'⟩
  · rintro ⟨a, rfl, h⟩
    exact ⟨le_append p a, (append_lt_append_iff p).mpr h⟩

theorem above_append_iff : p ++ b < s ∧ s < p ++ t ↔ ∃ a, s = p ++ a ∧ b < a ∧ a < t := by
  constructor
  · rintro ⟨h, h'⟩
    obtain ⟨a, rfl, ha⟩ := between_append_iff.mp ⟨(le_append p b).trans h.le, h'⟩
    exact ⟨a, rfl, (append_lt_append_iff p).mp h, ha⟩
  · rintro ⟨a, rfl, h, h'⟩
    exact ⟨(append_lt_append_iff p).mpr h, (append_lt_append_iff p).mpr h'⟩

theorem append_lt_append_of_lt (h : p < q) (hpq : ¬p <+: q) (a b : List α) :
    p ++ a < q ++ b := by
  induction p generalizing q with
  | nil => exact absurd List.nil_prefix hpq
  | cons x p ih =>
    cases q with
    | nil => exact absurd h (List.not_lt_nil _)
    | cons y q =>
      rw [List.cons_append, List.cons_append, List.cons_lt_cons_iff]
      rcases List.cons_lt_cons_iff.mp h with hlt | ⟨rfl, hlt⟩
      · exact Or.inl hlt
      · refine Or.inr ⟨rfl, ih hlt fun hp => hpq ?_⟩
        exact List.cons_prefix_cons.mpr ⟨rfl, hp⟩

/-- A word is on one side of every word that starts as another does, if neither starts the other. -/
theorem lt_all_or_all_lt (hpq : ¬p <+: q) (hqp : ¬q <+: p) :
    (∀ a, q < p ++ a) ∨ ∀ a, p ++ a < q := by
  rcases lt_trichotomy p q with h | rfl | h
  · right
    intro a
    simpa using append_lt_append_of_lt h hpq a []
  · exact absurd List.prefix_rfl hpq
  · left
    intro a
    simpa using append_lt_append_of_lt h hqp [] a

end Words
