import Mathlib.Data.List.Lex
import Mathlib.Data.Nat.Digits.Lemmas
import Mathlib.Tactic.Ring

/-!
# Positional numerals of one length

Numerals of the same length over increasing digits compare, as words, the way their values do.
-/

namespace Numeral

section

variable {α : Type*}

/-- The number a word spells in base `b`, most significant digit first. -/
def value (b : ℕ) (digit : α → ℕ) (w : List α) : ℕ := w.foldl (fun n a => n * b + digit a) 0

theorem foldl_eq_add (b : ℕ) (digit : α → ℕ) (w : List α) (n : ℕ) :
    w.foldl (fun n a => n * b + digit a) n = n * b ^ w.length + value b digit w := by
  induction w generalizing n with
  | nil => simp [value]
  | cons a w ih =>
    have h0 : value b digit (a :: w) = digit a * b ^ w.length + value b digit w := by
      rw [value, List.foldl_cons, ih]
      simp
    rw [List.foldl_cons, ih, h0, List.length_cons]
    ring

theorem value_cons (b : ℕ) (digit : α → ℕ) (a : α) (w : List α) :
    value b digit (a :: w) = digit a * b ^ w.length + value b digit w := by
  rw [value, List.foldl_cons, foldl_eq_add]
  simp

theorem value_lt_pow {b : ℕ} {digit : α → ℕ} {w : List α} (h : ∀ a ∈ w, digit a < b) :
    value b digit w < b ^ w.length := by
  induction w with
  | nil => simp [value]
  | cons a w ih =>
    have ha := h a List.mem_cons_self
    have hw := ih (fun x hx => h x (List.mem_cons_of_mem a hx))
    rw [value_cons, List.length_cons, pow_succ']
    calc digit a * b ^ w.length + value b digit w
        < digit a * b ^ w.length + b ^ w.length := by omega
      _ = (digit a + 1) * b ^ w.length := by ring
      _ ≤ b * b ^ w.length := Nat.mul_le_mul_right _ ha

/-- The lowest `n` digits of a number, most significant first. -/
def spell (b : ℕ) (symbol : ℕ → α) (n v : ℕ) : List α :=
  (List.range n).reverse.map fun d => symbol (v / b ^ d % b)

@[simp] theorem length_spell (b : ℕ) (symbol : ℕ → α) (n v : ℕ) :
    (spell b symbol n v).length = n := by simp [spell]

theorem spell_succ (b : ℕ) (symbol : ℕ → α) (n v : ℕ) :
    spell b symbol (n + 1) v = symbol (v / b ^ n % b) :: spell b symbol n v := by
  simp [spell, List.range_succ]

theorem value_spell {b : ℕ} (hb : 0 < b) {digit : α → ℕ} {symbol : ℕ → α}
    (hd : ∀ i < b, digit (symbol i) = i) (n v : ℕ) :
    value b digit (spell b symbol n v) = v % b ^ n := by
  induction n with
  | zero => simp [spell, value, Nat.mod_one]
  | succ n ih =>
    rw [spell_succ, value_cons, ih, length_spell, hd _ (Nat.mod_lt _ hb), Nat.mod_pow_succ]
    ring

/-- The digits that a division drops are the last ones. -/
theorem spell_split (b : ℕ) (symbol : ℕ → α) (m n v : ℕ) :
    spell b symbol (m + n) v = spell b symbol m (v / b ^ n) ++ spell b symbol n v := by
  induction m with
  | zero =>
    rw [Nat.zero_add]
    rfl
  | succ m ih =>
    rw [Nat.succ_add, spell_succ, ih, spell_succ, Nat.div_div_eq_div_mul, ← pow_add,
      Nat.add_comm n m, List.cons_append]

/-- Only so many digits of a number reach its lowest ones. -/
theorem spell_mod (b : ℕ) (symbol : ℕ → α) {m n : ℕ} (h : n ≤ m) (v : ℕ) :
    spell b symbol n (v % b ^ m) = spell b symbol n v := by
  apply List.map_congr_left
  intro d hd
  have hdn : d < n := List.mem_range.mp (List.mem_reverse.mp hd)
  have hpow : b ^ m = b ^ d * b ^ (m - d) := by
    rw [← pow_add]
    congr 1
    omega
  have hdvd : b ∣ b ^ (m - d) := dvd_pow_self b (by omega)
  rw [hpow, Nat.mod_mul_right_div_self, Nat.mod_mod_of_dvd _ hdvd]

/-- A number made of two is spelled by the one and then the other. -/
theorem spell_add {b : ℕ} (symbol : ℕ → α) (m : ℕ) {n y : ℕ} (x : ℕ) (hy : y < b ^ n) :
    spell b symbol (m + n) (x * b ^ n + y) = spell b symbol m x ++ spell b symbol n y := by
  have hpos : 0 < b ^ n := by omega
  have hdiv : (x * b ^ n + y) / b ^ n = x := by
    rw [Nat.add_comm, Nat.add_mul_div_right _ _ hpos, Nat.div_eq_of_lt hy, Nat.zero_add]
  have hmod : (x * b ^ n + y) % b ^ n = y := Nat.mul_add_mod_of_lt hy
  have hlow := spell_mod b symbol (Nat.le_refl n) (x * b ^ n + y)
  rw [hmod] at hlow
  rw [spell_split, hdiv, hlow]

theorem spell_zero (b : ℕ) (symbol : ℕ → α) (n : ℕ) :
    spell b symbol n 0 = List.replicate n (symbol 0) := by
  simp [spell, List.map_const']

/-- A number without zeros in front. -/
def digits (b : ℕ) (symbol : ℕ → α) (n : ℕ) : List α :=
  if n = 0 then [symbol 0] else (Nat.digits b n).reverse.map symbol

theorem value_map_reverse {b : ℕ} {digit : α → ℕ} {symbol : ℕ → α} {l : List ℕ}
    (hd : ∀ i ∈ l, digit (symbol i) = i) :
    value b digit (l.reverse.map symbol) = Nat.ofDigits b l := by
  induction l with
  | nil => rfl
  | cons d l ih =>
    have hl := ih fun i hi => hd i (List.mem_cons_of_mem d hi)
    rw [value] at hl ⊢
    rw [List.reverse_cons, List.map_append, List.foldl_append, hl, Nat.ofDigits_cons,
      List.map_singleton, List.foldl_cons, List.foldl_nil, hd d List.mem_cons_self]
    ring

theorem value_digits {b : ℕ} (hb : 1 < b) {digit : α → ℕ} {symbol : ℕ → α}
    (hd : ∀ i < b, digit (symbol i) = i) (n : ℕ) : value b digit (digits b symbol n) = n := by
  unfold digits
  split_ifs with hn
  · simp [value, hd 0 (by omega), hn]
  · rw [value_map_reverse fun i hi => hd i (Nat.digits_lt_base hb hi), Nat.ofDigits_digits]

theorem digits_ne_nil {b : ℕ} (symbol : ℕ → α) (n : ℕ) : digits b symbol n ≠ [] := by
  unfold digits
  split_ifs with hn
  · exact List.cons_ne_nil _ _
  · rw [Ne, List.map_eq_nil_iff, List.reverse_eq_nil_iff]
    exact Nat.digits_ne_nil_iff_ne_zero.mpr hn

theorem mem_digits {b : ℕ} (hb : 1 < b) {symbol : ℕ → α} {n : ℕ} {a : α}
    (h : a ∈ digits b symbol n) : ∃ i < b, symbol i = a := by
  unfold digits at h
  split_ifs at h with hn
  · exact ⟨0, by omega, (List.mem_singleton.mp h).symm⟩
  · obtain ⟨i, hi, rfl⟩ := List.mem_map.mp h
    exact ⟨i, Nat.digits_lt_base hb (List.mem_reverse.mp hi), rfl⟩

/-- A fold that stops where a step would pass `bound`, multiplying and adding apart. -/
def checkedValue (bound b : ℕ) (digit : α → Option ℕ) (w : List α) (n : ℕ) : Option ℕ :=
  w.foldlM (fun n a => do
    let scaled ← if n * b < bound then some (n * b) else none
    let d ← digit a
    if scaled + d < bound then some (scaled + d) else none) n

/-- No step passes a bound that the whole is below. -/
theorem checkedValue_eq {bound b : ℕ} (hb : 0 < b) {checked : α → Option ℕ} {digit : α → ℕ}
    {w : List α} (hd : ∀ a ∈ w, checked a = some (digit a)) (n : ℕ)
    (h : n * b ^ w.length + value b digit w < bound) :
    checkedValue bound b checked w n = some (n * b ^ w.length + value b digit w) := by
  induction w generalizing n with
  | nil => simp [checkedValue, value]
  | cons a w ih =>
    have hsum : n * b ^ (a :: w).length + value b digit (a :: w) =
        (n * b + digit a) * b ^ w.length + value b digit w := by
      rw [value_cons, List.length_cons]
      ring
    rw [hsum] at h ⊢
    have hstep : n * b + digit a < bound := by
      have hle := Nat.le_mul_of_pos_right (n * b + digit a) (pow_pos hb w.length)
      omega
    have hscaled : n * b < bound := by omega
    have hrest := ih (fun x hx => hd x (List.mem_cons_of_mem a hx)) _ h
    unfold checkedValue at hrest ⊢
    rw [List.foldlM_cons, if_pos hscaled, hd a List.mem_cons_self]
    simp only [Option.bind_eq_bind, Option.bind_some, if_pos hstep]
    exact hrest

end

variable {α : Type*} [LinearOrder α]

theorem value_lt_of_lt {b : ℕ} {digit : α → ℕ} {s : Set α} (hs : StrictMonoOn digit s)
    {v w : List α} (hl : v.length = w.length) (hv : ∀ a ∈ v, a ∈ s ∧ digit a < b)
    (hw : ∀ a ∈ w, a ∈ s ∧ digit a < b) (h : v < w) : value b digit v < value b digit w := by
  induction v generalizing w with
  | nil =>
    have : w = [] := List.length_eq_zero_iff.mp hl.symm
    exact absurd h (by simp [this])
  | cons a v ih =>
    cases w with
    | nil => simp at hl
    | cons c w =>
      have hl' : v.length = w.length := by simpa using hl
      rw [value_cons, value_cons, hl']
      have ha := hv a List.mem_cons_self
      have hc := hw c List.mem_cons_self
      rcases List.cons_lt_cons_iff.mp h with hac | ⟨rfl, hvw⟩
      · have hd : digit a + 1 ≤ digit c := hs ha.1 hc.1 hac
        have hv' := value_lt_pow (fun x hx => (hv x (List.mem_cons_of_mem a hx)).2)
        rw [hl'] at hv'
        have hm := Nat.mul_le_mul_right (b ^ w.length) hd
        rw [Nat.add_mul] at hm
        omega
      · have := ih hl' (fun x hx => hv x (List.mem_cons_of_mem a hx))
          (fun x hx => hw x (List.mem_cons_of_mem a hx)) hvw
        omega

/-- Words of one length over digits that increase are ordered as the numbers they spell. -/
theorem lt_iff_value_lt {b : ℕ} {digit : α → ℕ} {s : Set α} (hs : StrictMonoOn digit s)
    {v w : List α} (hl : v.length = w.length) (hv : ∀ a ∈ v, a ∈ s ∧ digit a < b)
    (hw : ∀ a ∈ w, a ∈ s ∧ digit a < b) : v < w ↔ value b digit v < value b digit w := by
  refine ⟨value_lt_of_lt hs hl hv hw, fun h => ?_⟩
  rcases lt_trichotomy v w with hlt | heq | hgt
  · exact hlt
  · exact absurd h (by simp [heq])
  · exact absurd h (value_lt_of_lt hs hl.symm hw hv hgt).not_gt

theorem eq_of_value_eq {b : ℕ} {digit : α → ℕ} {s : Set α} (hs : StrictMonoOn digit s)
    {v w : List α} (hl : v.length = w.length) (hv : ∀ a ∈ v, a ∈ s ∧ digit a < b)
    (hw : ∀ a ∈ w, a ∈ s ∧ digit a < b) (h : value b digit v = value b digit w) : v = w := by
  rcases lt_trichotomy v w with hlt | heq | hgt
  · exact absurd h (value_lt_of_lt hs hl hv hw hlt).ne
  · exact heq
  · exact absurd h (value_lt_of_lt hs hl.symm hw hv hgt).ne'

/-- A word is what its value spells at its length. -/
theorem spell_value {b : ℕ} (hb : 0 < b) {digit : α → ℕ} {symbol : ℕ → α} {s : Set α}
    (hs : StrictMonoOn digit s) (hd : ∀ i < b, digit (symbol i) = i ∧ symbol i ∈ s) {w : List α}
    (hw : ∀ a ∈ w, a ∈ s ∧ digit a < b) : spell b symbol w.length (value b digit w) = w := by
  apply eq_of_value_eq hs (by simp) _ hw
  · rw [value_spell hb fun i hi => (hd i hi).1]
    exact Nat.mod_eq_of_lt (value_lt_pow fun a ha => (hw a ha).2)
  · intro a ha
    obtain ⟨d, -, rfl⟩ := List.mem_map.mp ha
    have hlt : value b digit w / b ^ d % b < b := Nat.mod_lt _ hb
    refine ⟨(hd _ hlt).2, ?_⟩
    rw [(hd _ hlt).1]
    exact hlt

end Numeral
