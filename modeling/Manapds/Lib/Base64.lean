import Mathlib.Order.Fin.Basic
import Mathlib.Data.List.TakeWhile

/-!
# Base64

Three bytes as four symbols of six bits each. What is left over is written short and may be read
with the padding that would fill its group or with less. Bits that stand for nothing have to be
clear.
-/

namespace Base64

def six (n : ℕ) : Fin 64 := Fin.ofNat 64 n

def eight (n : ℕ) : Fin 256 := Fin.ofNat 256 n

theorem val_six {n : ℕ} (h : n < 64) : (six n).val = n := Nat.mod_eq_of_lt h

theorem val_eight {n : ℕ} (h : n < 256) : (eight n).val = n := Nat.mod_eq_of_lt h

/-- The bits of some bytes, six at a time. -/
def sextets : List (Fin 256) → List (Fin 64)
  | [] => []
  | [a] => [six (a / 4), six (a % 4 * 16)]
  | [a, b] => [six (a / 4), six (a % 4 * 16 + b / 16), six (b % 16 * 4)]
  | a :: b :: c :: rest =>
    six (a / 4) :: six (a % 4 * 16 + b / 16) :: six (b % 16 * 4 + c / 64) :: six (c % 64) ::
      sextets rest

def octets : List (Fin 64) → Option (List (Fin 256))
  | [] => some []
  | [_] => none
  | [p, q] => if q.val % 16 = 0 then some [eight (p * 4 + q / 16)] else none
  | [p, q, r] =>
    if r.val % 4 = 0 then some [eight (p * 4 + q / 16), eight (q % 16 * 16 + r / 4)] else none
  | p :: q :: r :: s :: rest => do
    let bytes ← octets rest
    return eight (p * 4 + q / 16) :: eight (q % 16 * 16 + r / 4) :: eight (r % 4 * 64 + s) :: bytes

theorem eight_first {a n : ℕ} (ha : a < 256) (hn : n < 16) :
    (eight ((six (a / 4)).val * 4 + (six (a % 4 * 16 + n)).val / 16)).val = a := by
  rw [val_six (by omega), val_six (by omega), val_eight (by omega)]
  omega

theorem eight_second (a : ℕ) {b n : ℕ} (hb : b < 256) (hn : n < 4) :
    (eight ((six (a % 4 * 16 + b / 16)).val % 16 * 16 + (six (b % 16 * 4 + n)).val / 4)).val = b := by
  rw [val_six (by omega), val_six (by omega), val_eight (by omega)]
  omega

theorem eight_third (b : ℕ) {c : ℕ} (hc : c < 256) :
    (eight ((six (b % 16 * 4 + c / 64)).val % 4 * 64 + (six (c % 64)).val)).val = c := by
  rw [val_six (by omega), val_six (by omega), val_eight (by omega)]
  omega

theorem octets_sextets (bytes : List (Fin 256)) : octets (sextets bytes) = some bytes := by
  induction bytes using sextets.induct with
  | case1 => rfl
  | case2 a =>
    have hclear : (six (a % 4 * 16)).val % 16 = 0 := by
      rw [val_six (by omega)]
      omega
    have ha : eight _ = a := Fin.ext (eight_first a.isLt (by decide : 0 < 16))
    rw [sextets, octets, if_pos hclear]
    exact congrArg (fun x => some [x]) ha
  | case3 a b =>
    have hclear : (six (b % 16 * 4)).val % 4 = 0 := by
      rw [val_six (by omega)]
      omega
    have ha : eight _ = a := Fin.ext (eight_first a.isLt (by omega : b.val / 16 < 16))
    have hb : eight ((six (a % 4 * 16 + b / 16)).val % 16 * 16 + (six (b % 16 * 4)).val / 4) = b :=
      Fin.ext (eight_second a b.isLt (by decide : 0 < 4))
    rw [sextets, octets, if_pos hclear, ha, hb]
  | case4 a b c rest ih =>
    have ha : eight _ = a := Fin.ext (eight_first a.isLt (by omega : b.val / 16 < 16))
    have hb : eight _ = b := Fin.ext (eight_second a b.isLt (by omega : c.val / 64 < 4))
    have hc : eight _ = c := Fin.ext (eight_third b c.isLt)
    rw [sextets, octets, ih, ha, hb, hc]
    rfl

theorem six_first (p q : Fin 64) : six ((eight (p * 4 + q / 16)).val / 4) = p := by
  apply Fin.ext
  rw [val_eight (by omega), val_six (by omega)]
  omega

theorem six_second (p q : Fin 64) {n : ℕ} (hn : n = q.val % 16) :
    six ((eight (p * 4 + q / 16)).val % 4 * 16 + n) = q := by
  apply Fin.ext
  rw [val_eight (by omega), val_six (by omega)]
  omega

theorem six_third (q r : Fin 64) {n : ℕ} (hn : n = r.val % 4) :
    six ((eight (q % 16 * 16 + r / 4)).val % 16 * 4 + n) = r := by
  apply Fin.ext
  rw [val_eight (by omega), val_six (by omega)]
  omega

theorem six_fourth (r s : Fin 64) : six ((eight (r % 4 * 64 + s)).val % 64) = s := by
  apply Fin.ext
  rw [val_eight (by omega), val_six (by omega)]
  omega

/-- Symbols that are read are written again: what stands for nothing in them is clear. -/
theorem sextets_octets {word : List (Fin 64)} {bytes : List (Fin 256)}
    (h : octets word = some bytes) : sextets bytes = word := by
  induction word using octets.induct generalizing bytes with
  | case1 =>
    obtain rfl := Option.some.inj h
    rfl
  | case2 => cases h
  | case3 p q hclear =>
    rw [octets, if_pos hclear] at h
    obtain rfl := Option.some.inj h
    have hq := six_second p q (n := 0) (by omega)
    rw [sextets, six_first]
    rw [Nat.add_zero] at hq
    rw [hq]
  | case4 p q hclear =>
    rw [octets, if_neg hclear] at h
    cases h
  | case5 p q r hclear =>
    rw [octets, if_pos hclear] at h
    obtain rfl := Option.some.inj h
    have hb : (eight (q % 16 * 16 + r / 4)).val / 16 = q % 16 := by
      rw [val_eight (by omega)]
      omega
    have hr := six_third q r (n := 0) (by omega)
    rw [Nat.add_zero] at hr
    rw [sextets, six_first, six_second p q hb, hr]
  | case6 p q r hclear =>
    rw [octets, if_neg hclear] at h
    cases h
  | case7 p q r s rest ih =>
    rw [octets] at h
    obtain ⟨tail, htail, h⟩ := Option.bind_eq_some_iff.mp h
    obtain rfl := Option.some.inj h
    have hb : (eight (q % 16 * 16 + r / 4)).val / 16 = q % 16 := by
      rw [val_eight (by omega)]
      omega
    have hc : (eight (r % 4 * 64 + s)).val / 64 = r % 4 := by
      rw [val_eight (by omega)]
      omega
    rw [sextets, six_first, six_second p q hb, six_third q r hc, six_fourth, ih htail]

section

variable {α : Type*}

theorem mapM_map_symbol {symbol : Fin 64 → α} {digit : α → Option (Fin 64)}
    (h : ∀ i, digit (symbol i) = some i) (w : List (Fin 64)) :
    (w.map symbol).mapM digit = some w := by
  induction w with
  | nil => rfl
  | cons i w ih => simp [List.mapM_cons, h, ih]

theorem map_symbol_mapM {symbol : Fin 64 → α} {digit : α → Option (Fin 64)}
    (h : ∀ a i, digit a = some i → symbol i = a) {word : List α} {w : List (Fin 64)}
    (hw : word.mapM digit = some w) : w.map symbol = word := by
  induction word generalizing w with
  | nil =>
    obtain rfl := Option.some.inj hw
    rfl
  | cons a word ih =>
    rw [List.mapM_cons] at hw
    obtain ⟨i, hi, hw⟩ := Option.bind_eq_some_iff.mp hw
    obtain ⟨tail, htail, hw⟩ := Option.bind_eq_some_iff.mp hw
    obtain rfl := Option.some.inj hw
    rw [List.map_cons, h a i hi, ih htail]

variable [DecidableEq α]

/-- How much padding fills the last group of so many symbols. -/
def owed (n : ℕ) : ℕ := (4 - n % 4) % 4

def encode (symbol : Fin 64 → α) (bytes : List (Fin 256)) : List α := (sextets bytes).map symbol

def decode (digit : α → Option (Fin 64)) (pad : α) (word : List α) : Option (List (Fin 256)) :=
  let body := word.takeWhile (· ≠ pad)
  let rest := word.dropWhile (· ≠ pad)
  if rest.all (· = pad) ∧ rest.length ≤ owed body.length then do
    octets (← body.mapM digit)
  else none

theorem decode_encode {symbol : Fin 64 → α} {digit : α → Option (Fin 64)} {pad : α}
    (h : ∀ i, digit (symbol i) = some i) (hpad : ∀ i, symbol i ≠ pad) (bytes : List (Fin 256)) :
    decode digit pad (encode symbol bytes) = some bytes := by
  have hall : ∀ a ∈ encode symbol bytes, decide (a ≠ pad) = true := by
    intro a ha
    obtain ⟨i, -, rfl⟩ := List.mem_map.mp ha
    exact decide_eq_true (hpad i)
  have hbody : (encode symbol bytes).takeWhile (· ≠ pad) = encode symbol bytes :=
    List.takeWhile_eq_self_iff.mpr hall
  have hrest : (encode symbol bytes).dropWhile (· ≠ pad) = [] :=
    List.dropWhile_eq_nil_iff.mpr hall
  rw [decode, hbody, hrest, if_pos (by simp), encode, mapM_map_symbol h]
  exact octets_sextets bytes

/-- What is read with no padding at all. -/
def decodeBare (digit : α → Option (Fin 64)) (word : List α) : Option (List (Fin 256)) := do
  octets (← word.mapM digit)

omit [DecidableEq α] in
/-- Without padding there is one word for each string of bytes. -/
theorem decodeBare_eq_some {symbol : Fin 64 → α} {digit : α → Option (Fin 64)}
    (h : ∀ a i, digit a = some i ↔ symbol i = a) {word : List α} {bytes : List (Fin 256)} :
    decodeBare digit word = some bytes ↔ word = encode symbol bytes := by
  constructor
  · intro hread
    obtain ⟨w, hw, hbytes⟩ := Option.bind_eq_some_iff.mp hread
    rw [encode, sextets_octets hbytes, map_symbol_mapM (fun a i => (h a i).mp) hw]
  · intro hword
    rw [hword, decodeBare, encode, mapM_map_symbol fun i => (h _ i).mpr rfl]
    exact octets_sextets bytes

end

end Base64
