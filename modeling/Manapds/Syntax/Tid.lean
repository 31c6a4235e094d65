import Mathlib.Data.Prod.Lex
import Manapds.Lib.Numeral
import Manapds.Syntax.Text

/-!
# TIDs and the clock that mints them

A TID is thirteen base32-sortable digits over a microsecond timestamp and a clock id. The digits
are in byte order, so TIDs compare as the numbers they spell, and `mintAfter` hands back a TID
above the one it was given or none at all.
-/

namespace Manapds

/-- What was rejected and which rule it broke. -/
inductive SyntaxError where
  | atUri (rule : String)
  | did (rule : String)
  | handle (rule : String)
  | nsid (rule : String)
  | recordKey (rule : String)
  | tid (rule : String)
deriving DecidableEq, Repr

namespace Tid

def len : ℕ := 13

/-- One past the largest timestamp, at 53 bits. -/
def micros : ℕ := 2 ^ 53

/-- One past the largest clock id, at 10 bits. -/
def clockIds : ℕ := 2 ^ 10

theorem micros_eq : micros = 9007199254740992 := by norm_num [micros]

theorem clockIds_eq : clockIds = 1024 := by norm_num [clockIds]

def isDigit (b : Byte) : Bool :=
  (ascii '2' ≤ b && b ≤ ascii '7') || (ascii 'a' ≤ b && b ≤ ascii 'z')

def validate (input : Str) : Except SyntaxError Unit :=
  if input.length ≠ len then .error (.tid "not 13 characters")
  else if input.all isDigit = false then .error (.tid "character outside base32-sortable")
  -- The encoded integer's top bit is always clear, which caps the first digit at 15.
  else if (input.head?.any fun b =>
      (ascii '2' ≤ b && b ≤ ascii '7') || (ascii 'a' ≤ b && b ≤ ascii 'j')) = false then
    .error (.tid "high bit set")
  else .ok ()

end Tid

structure Tid where
  str : Str
  valid : Tid.validate str = .ok ()

instance : DecidableEq Tid := fun a b =>
  decidable_of_iff (a.str = b.str) ⟨fun h => by cases a; cases b; cases h; rfl, fun h => h ▸ rfl⟩

instance : LT Tid := ⟨fun a b => a.str < b.str⟩

namespace Tid

theorem validate_ok_iff {input : Str} : validate input = .ok () ↔
    input.length = 13 ∧ (∀ b ∈ input, isDigit b = true) ∧
      ∃ b, input.head? = some b ∧ ((ascii '2' ≤ b ∧ b ≤ ascii '7') ∨ (ascii 'a' ≤ b ∧ b ≤ ascii 'j')) := by
  unfold validate len
  split_ifs with hl hd hh
  · simp [hl]
  · simp only [false_iff]
    intro h
    rw [List.all_eq_true.mpr h.2.1] at hd
    cases hd
  · simp only [false_iff]
    rintro ⟨-, -, b, hb, hr⟩
    rw [hb, Option.any_some] at hh
    simp only [Bool.or_eq_false_iff, Bool.and_eq_false_iff, decide_eq_false_iff_not] at hh
    tauto
  · simp only [true_iff]
    rw [Bool.not_eq_false] at hd hh
    refine ⟨not_not.mp hl, List.all_eq_true.mp hd, ?_⟩
    cases hc : input.head? with
    | none => simp [hc] at hh
    | some b => exact ⟨b, rfl, by simpa [hc] using hh⟩

/-- The value of a base32-sortable digit, which parsing has already checked. -/
def digit (b : Byte) : ℕ :=
  if ascii '2' ≤ b ∧ b ≤ ascii '7' then b.val - (ascii '2').val else b.val - (ascii 'a').val + 6

def digits : List Byte := text "234567abcdefghijklmnopqrstuvwxyz"

def encode (value : ℕ) : Str :=
  (List.range len).reverse.map fun d => digits.getD ((value >>> (d * 5)) &&& 31) 0

theorem isDigit_iff {b : Byte} :
    isDigit b = true ↔ (50 ≤ b.val ∧ b.val ≤ 55) ∨ (97 ≤ b.val ∧ b.val ≤ 122) := by
  simp only [isDigit, Bool.or_eq_true, Bool.and_eq_true, decide_eq_true_eq, Fin.le_def]
  exact Iff.rfl

theorem digit_eq (b : Byte) :
    digit b = if 50 ≤ b.val ∧ b.val ≤ 55 then b.val - 50 else b.val - 97 + 6 := rfl

theorem digit_lt {b : Byte} (h : isDigit b = true) : digit b < 32 := by
  rw [isDigit_iff] at h
  rw [digit_eq]
  split_ifs <;> omega

theorem digit_strictMonoOn : StrictMonoOn digit {b | isDigit b = true} := by
  intro a ha b hb hab
  have ha := isDigit_iff.mp ha
  have hb := isDigit_iff.mp hb
  have hab : a.val < b.val := hab
  rw [digit_eq, digit_eq]
  split_ifs <;> omega

theorem digit_digits (i : ℕ) (h : i < 32) : digit (digits.getD i 0) = i := by
  revert i
  decide

theorem isDigit_digits (i : ℕ) (h : i < 32) : isDigit (digits.getD i 0) = true := by
  revert i
  decide

theorem encode_eq_spell (value : ℕ) :
    encode value = Numeral.spell 32 (fun i => digits.getD i 0) 13 value := by
  unfold encode Numeral.spell len
  refine List.map_congr_left fun d _ => ?_
  have h31 : (31 : ℕ) = 2 ^ 5 - 1 := rfl
  rw [Nat.shiftRight_eq_div_pow, h31, Nat.and_two_pow_sub_one_eq_mod, mul_comm, pow_mul]
  norm_num

theorem encode_valid {value : ℕ} (h : value < 2 ^ 63) : validate (encode value) = .ok () := by
  rw [validate_ok_iff, encode_eq_spell]
  refine ⟨by simp, ?_, ?_⟩
  · intro b hb
    obtain ⟨d, _, rfl⟩ := List.mem_map.mp hb
    exact isDigit_digits _ (Nat.mod_lt _ (by norm_num))
  · rw [Numeral.spell_succ]
    refine ⟨_, rfl, ?_⟩
    have hq : value / 32 ^ 12 % 32 < 8 := by
      have : value / 32 ^ 12 < 8 := Nat.div_lt_of_lt_mul (by norm_num at h ⊢; omega)
      omega
    generalize value / 32 ^ 12 % 32 = i at hq
    revert i
    decide

/-- A TID over a microsecond timestamp and a clock id, both truncated to the width the encoding
gives them. -/
def fromParts (at_ clockId : ℕ) : Tid where
  str := encode ((at_ % micros) * clockIds + clockId % clockIds)
  valid := encode_valid (by
    rw [micros_eq, clockIds_eq]
    omega)

def value (t : Tid) : ℕ := Numeral.value 32 digit t.str

/-- The microsecond timestamp and the clock id it was minted under. -/
def toParts (t : Tid) : ℕ × ℕ := (t.value / clockIds, t.value % clockIds)

theorem lt_iff_value_lt (a b : Tid) : a < b ↔ a.value < b.value := by
  obtain ⟨hal, had, _⟩ := validate_ok_iff.mp a.valid
  obtain ⟨hbl, hbd, _⟩ := validate_ok_iff.mp b.valid
  exact Numeral.lt_iff_value_lt digit_strictMonoOn (hal.trans hbl.symm)
    (fun x hx => ⟨had x hx, digit_lt (had x hx)⟩) (fun x hx => ⟨hbd x hx, digit_lt (hbd x hx)⟩)

theorem value_fromParts {at_ : ℕ} (clockId : ℕ) (ha : at_ < micros) :
    (fromParts at_ clockId).value = at_ * clockIds + clockId % clockIds := by
  have hlt : at_ * clockIds + clockId % clockIds < 32 ^ 13 := by
    rw [micros_eq] at ha
    rw [clockIds_eq]
    omega
  have hstr : (fromParts at_ clockId).str = encode (at_ * clockIds + clockId % clockIds) := by
    simp only [fromParts, Nat.mod_eq_of_lt ha]
  rw [value, hstr, encode_eq_spell, Numeral.value_spell (by norm_num) digit_digits]
  exact Nat.mod_eq_of_lt hlt

instance : IsStrictOrder Tid (· < ·) where
  irrefl a := lt_irrefl a.str
  trans a b c := lt_trans (a := a.str) (b := b.str) (c := c.str)

/-! ## Both ways -/

/-- One past the largest `u64`. -/
def u64 : ℕ := 2 ^ 64

/-- `digit`, or nothing where the subtraction in it would be under zero. -/
def checkedDigit (b : Byte) : Option ℕ :=
  if ascii '2' ≤ b ∧ b ≤ ascii '7' then some (b.val - (ascii '2').val)
  else if ascii 'a' ≤ b then some (b.val - (ascii 'a').val + 6)
  else none

/-- `toParts` over `u64`s, or nothing where a step would overflow. -/
def checkedParts (t : Tid) : Option (ℕ × ℕ) := do
  let value ← Numeral.checkedValue u64 32 checkedDigit t.str 0
  some (value / clockIds, value % clockIds)

theorem checkedDigit_eq {b : Byte} (h : isDigit b = true) : checkedDigit b = some (digit b) := by
  have h := isDigit_iff.mp h
  have hval : ∀ {c d : Byte}, c ≤ d ↔ c.val ≤ d.val := Iff.rfl
  have h2 : (ascii '2').val = 50 := rfl
  have h7 : (ascii '7').val = 55 := rfl
  have ha : (ascii 'a').val = 97 := rfl
  unfold checkedDigit digit
  simp only [hval, h2, h7, ha]
  split_ifs
  · rfl
  · rfl
  · omega

theorem digits_of_valid (t : Tid) : ∀ b ∈ t.str, isDigit b = true ∧ digit b < 32 :=
  fun b hb => ⟨(validate_ok_iff.mp t.valid).2.1 b hb, digit_lt ((validate_ok_iff.mp t.valid).2.1 b hb)⟩

/-- The first digit is what decides how large the value is. -/
theorem value_lt_iff (t : Tid) {b : Byte} (hb : t.str.head? = some b) (n : ℕ) :
    t.value < n * 2 ^ 60 ↔ digit b < n := by
  have hlen := (validate_ok_iff.mp t.valid).1
  have hdigits := digits_of_valid t
  rw [value]
  generalize t.str = str at hb hlen hdigits
  cases str with
  | nil => cases hb
  | cons c rest =>
    obtain rfl := Option.some.inj hb
    have hrest : rest.length = 12 := by simpa using hlen
    have hlt := Numeral.value_lt_pow fun a ha => (hdigits a (List.mem_cons_of_mem c ha)).2
    have hpow : (32 : ℕ) ^ 12 = 2 ^ 60 := by norm_num
    rw [hrest, hpow] at hlt
    rw [Numeral.value_cons, hrest, hpow]
    omega

theorem value_lt_u64 (t : Tid) : t.value < u64 := by
  obtain ⟨-, -, b, hb, hrange⟩ := validate_ok_iff.mp t.valid
  have hdigit : digit b < 16 := by
    rw [digit_eq]
    rcases hrange with ⟨-, h7⟩ | ⟨ha, hj⟩
    · have h7 : b.val ≤ 55 := h7
      split_ifs <;> omega
    · have ha : 97 ≤ b.val := ha
      have hj : b.val ≤ 106 := hj
      split_ifs <;> omega
  have hlt := (value_lt_iff t hb 16).mpr hdigit
  have hu64 : u64 = 16 * 2 ^ 60 := by norm_num [u64]
  omega

theorem checkedParts_eq (t : Tid) : t.checkedParts = some t.toParts := by
  have hvalue := value_lt_u64 t
  rw [value] at hvalue
  have hbound : 0 * 32 ^ t.str.length + Numeral.value 32 digit t.str < u64 := by simpa using hvalue
  have hchecked := Numeral.checkedValue_eq (by norm_num)
    (fun a ha => checkedDigit_eq (digits_of_valid t a ha).1) 0 hbound
  rw [checkedParts, hchecked]
  simp [toParts, value]

theorem encode_value (t : Tid) : encode t.value = t.str := by
  have hspell := Numeral.spell_value (by norm_num) digit_strictMonoOn
    (fun i hi => ⟨digit_digits i hi, isDigit_digits i hi⟩) (digits_of_valid t)
  rw [(validate_ok_iff.mp t.valid).1] at hspell
  rw [encode_eq_spell]
  exact hspell

theorem value_inj {a b : Tid} : a.value = b.value ↔ a = b := by
  refine ⟨fun h => ?_, fun h => h ▸ rfl⟩
  have hstr : a.str = b.str := by rw [← encode_value a, ← encode_value b, h]
  cases a
  cases b
  cases hstr
  rfl

/-- What a timestamp too large for the field loses is its top bit. -/
theorem value_fromParts_toParts (t : Tid) :
    (fromParts t.toParts.1 t.toParts.2).value = t.value % 2 ^ 63 := by
  have hlt : t.value / 1024 % 9007199254740992 < micros := by
    rw [micros_eq]
    omega
  have htrunc : fromParts t.toParts.1 t.toParts.2 =
      fromParts (t.value / 1024 % 9007199254740992) t.toParts.2 := by
    simp only [fromParts, toParts, micros_eq, clockIds_eq, Nat.mod_mod]
  rw [htrunc, value_fromParts _ hlt, toParts, clockIds_eq]
  norm_num
  omega

theorem fromParts_toParts_iff (t : Tid) :
    fromParts t.toParts.1 t.toParts.2 = t ↔ ∀ b ∈ t.str.head?, b ≤ ascii 'b' := by
  obtain ⟨-, -, b, hb, hrange⟩ := validate_ok_iff.mp t.valid
  have hfirst : (∀ c ∈ t.str.head?, c ≤ ascii 'b') ↔ b ≤ ascii 'b' := by simp [hb]
  have hdigit : b ≤ ascii 'b' ↔ digit b < 8 := by
    have hbb : b ≤ ascii 'b' ↔ b.val ≤ 98 := Iff.rfl
    rw [hbb, digit_eq]
    rcases hrange with ⟨h2, h7⟩ | ⟨ha, -⟩
    · have h2 : 50 ≤ b.val := h2
      have h7 : b.val ≤ 55 := h7
      split_ifs <;> omega
    · have ha : 97 ≤ b.val := ha
      split_ifs <;> omega
  rw [hfirst, hdigit, ← value_lt_iff t hb, ← value_inj, value_fromParts_toParts]
  omega

theorem toParts_fromParts {at_ clockId : ℕ} (ha : at_ < micros) (hid : clockId < clockIds) :
    (fromParts at_ clockId).toParts = (at_, clockId) := by
  rw [toParts, value_fromParts clockId ha]
  rw [clockIds_eq] at hid ⊢
  apply Prod.ext <;> dsimp only <;> omega

theorem lt_iff_toParts_lt (a b : Tid) : a < b ↔ toLex a.toParts < toLex b.toParts := by
  rw [lt_iff_value_lt, Prod.Lex.toLex_lt_toLex, toParts, toParts, clockIds_eq]
  dsimp only
  omega

/-- Parsing and the two conversions agree on which integers a TID spells, but for the top bit: the
parser takes every value below `2 ^ 64`, and a minted TID stays below `2 ^ 63`. -/
theorem codec_exact :
    (∀ t : Tid, t.checkedParts = some t.toParts ∧
      (fromParts t.toParts.1 t.toParts.2 = t ↔ ∀ b ∈ t.str.head?, b ≤ ascii 'b')) ∧
    (∀ at_ < micros, ∀ clockId < clockIds, validate (fromParts at_ clockId).str = .ok () ∧
      (fromParts at_ clockId).toParts = (at_, clockId)) ∧
    ∀ a b : Tid, a < b ↔ toLex a.toParts < toLex b.toParts :=
  ⟨fun t => ⟨checkedParts_eq t, fromParts_toParts_iff t⟩,
    fun _ ha _ hid => ⟨(fromParts _ _).valid, toParts_fromParts ha hid⟩, lt_iff_toParts_lt⟩

theorem codec_exact_sample : 5 < micros ∧ 7 < clockIds ∧ (fromParts 5 7).toParts = (5, 7) := by
  have hmicros : 5 < micros := by simp [micros]
  have hid : 7 < clockIds := by simp [clockIds]
  exact ⟨hmicros, hid, (codec_exact.2.1 5 hmicros 7 hid).2⟩

/-- The largest first digit there is, over zeros. -/
def topDigit : Str := text "j222222222222"

theorem topDigit_valid : validate topDigit = .ok () := by decide

/-- It is taken, and comes back with the top bit of its timestamp gone. -/
theorem exists_not_fromParts_toParts : ∃ t : Tid, t.str = topDigit ∧
    (fromParts t.toParts.1 t.toParts.2).str = text "b222222222222" ∧
      fromParts t.toParts.1 t.toParts.2 ≠ t := by
  refine ⟨⟨topDigit, topDigit_valid⟩, rfl, by decide, fun h => ?_⟩
  have hstr := congrArg Tid.str h
  revert hstr
  decide

end Tid

/-- Mints TIDs that only ever go up. -/
structure TidClock where
  clockId : ℕ
  last : ℕ
deriving DecidableEq, Repr

namespace TidClock

/-- The next TID, one microsecond past the last if the clock has not moved. -/
def mint (clock : TidClock) (now : ℕ) : Tid × TidClock :=
  -- Saturating at the top of a `u64`, and then at the top of the field.
  let last := min (max now (min (clock.last + 1) (2 ^ 64 - 1))) (Tid.micros - 1)
  (Tid.fromParts last clock.clockId, { clock with last })

/-- The next TID, kept above one already written, or nothing where the field has no room. -/
def mintAfter (clock : TidClock) (now : ℕ) (previous : Tid) : Option Tid × TidClock :=
  let clock := { clock with last := max clock.last previous.toParts.1 }
  if clock.last < Tid.micros - 1 then
    let (tid, clock) := clock.mint now
    (some tid, clock)
  else (none, clock)

theorem lt_of_mintAfter {clock : TidClock} {now : ℕ} {previous tid : Tid}
    (h : (clock.mintAfter now previous).1 = some tid) : previous < tid := by
  unfold mintAfter at h
  simp only at h
  split_ifs at h with hroom
  obtain rfl := Option.some.inj h
  rw [Tid.micros_eq] at hroom
  have hlast : min (max now (min (max clock.last previous.toParts.1 + 1) (2 ^ 64 - 1)))
      (Tid.micros - 1) < Tid.micros := by
    rw [Tid.micros_eq]
    omega
  rw [Tid.lt_iff_value_lt, mint, Tid.value_fromParts _ hlast]
  have hprev : previous.value < (previous.toParts.1 + 1) * Tid.clockIds := by
    have := Nat.div_add_mod previous.value Tid.clockIds
    have hmod : previous.value % Tid.clockIds < Tid.clockIds := Nat.mod_lt _ (by norm_num [Tid.clockIds])
    rw [Tid.toParts, Nat.add_mul, Nat.mul_comm (_ / _)]
    omega
  have habove : previous.toParts.1 + 1 ≤ min (max now (min (max clock.last previous.toParts.1 + 1)
      (2 ^ 64 - 1))) (Tid.micros - 1) := by
    rw [Tid.micros_eq]
    omega
  have := Nat.mul_le_mul_right Tid.clockIds habove
  omega

end TidClock

end Manapds
