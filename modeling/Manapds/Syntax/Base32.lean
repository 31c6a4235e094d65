import Manapds.Lib.Groups
import Manapds.Lib.Numeral
import Manapds.Syntax.Text

/-!
# Base32

`base32` shifts bytes into an accumulator of 32 bits and takes five off whenever as many are
pending. The accumulator is never cleared, so the bits that were taken drift up and out of it. Only
its lowest ones are pending, and there are never more than twelve of those.

`rfc4648` is the encoding that is asked for: all the bits of the input in groups of five, the last
one filled up with zeros, and a letter or figure for each group.
-/

namespace Manapds.Crypto

def alphabet : Str := text "abcdefghijklmnopqrstuvwxyz234567"

/-- What the loop over the bytes carries. -/
structure Encoder where
  buffer : BitVec 32
  bits : ℕ
  encoded : Str

/-- The inner loop, which takes five bits at a time off the top of the pending ones. -/
def drain (buffer : BitVec 32) : ℕ → Str → ℕ × Str
  | bits + 5, encoded =>
    drain buffer bits (encoded ++ [alphabet.getD ((buffer >>> bits) &&& 31).toNat 0])
  | bits, encoded => (bits, encoded)

namespace Encoder

def push (e : Encoder) (byte : Byte) : Encoder :=
  let buffer := (e.buffer <<< 8) ||| BitVec.ofNat 32 byte
  let drained := drain buffer (e.bits + 8) e.encoded
  ⟨buffer, drained.1, drained.2⟩

def finish (e : Encoder) : Str :=
  if 0 < e.bits then
    e.encoded ++ [alphabet.getD ((e.buffer <<< (5 - e.bits)) &&& 31).toNat 0]
  else e.encoded

end Encoder

/-- Lowercase base32 without padding. -/
def base32 (bytes : Bytes) : Str := (bytes.foldl Encoder.push ⟨0, 0, []⟩).finish

def bit (d : ℕ) : Bool := d == 1

/-- The bits of a byte, highest first. -/
def byteBits (byte : Byte) : List Bool := Numeral.spell 2 bit 8 byte

/-- The letters stand for 0 to 25 and the figures from 2 on for the rest. -/
def letter (group : List Bool) : Byte :=
  let value := Numeral.value 2 Bool.toNat group
  if value < 26 then Fin.ofNat 256 ((ascii 'a').val + value)
  else Fin.ofNat 256 ((ascii '2').val + (value - 26))

def rfc4648 (bytes : Bytes) : Str := (Groups.groups 5 false (bytes.flatMap byteBits)).map letter

theorem toNat_bit (i : ℕ) (h : i < 2) : (bit i).toNat = i := by
  interval_cases i <;> rfl

theorem getD_alphabet {v : ℕ} (h : v < 32) : alphabet.getD v 0 =
    if v < 26 then Fin.ofNat 256 ((ascii 'a').val + v)
    else Fin.ofNat 256 ((ascii '2').val + (v - 26)) := by
  revert v
  decide

/-- The source masks a number to the five bits that a group has. -/
theorem letter_spell (v : BitVec 32) :
    letter (Numeral.spell 2 bit 5 v.toNat) = alphabet.getD (v &&& 31).toNat 0 := by
  have hvalue := Numeral.value_spell (by decide : 0 < 2) toNat_bit 5 v.toNat
  have hmask : (v &&& 31).toNat = v.toNat % 2 ^ 5 := by
    rw [BitVec.toNat_and]
    exact Nat.and_two_pow_sub_one_eq_mod v.toNat 5
  have hlt : v.toNat % 2 ^ 5 < 32 := Nat.mod_lt _ (by decide)
  rw [letter, hvalue, hmask, getD_alphabet hlt]

/-- The bits that are not written yet. -/
def Encoder.pending (e : Encoder) : List Bool := Numeral.spell 2 bit e.bits e.buffer.toNat

theorem toNat_shiftLeft_or (buffer : BitVec 32) (byte : Byte) :
    ((buffer <<< 8) ||| BitVec.ofNat 32 byte).toNat = (buffer.toNat * 2 ^ 8 + byte) % 2 ^ 32 := by
  rw [BitVec.toNat_or, BitVec.toNat_shiftLeft, BitVec.toNat_ofNat, ← Nat.or_mod_two_pow,
    ← Nat.shiftLeft_add_eq_or_of_lt byte.isLt, Nat.shiftLeft_eq]

/-- What a byte is added to may lose its high bits. The pending ones are not among them. -/
theorem spell_shiftLeft_or (buffer : BitVec 32) (byte : Byte) {n : ℕ} (hn : n + 8 ≤ 32) :
    Numeral.spell 2 bit (n + 8) ((buffer <<< 8) ||| BitVec.ofNat 32 byte).toNat =
      Numeral.spell 2 bit n buffer.toNat ++ byteBits byte := by
  rw [toNat_shiftLeft_or, Numeral.spell_mod 2 bit hn]
  exact Numeral.spell_add bit n buffer.toNat byte.isLt

/-- The pending bits of the inner loop are the groups it writes and what is left. -/
theorem drain_spec (buffer : BitVec 32) (bits : ℕ) (encoded : Str) :
    (drain buffer bits encoded).1 < 5 ∧ ∃ full : List (List Bool), (∀ g ∈ full, g.length = 5) ∧
      Numeral.spell 2 bit bits buffer.toNat =
        full.flatten ++ Numeral.spell 2 bit (drain buffer bits encoded).1 buffer.toNat ∧
      (drain buffer bits encoded).2 = encoded ++ full.map letter := by
  fun_induction drain buffer bits encoded with
  | case1 bits encoded ih =>
    obtain ⟨hlt, full, hfull, hbits, hencoded⟩ := ih
    have hsplit := Numeral.spell_split 2 bit 5 bits buffer.toNat
    rw [Nat.add_comm] at hsplit
    have hshift : buffer.toNat / 2 ^ bits = (buffer >>> bits).toNat := by
      rw [BitVec.toNat_ushiftRight, Nat.shiftRight_eq_div_pow]
    refine ⟨hlt, Numeral.spell 2 bit 5 (buffer >>> bits).toNat :: full, ?_, ?_, ?_⟩
    · intro g hg
      rcases List.mem_cons.mp hg with rfl | hg
      · exact Numeral.length_spell 2 bit 5 _
      · exact hfull g hg
    · rw [hsplit, hshift, hbits, List.flatten_cons, List.append_assoc]
    · rw [hencoded, List.map_cons, letter_spell, List.append_assoc, List.singleton_append]
  | case2 bits encoded hlt =>
    refine ⟨?_, [], ?_, ?_, ?_⟩
    · by_contra hge
      exact hlt (bits - 5) (by omega)
    · intro g hg
      cases hg
    · rfl
    · exact (List.append_nil encoded).symm

/-- Whole groups of the input are written, and what is left of it is pending. -/
structure Encoder.Read (input : List Bool) (e : Encoder) : Prop where
  bits_lt : e.bits < 5
  written : ∃ full : List (List Bool), (∀ g ∈ full, g.length = 5) ∧
    input = full.flatten ++ e.pending ∧ e.encoded = full.map letter

namespace Encoder.Read

variable {input : List Bool} {e : Encoder}

theorem empty : Read [] ⟨0, 0, []⟩ := by
  refine ⟨by decide, [], ?_, rfl, rfl⟩
  intro g hg
  cases hg

theorem push (h : e.Read input) (byte : Byte) : (e.push byte).Read (input ++ byteBits byte) := by
  obtain ⟨hlt, full, hfull, hinput, hencoded⟩ := h
  obtain ⟨hlt', more, hmore, hbits, hencoded'⟩ :=
    drain_spec ((e.buffer <<< 8) ||| BitVec.ofNat 32 byte) (e.bits + 8) e.encoded
  rw [spell_shiftLeft_or e.buffer byte (by omega)] at hbits
  refine ⟨hlt', full ++ more, ?_, ?_, ?_⟩
  · intro g hg
    rcases List.mem_append.mp hg with hg | hg
    · exact hfull g hg
    · exact hmore g hg
  · rw [hinput, List.append_assoc, pending, hbits, List.flatten_append, List.append_assoc]
    rfl
  · rw [List.map_append, ← hencoded]
    exact hencoded'

theorem foldl (h : e.Read input) (bytes : Bytes) :
    (bytes.foldl Encoder.push e).Read (input ++ bytes.flatMap byteBits) := by
  induction bytes generalizing e input with
  | nil => simpa using h
  | cons byte bytes ih =>
    have hrest := ih (h.push byte)
    rwa [List.append_assoc, ← List.flatMap_cons] at hrest

/-- The last letter fills the pending bits up with zeros from below. -/
theorem finish (h : e.Read input) : e.finish = (Groups.groups 5 false input).map letter := by
  obtain ⟨hlt, full, hfull, hinput, hencoded⟩ := h
  rw [hinput, Groups.groups_flatten_append (by decide) hfull, List.map_append, ← hencoded,
    Encoder.finish]
  split_ifs with hbits
  · have hshort : e.pending.length = e.bits := Numeral.length_spell 2 bit _ _
    have hshift : (e.buffer <<< (5 - e.bits)).toNat =
        (e.buffer.toNat * 2 ^ (5 - e.bits) + 0) % 2 ^ 32 := by
      rw [BitVec.toNat_shiftLeft, Nat.shiftLeft_eq, Nat.add_zero]
    have hfive : e.bits + (5 - e.bits) = 5 := by omega
    have hfilled : Numeral.spell 2 bit 5 (e.buffer <<< (5 - e.bits)).toNat =
        e.pending ++ List.replicate (5 - e.bits) false := by
      have hadd := Numeral.spell_add bit e.bits e.buffer.toNat (Nat.two_pow_pos (5 - e.bits))
      rw [hfive, Numeral.spell_zero] at hadd
      rw [hshift, Numeral.spell_mod 2 bit (by decide : 5 ≤ 32), hadd]
      rfl
    rw [Groups.groups_of_short (by omega) (by omega), List.map_singleton, hshort, ← hfilled,
      letter_spell]
  · have hnone : e.pending = [] := by
      rw [pending, Nat.eq_zero_of_not_pos hbits]
      rfl
    rw [hnone, Groups.groups_nil (by decide), List.map_nil, List.append_nil]

end Encoder.Read

theorem base32_eq (bytes : Bytes) : base32 bytes = rfc4648 bytes :=
  (Encoder.Read.empty.foldl bytes).finish

theorem length_flatMap_byteBits (bytes : Bytes) :
    (bytes.flatMap byteBits).length = 8 * bytes.length := by
  induction bytes with
  | nil => rfl
  | cons byte bytes ih =>
    rw [List.flatMap_cons, List.length_append, ih, List.length_cons, byteBits,
      Numeral.length_spell]
    omega

theorem length_rfc4648 (bytes : Bytes) : (rfc4648 bytes).length = (8 * bytes.length + 4) / 5 := by
  rw [rfc4648, List.length_map, Groups.length_groups, length_flatMap_byteBits]

theorem byteBits_injective : Function.Injective byteBits := by
  intro a b h
  have hvalue := congrArg (Numeral.value 2 Bool.toNat) h
  have ha : a.val % 2 ^ 8 = a.val := Nat.mod_eq_of_lt a.isLt
  have hb : b.val % 2 ^ 8 = b.val := Nat.mod_eq_of_lt b.isLt
  rw [byteBits, byteBits, Numeral.value_spell (by decide) toNat_bit,
    Numeral.value_spell (by decide) toNat_bit, ha, hb] at hvalue
  exact Fin.ext hvalue

theorem toNat_strictMonoOn : StrictMonoOn Bool.toNat Set.univ := by
  intro a _ b _ h
  revert a b
  decide

theorem value_lt {g : List Bool} (hg : g.length = 5) : Numeral.value 2 Bool.toNat g < 32 := by
  have hlt := Numeral.value_lt_pow (w := g) (b := 2) fun a _ => Bool.toNat_lt a
  rwa [hg] at hlt

theorem letter_injOn : Set.InjOn letter {g | g.length = 5} := by
  intro g hg h hh heq
  have hsymbol : ∀ i < 32, ∀ j < 32, alphabet.getD i 0 = alphabet.getD j 0 → i = j := by
    decide
  have hg' := value_lt hg
  have hh' := value_lt hh
  rw [letter, letter, ← getD_alphabet hg', ← getD_alphabet hh'] at heq
  apply Numeral.eq_of_value_eq toNat_strictMonoOn (hg.trans hh.symm) _ _
    (hsymbol _ hg' _ hh' heq)
  · exact fun a _ => ⟨Set.mem_univ a, Bool.toNat_lt a⟩
  · exact fun a _ => ⟨Set.mem_univ a, Bool.toNat_lt a⟩

theorem rfc4648_injective : Function.Injective rfc4648 := by
  intro a b h
  have hlength := congrArg List.length h
  rw [length_rfc4648, length_rfc4648] at hlength
  have hbits := Groups.eq_of_map_groups_eq (by decide) letter_injOn
    (by rw [length_flatMap_byteBits, length_flatMap_byteBits]; omega) h
  have hblock : ∀ byte, (byteBits byte).length = 8 := fun byte => Numeral.length_spell 2 bit 8 byte
  exact Groups.flatMap_injective false (by decide) hblock byteBits_injective hbits

/-- Eight letters spell five bytes, whatever comes after those. -/
theorem take_rfc4648 {n : ℕ} {bytes : Bytes} (h : 5 * n ≤ bytes.length) :
    (rfc4648 bytes).take (8 * n) = rfc4648 (bytes.take (5 * n)) := by
  have hlen : (bytes.take (5 * n)).length = 5 * n := by
    rw [List.length_take]
    omega
  have hbits : ((bytes.take (5 * n)).flatMap byteBits).length = 5 * (8 * n) := by
    rw [length_flatMap_byteBits, hlen]
    omega
  have hsplit : rfc4648 bytes = rfc4648 (bytes.take (5 * n)) ++ rfc4648 (bytes.drop (5 * n)) := by
    rw [rfc4648, rfc4648, rfc4648, ← List.map_append,
      ← Groups.groups_append_of_length (by decide) hbits, ← List.flatMap_append,
      List.take_append_drop]
  have htake : (rfc4648 (bytes.take (5 * n))).length = 8 * n := by
    rw [length_rfc4648, hlen]
    omega
  rw [hsplit, List.take_left' htake]

theorem mem_alphabet_of_mem {bytes : Bytes} {b : Byte} (h : b ∈ rfc4648 bytes) : b ∈ alphabet := by
  obtain ⟨g, hg, rfl⟩ := List.mem_map.mp h
  obtain ⟨j, -, rfl⟩ := List.mem_map.mp hg
  have hfive : (Groups.group 5 false (bytes.flatMap byteBits) j).length = 5 :=
    Groups.length_group _ j
  have hv := value_lt hfive
  have hlen : alphabet.length = 32 := rfl
  rw [letter, ← getD_alphabet hv, List.getD_eq_getElem _ _ (by rwa [hlen])]
  exact List.getElem_mem _

/-- What is written is the encoding that is asked for, however much the accumulator loses. It takes
as many letters as the bits need groups, and no two strings of bytes are written alike. -/
theorem base32_exact :
    (∀ bytes, base32 bytes = rfc4648 bytes) ∧
      (∀ bytes, (base32 bytes).length = (8 * bytes.length + 4) / 5) ∧
      Function.Injective base32 := by
  have heq : base32 = rfc4648 := funext base32_eq
  refine ⟨base32_eq, ?_, ?_⟩
  · intro bytes
    rw [heq, length_rfc4648]
  · rw [heq]
    exact rfc4648_injective

example : base32 (text "foobar") = text "mzxw6ytboi" := by decide

end Manapds.Crypto
