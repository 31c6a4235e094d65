import Mathlib.Data.Nat.Basic

/-!
# Times as the databases hold them

A time is a number of nanoseconds; its `stamp` is text that sorts as time to the millisecond, so a
column of them is a column of milliseconds.
-/

namespace Manapds

abbrev Timestamp := ℕ

def stamp (time : Timestamp) : ℕ := time / 1000000

/-- The time a stored stamp parses as. -/
def Timestamp.parse (stamp : ℕ) : Timestamp := stamp * 1000000

theorem stamp_mono {a b : Timestamp} (h : a ≤ b) : stamp a ≤ stamp b := Nat.div_le_div_right h

theorem stamp_parse (text : ℕ) : stamp (Timestamp.parse text) = text :=
  Nat.mul_div_cancel text (by decide)

/-- A stamp is past once what it parses as is, and not before. -/
theorem le_stamp_iff {text : ℕ} {now : Timestamp} :
    text ≤ stamp now ↔ Timestamp.parse text ≤ now := Nat.le_div_iff_mul_le (by decide)

end Manapds
