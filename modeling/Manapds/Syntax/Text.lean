import Mathlib.Algebra.Ring.Nat
import Mathlib.Data.List.Lex
import Mathlib.Data.List.TakeWhile
import Mathlib.Order.Fin.Basic

/-!
# Bytes and text

Text is its UTF-8 bytes, so comparing and slicing are the bytewise operations of the source.
An ASCII character is its own byte.
-/

namespace Manapds

abbrev Byte := Fin 256

instance byteNeZero : NeZero 256 := ⟨by decide⟩

abbrev Bytes := List Byte

/-- A string, as the bytes it is stored in. -/
abbrev Str := List Byte

instance memStrDecidable (b : Byte) (s : Str) : Decidable (b ∈ s) :=
  List.instDecidableMemOfLawfulBEq b s

def ascii (c : Char) : Byte := Fin.ofNat 256 c.toNat

/-- A literal, as the bytes it is stored in. -/
def text (s : String) : Str := s.toByteArray.data.toList.map UInt8.toFin

namespace Byte

def isAsciiDigit (b : Byte) : Bool := ascii '0' ≤ b && b ≤ ascii '9'

def isAsciiLowercase (b : Byte) : Bool := ascii 'a' ≤ b && b ≤ ascii 'z'

def isAsciiUppercase (b : Byte) : Bool := ascii 'A' ≤ b && b ≤ ascii 'Z'

def isAsciiAlphabetic (b : Byte) : Bool := isAsciiLowercase b || isAsciiUppercase b

def isAsciiAlphanumeric (b : Byte) : Bool := isAsciiAlphabetic b || isAsciiDigit b

/-- A byte that continues a character rather than starting one. -/
def isContinuation (b : Byte) : Bool := 128 ≤ b.val && b.val < 192

end Byte

namespace Str

/-- `split` on one byte, which always yields at least one piece. -/
def split (sep : Byte) (s : Str) : List Str := s.splitOn sep

/-- `split_once` on one byte. -/
def splitOnce (sep : Byte) (s : Str) : Option (Str × Str) :=
  match s.dropWhile (· ≠ sep) with
  | [] => none
  | _ :: rest => some (s.takeWhile (· ≠ sep), rest)

/-- `rsplit_once` on one byte. -/
def rsplitOnce (sep : Byte) (s : Str) : Option (Str × Str) :=
  (splitOnce sep s.reverse).map fun halves => (halves.2.reverse, halves.1.reverse)

def stripPrefix (p s : Str) : Option Str := if p <+: s then some (s.drop p.length) else none

/-- `get(..n)`: a prefix that ends between characters. -/
def getTo (s : Str) (n : ℕ) : Option Str :=
  if n ≤ s.length ∧ (s[n]?.all fun b => !b.isContinuation) then some (s.take n) else none

/-- The ranges the bytes after a first byte are held to, where it may start a character. -/
def following (a : Byte) : Option (List (ℕ × ℕ)) :=
  if a.val < 0x80 then some []
  else if a.val < 0xC2 then none
  else if a.val < 0xE0 then some [(0x80, 0xBF)]
  else if a.val = 0xE0 then some [(0xA0, 0xBF), (0x80, 0xBF)]
  else if a.val = 0xED then some [(0x80, 0x9F), (0x80, 0xBF)]
  else if a.val < 0xF0 then some [(0x80, 0xBF), (0x80, 0xBF)]
  else if a.val = 0xF0 then some [(0x90, 0xBF), (0x80, 0xBF), (0x80, 0xBF)]
  else if a.val < 0xF4 then some [(0x80, 0xBF), (0x80, 0xBF), (0x80, 0xBF)]
  else if a.val = 0xF4 then some [(0x80, 0x8F), (0x80, 0xBF), (0x80, 0xBF)]
  else none

def isUtf8From : List (ℕ × ℕ) → Bytes → Bool
  | [], [] => true
  | _ :: _, [] => false
  | [], a :: rest => match following a with
    | none => false
    | some owed => isUtf8From owed rest
  | (low, high) :: owed, b :: rest => low ≤ b.val && b.val ≤ high && isUtf8From owed rest

def isUtf8 (s : Bytes) : Bool := isUtf8From [] s

theorem stripPrefix_append (p s : Str) : stripPrefix p (p ++ s) = some s := by
  rw [stripPrefix, if_pos (List.prefix_append p s), List.drop_left]

theorem eq_append_of_stripPrefix {p s rest : Str} (h : stripPrefix p s = some rest) :
    s = p ++ rest := by
  unfold stripPrefix at h
  split_ifs at h with hp
  obtain ⟨t, rfl⟩ := hp
  rw [List.drop_left] at h
  rw [Option.some.inj h]

theorem splitOnce_append {sep : Byte} {s : Str} (hs : sep ∉ s) (rest : Str) :
    splitOnce sep (s ++ sep :: rest) = some (s, rest) := by
  have hne : ∀ b ∈ s, decide (b ≠ sep) = true := by
    intro b hb
    exact decide_eq_true fun h => hs (h ▸ hb)
  rw [splitOnce, List.dropWhile_append_of_pos hne, List.takeWhile_append_of_pos hne]
  simp

theorem splitOnce_eq_none {sep : Byte} {s : Str} (hs : sep ∉ s) : splitOnce sep s = none := by
  have hdrop : s.dropWhile (· ≠ sep) = [] := by
    rw [List.dropWhile_eq_nil_iff]
    intro b hb
    exact decide_eq_true fun h => hs (h ▸ hb)
  rw [splitOnce, hdrop]

theorem eq_append_of_splitOnce {sep : Byte} {s first rest : Str}
    (h : splitOnce sep s = some (first, rest)) : s = first ++ sep :: rest := by
  have hjoin : s.takeWhile (· ≠ sep) ++ s.dropWhile (· ≠ sep) = s :=
    List.takeWhile_append_dropWhile
  have hhead := List.head?_dropWhile_not (fun b => decide (b ≠ sep)) s
  unfold splitOnce at h
  split at h
  · cases h
  · next b tail hdrop =>
    rw [hdrop] at hhead hjoin
    have hb : b = sep := not_not.mp (of_decide_eq_false hhead)
    obtain ⟨hfirst, hrest⟩ := Prod.mk.inj (Option.some.inj h)
    rw [hfirst, hrest, hb] at hjoin
    exact hjoin.symm

theorem not_mem_of_splitOnce {sep : Byte} {s first rest : Str}
    (h : splitOnce sep s = some (first, rest)) : sep ∉ first := by
  unfold splitOnce at h
  split at h
  · cases h
  · obtain ⟨rfl, -⟩ := Prod.mk.inj (Option.some.inj h)
    intro hmem
    have hne := List.mem_takeWhile_imp hmem
    simp at hne

/-- Split at the first separator there is. -/
theorem splitOnce_eq_some {sep : Byte} {s first rest : Str} :
    splitOnce sep s = some (first, rest) ↔ s = first ++ sep :: rest ∧ sep ∉ first := by
  constructor
  · intro h
    exact ⟨eq_append_of_splitOnce h, not_mem_of_splitOnce h⟩
  · rintro ⟨rfl, hfirst⟩
    exact splitOnce_append hfirst rest

/-- Split at the last separator there is. -/
theorem rsplitOnce_eq_some {sep : Byte} {s first rest : Str} :
    rsplitOnce sep s = some (first, rest) ↔ s = first ++ sep :: rest ∧ sep ∉ rest := by
  have hsplit := @splitOnce_eq_some sep s.reverse rest.reverse first.reverse
  have hback : s.reverse = rest.reverse ++ sep :: first.reverse ↔ s = first ++ sep :: rest := by
    rw [List.reverse_eq_iff]
    simp
  rw [hback, List.mem_reverse] at hsplit
  rw [← hsplit, rsplitOnce]
  constructor
  · intro h
    obtain ⟨halves, hhalves, h⟩ := Option.map_eq_some_iff.mp h
    obtain ⟨hfirst, hrest⟩ := Prod.mk.inj h
    rw [hhalves, ← hfirst, ← hrest, List.reverse_reverse, List.reverse_reverse]
  · intro h
    rw [h, Option.map_some, List.reverse_reverse, List.reverse_reverse]

theorem isUtf8_of_ascii {s : Str} (h : ∀ b ∈ s, b.val < 128) : isUtf8 s = true := by
  induction s with
  | nil => rfl
  | cons a s ih =>
    have ha : following a = some [] := if_pos (h a List.mem_cons_self)
    rw [isUtf8, isUtf8From, ha]
    exact ih (fun b hb => h b (List.mem_cons_of_mem a hb))

/-- Text that is all ASCII is cut anywhere up to its end. -/
theorem getTo_of_ascii {s : Str} (h : ∀ b ∈ s, b.val < 128) {n : ℕ} (hn : n ≤ s.length) :
    s.getTo n = some (s.take n) := by
  rw [getTo, if_pos]
  refine ⟨hn, ?_⟩
  cases hb : s[n]? with
  | none => rfl
  | some b =>
    have hlt := h b (List.mem_of_getElem? hb)
    simp [Byte.isContinuation]
    omega

end Str

end Manapds
