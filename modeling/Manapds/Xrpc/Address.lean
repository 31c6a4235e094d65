import Mathlib.Data.Fintype.Pi
import Mathlib.Data.List.TakeWhile
import Manapds.Lib.Numeral
import Manapds.Syntax.Text

/-!
# Addresses

The textual forms the standard library reads and prints. Reading goes from the left and keeps what
is left over, and an address is text with nothing left over. Every byte of one is a hexadecimal
digit, a colon or a full stop.
-/

namespace Manapds

instance octetNeZero : NeZero 4 := ⟨by decide⟩

instance segmentNeZero : NeZero 8 := ⟨by decide⟩

instance wordNeZero : NeZero 65536 := ⟨by decide⟩

structure Ipv4Addr where
  octets : Fin 4 → Byte
deriving DecidableEq

structure Ipv6Addr where
  segments : Fin 8 → Fin 65536
deriving DecidableEq

inductive IpAddr where
  | v4 (address : Ipv4Addr)
  | v6 (address : Ipv6Addr)
deriving DecidableEq

namespace Ipv4Addr

def ofList (octets : List ℕ) : Ipv4Addr := ⟨fun i => Fin.ofNat 256 (octets.getD i 0)⟩

def isLoopback (address : Ipv4Addr) : Bool := address.octets 0 = 127

def isPrivate (address : Ipv4Addr) : Bool :=
  address.octets 0 = 10 ∨
    (address.octets 0 = 172 ∧ 16 ≤ address.octets 1 ∧ address.octets 1 ≤ 31) ∨
    (address.octets 0 = 192 ∧ address.octets 1 = 168)

def isLinkLocal (address : Ipv4Addr) : Bool := address.octets 0 = 169 ∧ address.octets 1 = 254

def isUnspecified (address : Ipv4Addr) : Bool := ∀ i, address.octets i = 0

def display (address : Ipv4Addr) : Str :=
  [ascii '.'].intercalate (List.ofFn fun i => text (toString (address.octets i).val))

end Ipv4Addr

namespace Ipv6Addr

def ofList (segments : List ℕ) : Ipv6Addr := ⟨fun i => Fin.ofNat 65536 (segments.getD i 0)⟩

def octets (address : Ipv6Addr) : List Byte :=
  (List.ofFn address.segments).flatMap fun segment =>
    [Fin.ofNat 256 (segment.val / 256), Fin.ofNat 256 segment.val]

def octet (address : Ipv6Addr) (i : ℕ) : ℕ := (address.octets.getD i 0).val

def isLoopback (address : Ipv6Addr) : Bool := address = ofList [0, 0, 0, 0, 0, 0, 0, 1]

def isUnspecified (address : Ipv6Addr) : Bool := address = ofList []

def toIpv4Mapped (address : Ipv6Addr) : Option Ipv4Addr :=
  if (∀ i : Fin 8, i < 5 → address.segments i = 0) ∧ address.segments 5 = 65535 then
    some (Ipv4Addr.ofList ((address.octets.drop 12).map Fin.val))
  else none

/-- Lower-case hexadecimal, with no zero in front. -/
def hex (segment : Fin 65536) : Str := text (String.ofList (Nat.toDigits 16 segment.val))

def fmtSubslice (chunk : List (Fin 65536)) : Str := [ascii ':'].intercalate (chunk.map hex)

structure Span where
  start : ℕ
  len : ℕ

/-- The first of the longest runs of zeros. -/
def zeroes (segments : List (Fin 65536)) : Span :=
  (segments.zipIdx.foldl (fun (longest, current) (segment, i) =>
    if segment = 0 then
      let current : Span := ⟨if current.len = 0 then i else current.start, current.len + 1⟩
      (if longest.len < current.len then current else longest, current)
    else (longest, ⟨0, 0⟩)) ((⟨0, 0⟩, ⟨0, 0⟩) : Span × Span)).1

def display (address : Ipv6Addr) : Str :=
  match address.toIpv4Mapped with
  | some mapped => text "::ffff:" ++ mapped.display
  | none =>
    let segments := List.ofFn address.segments
    let run := zeroes segments
    if 1 < run.len then
      fmtSubslice (segments.take run.start) ++ text "::" ++
        fmtSubslice (segments.drop (run.start + run.len))
    else fmtSubslice segments

end Ipv6Addr

namespace IpAddr

/-! ## Reading -/

/-- What a byte is worth as a digit of the largest radix there is. -/
def digit (b : Byte) : Option ℕ :=
  if b.isAsciiDigit then some (b.val - (ascii '0').val)
  else if b.isAsciiLowercase then some (b.val - (ascii 'a').val + 10)
  else if b.isAsciiUppercase then some (b.val - (ascii 'A').val + 10)
  else none

def toDigit (radix : ℕ) (b : Byte) : Option ℕ := (digit b).filter (· < radix)

/-- All the digits at the front, where there are some and not too many. -/
def readNumber (radix maxDigits bound : ℕ) (allowZeroPrefix : Bool) (s : Str) : Option (ℕ × Str) :=
  let digits := s.takeWhile fun b => (toDigit radix b).isSome
  let number := Numeral.value radix (fun b => (toDigit radix b).getD 0) digits
  if maxDigits < digits.length ∨ digits = [] then none
  else if !allowZeroPrefix ∧ s.head? = some (ascii '0') ∧ 1 < digits.length then none
  else if number < bound then some (number, s.dropWhile fun b => (toDigit radix b).isSome)
  else none

def readGivenChar (c : Byte) : Str → Option Str
  | [] => none
  | b :: rest => if b = c then some rest else none

def readOctet (s : Str) : Option (ℕ × Str) := readNumber 10 3 256 false s

def readIpv4Addr (s : Str) : Option (Ipv4Addr × Str) := do
  let (a, s) ← readOctet s
  let (b, s) ← readOctet (← readGivenChar (ascii '.') s)
  let (c, s) ← readOctet (← readGivenChar (ascii '.') s)
  let (d, s) ← readOctet (← readGivenChar (ascii '.') s)
  return (Ipv4Addr.ofList [a, b, c, d], s)

/-- Up to so many groups, each but the first after a colon, and whether the last two of them were
written as an IPv4 address. -/
def readGroups (first : Bool) : ℕ → Str → List ℕ × Bool × Str
  | 0, s => ([], false, s)
  | left + 1, s =>
    let separated := if first then some s else readGivenChar (ascii ':') s
    -- An embedded address takes two groups.
    match if 0 < left then separated.bind readIpv4Addr else none with
    | some (embedded, rest) =>
      ([(embedded.octets 0).val * 256 + (embedded.octets 1).val,
        (embedded.octets 2).val * 256 + (embedded.octets 3).val], true, rest)
    | none =>
      match separated.bind (readNumber 16 4 65536 true) with
      | some (group, rest) =>
        let (groups, endsV4, rest) := readGroups false left rest
        (group :: groups, endsV4, rest)
      | none => ([], false, s)

def readIpv6Addr (s : Str) : Option (Ipv6Addr × Str) :=
  let (head, headV4, s) := readGroups true 8 s
  if head.length = 8 then some (Ipv6Addr.ofList head, s)
  else if headV4 then none
  else do
    let s ← readGivenChar (ascii ':') s
    let s ← readGivenChar (ascii ':') s
    -- The two colons stand for one group at least.
    let (tail, _, s) := readGroups true (8 - (head.length + 1)) s
    return (Ipv6Addr.ofList (head ++ List.replicate (8 - head.length - tail.length) 0 ++ tail), s)

def readIpAddr (s : Str) : Option (IpAddr × Str) :=
  match readIpv4Addr s with
  | some (address, rest) => some (v4 address, rest)
  | none => (readIpv6Addr s).map fun (address, rest) => (v6 address, rest)

def parse (s : Str) : Option IpAddr :=
  match readIpAddr s with
  | some (address, []) => some address
  | _ => none

example : parse (text "::ffff:1.2.3.4") = some (v6 (Ipv6Addr.ofList [0, 0, 0, 0, 0, 65535, 258, 772])) := by
  decide

example : [parse (text "1.2.3.04"), parse (text "1.2.3"), parse (text "1::2::3"), parse (text " ::1")] =
    [none, none, none, none] := by decide

/-! ## What is read -/

/-- A byte that stands in some address. -/
def isAddressByte (b : Byte) : Bool := (toDigit 16 b).isSome || b == ascii ':' || b == ascii '.'

/-- What is left once some bytes of an address have been read. -/
def Leaves (s rest : Str) : Prop := ∃ read, s = read ++ rest ∧ ∀ b ∈ read, isAddressByte b = true

theorem Leaves.refl (s : Str) : Leaves s s := ⟨[], rfl, by simp⟩

theorem Leaves.trans {s t u : Str} (h : Leaves s t) (h' : Leaves t u) : Leaves s u := by
  obtain ⟨read, rfl, hread⟩ := h
  obtain ⟨read', rfl, hread'⟩ := h'
  refine ⟨read ++ read', by simp, fun b hb => ?_⟩
  rcases List.mem_append.mp hb with hb | hb
  · exact hread b hb
  · exact hread' b hb

theorem toDigit_le {radix : ℕ} (h : radix ≤ 16) {b : Byte} (hb : (toDigit radix b).isSome = true) :
    (toDigit 16 b).isSome = true := by
  unfold toDigit at hb ⊢
  cases hdigit : digit b with
  | none => simp [hdigit] at hb
  | some d =>
    have hlt : d < radix := by simpa [hdigit, Option.filter] using hb
    simp [Option.filter, lt_of_lt_of_le hlt h]

theorem readNumber_leaves {radix maxDigits bound n : ℕ} {zero : Bool} {s rest : Str}
    (hradix : radix ≤ 16) (h : readNumber radix maxDigits bound zero s = some (n, rest)) :
    Leaves s rest := by
  unfold readNumber at h
  dsimp only at h
  split_ifs at h
  obtain ⟨-, rfl⟩ := Prod.mk.inj (Option.some.inj h)
  refine ⟨_, (List.takeWhile_append_dropWhile (p := fun b => (toDigit radix b).isSome)).symm, ?_⟩
  intro b hb
  have hsome := List.mem_takeWhile_imp (p := fun b => (toDigit radix b).isSome) hb
  have hdigit := toDigit_le hradix hsome
  simp [isAddressByte, hdigit]

theorem readGivenChar_leaves {c : Byte} {s rest : Str} (hc : isAddressByte c = true)
    (h : readGivenChar c s = some rest) : Leaves s rest := by
  cases s with
  | nil => cases h
  | cons b s =>
    rw [readGivenChar] at h
    split_ifs at h with hb
    obtain rfl := Option.some.inj h
    exact ⟨[b], rfl, by simpa [hb] using hc⟩

theorem isAddressByte_stop : isAddressByte (ascii '.') = true := by decide

theorem isAddressByte_colon : isAddressByte (ascii ':') = true := by decide

theorem readOctet_leaves {n : ℕ} {s rest : Str} (h : readOctet s = some (n, rest)) :
    Leaves s rest := readNumber_leaves (by omega) h

theorem readIpv4Addr_leaves {address : Ipv4Addr} {s rest : Str}
    (h : readIpv4Addr s = some (address, rest)) : Leaves s rest := by
  simp only [readIpv4Addr, Option.bind_eq_bind, Option.bind_eq_some_iff, Option.pure_def,
    Option.some.injEq, Prod.mk.injEq, Prod.exists] at h
  obtain ⟨a, s₁, ha, t₁, hs₁, b, s₂, hb, t₂, hs₂, c, s₃, hc, t₃, hs₃, d, s₄, hd, -, rfl⟩ := h
  have hfirst := (readOctet_leaves ha).trans (readGivenChar_leaves isAddressByte_stop hs₁)
  have hsecond := (readOctet_leaves hb).trans (readGivenChar_leaves isAddressByte_stop hs₂)
  have hthird := (readOctet_leaves hc).trans (readGivenChar_leaves isAddressByte_stop hs₃)
  exact ((hfirst.trans hsecond).trans hthird).trans (readOctet_leaves hd)

theorem readGroups_leaves (first : Bool) (left : ℕ) (s : Str) :
    Leaves s (readGroups first left s).2.2 := by
  induction left generalizing first s with
  | zero => exact Leaves.refl s
  | succ left ih =>
    have hseparated : ∀ t, (if first then some s else readGivenChar (ascii ':') s) = some t →
        Leaves s t := by
      intro t ht
      split_ifs at ht
      · obtain rfl := Option.some.inj ht
        exact Leaves.refl s
      · exact readGivenChar_leaves isAddressByte_colon ht
    rw [readGroups]
    generalize (if first then some s else readGivenChar (ascii ':') s) = separated at hseparated
    split
    · next v4 rest hv4 =>
      split_ifs at hv4
      obtain ⟨t, ht, hread⟩ := Option.bind_eq_some_iff.mp hv4
      exact (hseparated t ht).trans (readIpv4Addr_leaves hread)
    · split
      · next group rest hgroup =>
        obtain ⟨t, ht, hread⟩ := Option.bind_eq_some_iff.mp hgroup
        exact ((hseparated t ht).trans (readNumber_leaves le_rfl hread)).trans (ih false rest)
      · exact Leaves.refl s

theorem readIpv6Addr_leaves {address : Ipv6Addr} {s rest : Str}
    (h : readIpv6Addr s = some (address, rest)) : Leaves s rest := by
  have hhead := readGroups_leaves true 8 s
  unfold readIpv6Addr at h
  generalize readGroups true 8 s = head at h hhead
  obtain ⟨head, headV4, t⟩ := head
  dsimp only at h hhead
  split_ifs at h with hfull hv4
  · obtain ⟨-, rfl⟩ := Prod.mk.inj (Option.some.inj h)
    exact hhead
  · simp only [Option.bind_eq_bind, Option.bind_eq_some_iff, Option.pure_def,
      Option.some.injEq, Prod.mk.injEq] at h
    obtain ⟨u, hu, v, hv, -, rfl⟩ := h
    have hcolons := (readGivenChar_leaves isAddressByte_colon hu).trans
      (readGivenChar_leaves isAddressByte_colon hv)
    exact (hhead.trans hcolons).trans (readGroups_leaves _ _ _)

/-- An address is made of nothing else. -/
theorem isAddressByte_of_parse {s : Str} {address : IpAddr} (h : parse s = some address) :
    ∀ b ∈ s, isAddressByte b = true := by
  have hleaves : Leaves s [] := by
    unfold parse readIpAddr at h
    cases hv4 : readIpv4Addr s with
    | some read =>
      obtain ⟨v4, rest⟩ := read
      rw [hv4] at h
      cases rest with
      | nil => exact readIpv4Addr_leaves hv4
      | cons b rest => cases h
    | none =>
      rw [hv4] at h
      cases hv6 : readIpv6Addr s with
      | some read =>
        obtain ⟨v6, rest⟩ := read
        rw [hv6] at h
        cases rest with
        | nil => exact readIpv6Addr_leaves hv6
        | cons b rest => cases h
      | none =>
        rw [hv6] at h
        cases h
  obtain ⟨read, rfl, hread⟩ := hleaves
  simpa using hread

end IpAddr

end Manapds
