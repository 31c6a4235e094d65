import Manapds.Xrpc.Address

/-!
# Who a request is counted against

A proxy in front of the server appends the address it was called from to `X-Forwarded-For`, so the
last address there that is not itself a proxy's is the caller's. A line of the header with a byte in
it that is not visible ASCII is not read, whoever wrote the rest of it.
-/

namespace Manapds

namespace Limit

def forwardedFor : Str := text "x-forwarded-for"

def bypass : Str := text "x-ratelimit-bypass"

/-- A byte a header value may hold. -/
def isHeaderByte (b : Byte) : Bool := (32 ≤ b.val && b.val ≠ 127) || b.val = 9

structure HeaderValue where
  bytes : Bytes
  valid : ∀ b ∈ bytes, isHeaderByte b = true

def isVisibleAscii (b : Byte) : Bool := (32 ≤ b.val && b.val < 127) || b.val = 9

/-- `http`, where it reads a header value as text. -/
structure Http where
  toStr : HeaderValue → Option Str

/-- A value is read where all of it is visible ASCII, and as it is. -/
structure Http.Lawful (http : Http) : Prop where
  toStr_eq_some {value : HeaderValue} {s : Str} :
    http.toStr value = some s ↔ (∀ b ∈ value.bytes, isVisibleAscii b = true) ∧ value.bytes = s

/-- Header lines in the order they came, under lower-case names. -/
abbrev HeaderMap := List (Str × HeaderValue)

namespace HeaderMap

def getAll (headers : HeaderMap) (name : Str) : List HeaderValue :=
  (headers.filter fun line => line.1 = name).map Prod.snd

def get (headers : HeaderMap) (name : Str) : Option HeaderValue := (headers.getAll name).head?

end HeaderMap

def isWhitespace (b : Byte) : Bool := (9 ≤ b.val && b.val ≤ 13) || b.val = 32

/-- `trim`, of ASCII text. -/
def trim (s : Str) : Str := ((s.dropWhile isWhitespace).reverse.dropWhile isWhitespace).reverse

/-- The one spelling of an address. -/
def canonical : IpAddr → IpAddr
  | .v6 address => (address.toIpv4Mapped).elim (.v6 address) .v4
  | .v4 address => .v4 address

def uniqueLocal (address : Ipv6Addr) : Bool := address.octet 0 &&& 0xfe = 0xfc

def linkLocal (address : Ipv6Addr) : Bool :=
  address.octet 0 = 0xfe && address.octet 1 &&& 0xc0 = 0x80

/-- An address no packet from the internet carries as its source. -/
def internal : IpAddr → Bool
  | .v4 address =>
    address.isLoopback || address.isPrivate || address.isLinkLocal || address.isUnspecified
      -- Carrier-grade NAT.
      || ((address.octets 0).val = 100 && (address.octets 1).val &&& 0xc0 = 64)
  | .v6 address =>
    address.isLoopback || address.isUnspecified || uniqueLocal address || linkLocal address

/-- The addresses a header value lists, those that can be read. -/
def listed (http : Http) (value : HeaderValue) : List IpAddr :=
  match http.toStr value with
  | none => []
  | some s => ((s.split (ascii ',')).filterMap fun part => IpAddr.parse (trim part)).map canonical

/-- Who to count a request against. -/
def caller (http : Http) (peer : IpAddr) (headers : HeaderMap) : IpAddr :=
  let peer := canonical peer
  if internal peer = false then peer
  else
    (((headers.getAll forwardedFor).flatMap (listed http)).reverse.find? fun address =>
      !internal address).getD peer

/-- Which budget a caller spends from: an IPv6 caller is counted with its `/64`. -/
def budget : IpAddr → Str
  | .v4 address => address.display
  | .v6 address =>
    Ipv6Addr.display ⟨fun i => if i < 4 then address.segments i else 0⟩ ++ text "/64"

/-- Compares two byte strings without saying where they first differ. -/
def same (left right : Bytes) : Bool :=
  left.length = right.length &&
    (left.zip right).foldl (fun difference (l, r) => difference ||| (l.val ^^^ r.val)) 0 = 0

/-- Who is let past the budgets. -/
structure Limits where
  bypassKey : Option Bytes
  bypassIps : List IpAddr

def Limits.bypassed (limits : Limits) (caller : IpAddr) (headers : HeaderMap) : Bool :=
  limits.bypassIps.contains caller ||
    match limits.bypassKey, headers.get bypass with
    | some key, some offered => same offered.bytes key
    | _, _ => false

/-- A value once each of some addresses has been appended to it. -/
def appended (sent : Bytes) (seen : List Str) : Bytes := sent ++ seen.flatMap (text ", " ++ ·)

/-! ## One value -/

variable {http : Http} {peer address : IpAddr} {headers : HeaderMap} {value : HeaderValue} {sent : Bytes}
  {written : Str} {seen : List Str}

theorem isVisibleAscii_of_isAddressByte {b : Byte} (h : IpAddr.isAddressByte b = true) :
    isVisibleAscii b = true ∧ isWhitespace b = false ∧ b ≠ ascii ',' := by
  revert b
  decide +kernel

theorem dropWhile_of_forall {s : Str} (h : ∀ b ∈ s, isWhitespace b = false) :
    s.dropWhile isWhitespace = s := by
  cases s with
  | nil => rfl
  | cons b s => rw [List.dropWhile_cons_of_neg (by simp [h b List.mem_cons_self])]

theorem trim_address (h : ∀ b ∈ written, IpAddr.isAddressByte b = true) :
    trim (ascii ' ' :: written) = written := by
  have hplain : ∀ b ∈ written, isWhitespace b = false := fun b hb =>
    (isVisibleAscii_of_isAddressByte (h b hb)).2.1
  have hspace : isWhitespace (ascii ' ') = true := by decide
  unfold trim
  rw [List.dropWhile_cons_of_pos hspace, dropWhile_of_forall hplain,
    dropWhile_of_forall fun b hb => hplain b (List.mem_reverse.mp hb), List.reverse_reverse]

theorem split_appended (sent : Bytes) (h : ∀ s ∈ seen, ∀ b ∈ s, IpAddr.isAddressByte b = true) :
    Str.split (ascii ',') (appended sent seen) =
      Str.split (ascii ',') sent ++ seen.map (ascii ' ' :: ·) := by
  induction seen generalizing sent with
  | nil => simp [appended]
  | cons written seen ih =>
    have hmember : ascii ',' ∉ ascii ' ' :: written := by
      intro hm
      rcases List.mem_cons.mp hm with heq | hm
      · exact absurd heq (by decide)
      · exact (isVisibleAscii_of_isAddressByte (h written List.mem_cons_self _ hm)).2.2 rfl
    have hsplit : appended sent (written :: seen) =
        appended (sent ++ ascii ',' :: (ascii ' ' :: written)) seen := by
      simp only [appended, List.flatMap_cons, List.append_assoc]
      rfl
    rw [hsplit, ih _ fun s hs => h s (List.mem_cons_of_mem written hs)]
    unfold Str.split
    rw [List.splitOn_append_cons_self, List.splitOn_eq_singleton hmember, List.append_assoc]
    rfl

theorem toStr_appended (hhttp : http.Lawful) (h : value.bytes = appended sent seen)
    (hseen : ∀ s ∈ seen, ∀ b ∈ s, IpAddr.isAddressByte b = true) :
    (http.toStr value = some value.bytes ↔ ∀ b ∈ sent, b.val < 128) ∧
      (http.toStr value = none ↔ ¬∀ b ∈ sent, b.val < 128) := by
  have hvisible : ∀ b ∈ sent, isVisibleAscii b = true ↔ b.val < 128 := by
    intro b hb
    have hvalid := value.valid b (by rw [h]; exact List.mem_append_left _ hb)
    simp only [isHeaderByte, isVisibleAscii, Bool.or_eq_true, Bool.and_eq_true,
      decide_eq_true_eq, ne_eq, decide_not, Bool.not_eq_true', decide_eq_false_iff_not] at hvalid ⊢
    omega
  have hcomma : ∀ b ∈ text ", ", isVisibleAscii b = true := by decide +kernel
  have hmore : ∀ b ∈ seen.flatMap (text ", " ++ ·), isVisibleAscii b = true := by
    intro b hb
    obtain ⟨s, hs, hb⟩ := List.mem_flatMap.mp hb
    rcases List.mem_append.mp hb with hb | hb
    · exact hcomma b hb
    · exact (isVisibleAscii_of_isAddressByte (hseen s hs b hb)).1
  have hall : (∀ b ∈ value.bytes, isVisibleAscii b = true) ↔ ∀ b ∈ sent, b.val < 128 := by
    rw [h]
    constructor
    · intro hbytes b hb
      exact (hvisible b hb).mp (hbytes b (List.mem_append_left _ hb))
    · intro hsent b hb
      rcases List.mem_append.mp hb with hb | hb
      · exact (hvisible b hb).mpr (hsent b hb)
      · exact hmore b hb
  rw [← hall]
  constructor
  · rw [hhttp.toStr_eq_some, and_iff_left rfl]
  · rw [Option.eq_none_iff_forall_ne_some]
    constructor
    · intro hnone hbytes
      exact hnone _ (hhttp.toStr_eq_some.mpr ⟨hbytes, rfl⟩)
    · intro hbytes s hs
      exact hbytes (hhttp.toStr_eq_some.mp hs).1

theorem listed_appended (hhttp : http.Lawful) (h : value.bytes = appended sent seen)
    (hsent : ∀ b ∈ sent, b.val < 128)
    (hseen : ∀ s ∈ seen, ∀ b ∈ s, IpAddr.isAddressByte b = true) : ∃ earlier,
      listed http value = earlier ++ (seen.filterMap IpAddr.parse).map canonical := by
  have htrim : seen.filterMap (fun s => IpAddr.parse (trim (ascii ' ' :: s))) =
      seen.filterMap IpAddr.parse :=
    List.filterMap_congr fun s hs => by rw [trim_address (hseen s hs)]
  unfold listed
  rw [((toStr_appended hhttp h hseen).1).mpr hsent, h]
  dsimp only
  rw [split_appended sent hseen, List.filterMap_append, List.map_append, List.filterMap_map]
  exact ⟨_, congrArg (_ ++ List.map canonical ·) htrim⟩

theorem find_reverse_append {p : IpAddr → Bool} {before after : List IpAddr} (h : p address = true)
    (hafter : ∀ a ∈ after, p a = false) :
    (before ++ address :: after).reverse.find? p = some address := by
  have hnone : after.reverse.find? p = none := by
    rw [List.find?_eq_none]
    intro a ha
    simp [hafter a (List.mem_reverse.mp ha)]
  rw [List.reverse_append, List.reverse_cons, List.append_assoc, List.find?_append, hnone]
  simp [h]

/-! ## Who it comes to -/

/-- What is appended by the proxies a request came through: where the first of them was called
from, and then their own addresses. -/
structure Relayed (written : Str) (address : IpAddr) (inner : List Str) : Prop where
  parse : IpAddr.parse written = some address
  outside : internal (canonical address) = false
  inner : ∀ s ∈ inner, ∃ a, IpAddr.parse s = some a ∧ internal (canonical a) = true

variable {inner : List Str}

theorem Relayed.isAddressByte (h : Relayed written address inner) :
    ∀ s ∈ written :: inner, ∀ b ∈ s, IpAddr.isAddressByte b = true := by
  intro s hs
  rcases List.mem_cons.mp hs with rfl | hs
  · exact IpAddr.isAddressByte_of_parse h.parse
  · obtain ⟨a, ha, -⟩ := h.inner s hs
    exact IpAddr.isAddressByte_of_parse ha

theorem caller_of_outside (headers : HeaderMap) (h : internal (canonical peer) = false) :
    caller http peer headers = canonical peer := if_pos h

theorem caller_of_relayed (hhttp : http.Lawful) (h : Relayed written address inner)
    (hpeer : internal (canonical peer) = true) (hsent : ∀ b ∈ sent, b.val < 128)
    (hvalue : value.bytes = appended sent (written :: inner)) {earlier : List HeaderValue}
    (hheaders : headers.getAll forwardedFor = earlier ++ [value]) :
    caller http peer headers = canonical address := by
  obtain ⟨before, hlisted⟩ := listed_appended hhttp hvalue hsent h.isAddressByte
  have hinner : ∀ a ∈ (inner.filterMap IpAddr.parse).map canonical, (!internal a) = false := by
    intro a ha
    obtain ⟨a', ha', rfl⟩ := List.mem_map.mp ha
    obtain ⟨s, hs, hparse⟩ := List.mem_filterMap.mp ha'
    obtain ⟨a'', ha'', hinternal⟩ := h.inner s hs
    rw [hparse] at ha''
    obtain rfl := Option.some.inj ha''
    simp [hinternal]
  unfold caller
  dsimp only
  rw [if_neg (by simp [hpeer]), hheaders, List.flatMap_append, List.flatMap_singleton, hlisted,
    List.filterMap_cons_some h.parse, List.map_cons, ← List.append_assoc,
    find_reverse_append (by simp [h.outside]) hinner]
  rfl

/-- A line that is not visible ASCII leaves the peer itself. -/
theorem caller_of_unread (hhttp : http.Lawful) (h : Relayed written address inner)
    (hpeer : internal (canonical peer) = true) (hsent : ¬∀ b ∈ sent, b.val < 128)
    (hvalue : value.bytes = appended sent (written :: inner))
    (hheaders : headers.getAll forwardedFor = [value]) :
    caller http peer headers = canonical peer := by
  have hlisted : listed http value = [] := by
    unfold listed
    rw [((toStr_appended hhttp hvalue h.isAddressByte).2).mpr hsent]
  unfold caller
  dsimp only
  rw [if_neg (by simp [hpeer]), hheaders, List.flatMap_singleton, hlisted]
  rfl

/-- What is decided of a request by who it is counted against. -/
structure CountedAs (http : Http) (limits : Limits) (peer : IpAddr) (headers : HeaderMap)
    (address : IpAddr) : Prop where
  caller : caller http peer headers = address
  bypassed : limits.bypassed (Limit.caller http peer headers) headers =
    limits.bypassed address headers
  budget : budget (Limit.caller http peer headers) = budget address

theorem countedAs_iff (limits : Limits) :
    CountedAs http limits peer headers address ↔ caller http peer headers = address :=
  ⟨fun h => h.caller, fun h => ⟨h, by rw [h], by rw [h]⟩⟩

/-- A caller straight off the internet is itself. One behind a proxy is who the proxy says it is,
whatever header lines it sends before, exactly where what it sent in the line the proxy appends to is
ASCII. -/
theorem caller_forwarded_iff (http : Http) (hhttp : http.Lawful) (limits : Limits)
    (peer : IpAddr) :
    (internal (canonical peer) = false →
      ∀ headers, CountedAs http limits peer headers (canonical peer)) ∧
    (internal (canonical peer) = true → ∀ sent value written address inner,
      Relayed written address inner → value.bytes = appended sent (written :: inner) →
        ((∀ headers earlier, HeaderMap.getAll headers forwardedFor = earlier ++ [value] →
          CountedAs http limits peer headers (canonical address)) ↔ ∀ b ∈ sent, b.val < 128)) := by
  constructor
  · intro hpeer headers
    exact (countedAs_iff limits).mpr (caller_of_outside headers hpeer)
  · intro hpeer sent value written address inner hrelayed hvalue
    constructor
    · intro hcounted
      by_contra hsent
      have hheaders : HeaderMap.getAll [(forwardedFor, value)] forwardedFor = [value] := by
        simp [HeaderMap.getAll]
      have hpeer' := caller_of_unread hhttp hrelayed hpeer hsent hvalue hheaders
      rw [(hcounted _ [] hheaders).caller] at hpeer'
      have houtside := hrelayed.outside
      rw [hpeer', hpeer] at houtside
      cases houtside
    · intro hsent headers earlier hheaders
      exact (countedAs_iff limits).mpr (caller_of_relayed hhttp hrelayed hpeer hsent
        hvalue hheaders)

def visibleAscii : Http where
  toStr value := if value.bytes.all isVisibleAscii then some value.bytes else none

theorem visibleAscii_lawful : visibleAscii.Lawful where
  toStr_eq_some := by
    intro value s
    change (if value.bytes.all isVisibleAscii then some value.bytes else none) = some s ↔ _
    rw [Option.ite_none_right_eq_some, Option.some_inj, List.all_eq_true]

def loopback : IpAddr := .v4 (Ipv4Addr.ofList [127, 0, 0, 1])

def outsider : IpAddr := .v4 (Ipv4Addr.ofList [9, 9, 9, 9])

def victim : IpAddr := .v4 (Ipv4Addr.ofList [1, 1, 1, 1])

theorem relayed_outsider : Relayed (text "9.9.9.9") outsider [text "10.0.0.7"] where
  parse := by decide
  outside := by decide
  inner := by
    intro s hs
    obtain rfl := List.mem_singleton.mp hs
    exact ⟨.v4 (Ipv4Addr.ofList [10, 0, 0, 7]), by decide, by decide⟩

theorem isHeaderByte_chain : ∀ b ∈ text "1.1.1.1, 9.9.9.9, 10.0.0.7", isHeaderByte b = true := by
  decide +kernel

def chain : HeaderValue := ⟨text "1.1.1.1, 9.9.9.9, 10.0.0.7", isHeaderByte_chain⟩

/-- A chain of proxies is walked back to the first one outside. -/
theorem caller_forwarded_chain : internal (canonical loopback) = true ∧
    CountedAs visibleAscii ⟨none, []⟩ loopback [(forwardedFor, chain)] outsider := by
  have hpeer : internal (canonical loopback) = true := by decide
  have hsent : ∀ b ∈ text "1.1.1.1", b.val < 128 := by decide +kernel
  have hexact := (caller_forwarded_iff visibleAscii visibleAscii_lawful ⟨none, []⟩ loopback).2 hpeer
    (text "1.1.1.1") chain _ _ _ relayed_outsider (by decide)
  exact ⟨hpeer, hexact.mpr hsent _ [] rfl⟩

theorem isHeaderByte_named : ∀ b ∈ text "1.1.1.1", isHeaderByte b = true := by decide +kernel

def named : HeaderValue := ⟨text "1.1.1.1", isHeaderByte_named⟩

theorem isHeaderByte_forged : ∀ b ∈ appended [255] [text "9.9.9.9"], isHeaderByte b = true := by
  decide +kernel

def forged : HeaderValue := ⟨appended [255] [text "9.9.9.9"], isHeaderByte_forged⟩

/-- One byte past ASCII, and the caller is who an earlier line of its own says, or the proxy. -/
theorem caller_forged : IpAddr.parse (text "9.9.9.9") = some outsider ∧
    internal (canonical loopback) = true ∧ internal (canonical outsider) = false ∧
    forged.bytes = appended [255] [text "9.9.9.9"] ∧
    caller visibleAscii loopback [(forwardedFor, named), (forwardedFor, forged)] = victim ∧
    caller visibleAscii loopback [(forwardedFor, forged)] = loopback ∧
    canonical outsider ≠ victim ∧ canonical outsider ≠ loopback := by
  decide

end Limit

end Manapds
