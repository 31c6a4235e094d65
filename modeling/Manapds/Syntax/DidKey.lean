import Manapds.Lib.Numeral
import Manapds.Syntax.Text

/-!
# Keys as they are written down

A public key is written as a `did:key`: what its curve is, and the point on it compressed. Only the
low half of the curve counts in a signature, so that one that verifies cannot be turned into
another. The curves themselves and base58 are parameters.
-/

namespace Manapds.Crypto

/-- The curves atproto allows. -/
inductive Algorithm where
  | p256
  | secp256k1
deriving DecidableEq

/-- What is taken from the two curves. -/
structure Curves where
  SigningKey : Algorithm → Type
  VerifyingKey : Algorithm → Type
  Signature : Algorithm → Type
  decEq (algorithm : Algorithm) : DecidableEq (Signature algorithm)
  verifyingKey {algorithm : Algorithm} : SigningKey algorithm → VerifyingKey algorithm
  sign {algorithm : Algorithm} : SigningKey algorithm → Bytes → Signature algorithm
  normalizeS {algorithm : Algorithm} : Signature algorithm → Signature algorithm
  verify {algorithm : Algorithm} : VerifyingKey algorithm → Bytes → Signature algorithm → Bool
  toBytes {algorithm : Algorithm} : Signature algorithm → Bytes
  fromSlice (algorithm : Algorithm) : Bytes → Option (Signature algorithm)
  /-- The point, compressed. -/
  toSec1Point {algorithm : Algorithm} : VerifyingKey algorithm → Bytes
  fromSec1Bytes (algorithm : Algorithm) : Bytes → Option (VerifyingKey algorithm)

/-- Encodings read back, a signature is 64 bytes and in one half of the curve, and the keypair that
made it is the one it verifies under. -/
structure Curves.Lawful (curves : Curves) : Prop where
  length_toBytes {a : Algorithm} (s : curves.Signature a) : (curves.toBytes s).length = 64
  fromSlice_eq_some {a : Algorithm} {bytes : Bytes} {s : curves.Signature a} :
    curves.fromSlice a bytes = some s ↔ bytes = curves.toBytes s
  normalizeS_normalizeS {a : Algorithm} (s : curves.Signature a) :
    curves.normalizeS (curves.normalizeS s) = curves.normalizeS s
  verify_sign {a : Algorithm} (key : curves.SigningKey a) (message : Bytes) :
    curves.verify (curves.verifyingKey key) message
      (curves.normalizeS (curves.sign key message)) = true
  length_toSec1Point {a : Algorithm} (key : curves.VerifyingKey a) :
    (curves.toSec1Point key).length = 33
  fromSec1Bytes_toSec1Point {a : Algorithm} (key : curves.VerifyingKey a) :
    curves.fromSec1Bytes a (curves.toSec1Point key) = some key

structure Base58 where
  encode : Bytes → Str
  decode : Str → Option Bytes

def Base58.Lawful (base58 : Base58) : Prop :=
  ∀ bytes, base58.decode (base58.encode bytes) = some bytes

/-- Why a key or a signature was refused. -/
inductive Error where
  | notDidKey
  | unsupportedKey
  | malformedKey
  | malformedSignature
  | highS
  | badSignature
deriving DecidableEq

def pointLen : ℕ := 33

/-- Multicodec, varint-encoded, in front of the compressed point. -/
def Algorithm.codecPrefix : Algorithm → Bytes
  | .p256 => [0x80, 0x24]
  | .secp256k1 => [0xe7, 0x01]

variable {curves : Curves} {base58 : Base58}

/-- A key that can sign. -/
structure Keypair (curves : Curves) where
  algorithm : Algorithm
  key : curves.SigningKey algorithm

/-- A key that can only verify, and the thing a `did:key` names. -/
structure PublicKey (curves : Curves) where
  algorithm : Algorithm
  key : curves.VerifyingKey algorithm

namespace Keypair

/-- The half that can be published. -/
def publicKey (keypair : Keypair curves) : PublicKey curves :=
  ⟨keypair.algorithm, curves.verifyingKey keypair.key⟩

/-- Signs a message, normalizing to the low half. -/
def sign (keypair : Keypair curves) (message : Bytes) : Bytes :=
  curves.toBytes (curves.normalizeS (curves.sign keypair.key message))

end Keypair

namespace PublicKey

/-- Checks a compact signature over a message. -/
def verify (key : PublicKey curves) (message signature : Bytes) : Except Error Unit :=
  match curves.fromSlice key.algorithm signature with
  | none => .error .malformedSignature
  | some signature =>
    have := curves.decEq key.algorithm
    if curves.normalizeS signature ≠ signature then .error .highS
    else if curves.verify key.key message signature then .ok () else .error .badSignature

/-- What both the `did:key` and an operation carry. -/
def toMulticodec (key : PublicKey curves) : Bytes :=
  key.algorithm.codecPrefix ++ curves.toSec1Point key.key

def fromPoint (algorithm : Algorithm) (point : Bytes) : Except Error (PublicKey curves) :=
  match curves.fromSec1Bytes algorithm point with
  | some key => .ok ⟨algorithm, key⟩
  | none => .error .malformedKey

/-- Reads the encoding `toMulticodec` writes. -/
def fromMulticodec (bytes : Bytes) : Except Error (PublicKey curves) :=
  if bytes.length < 2 then .error .unsupportedKey
  else if (bytes.drop 2).length ≠ pointLen then .error .unsupportedKey
  else if bytes.take 2 = Algorithm.p256.codecPrefix then fromPoint .p256 (bytes.drop 2)
  else if bytes.take 2 = Algorithm.secp256k1.codecPrefix then fromPoint .secp256k1 (bytes.drop 2)
  else .error .unsupportedKey

def didKey : Str := text "did:key:z"

/-- Writes the `did:key`. -/
def toText (base58 : Base58) (key : PublicKey curves) : Str :=
  didKey ++ base58.encode key.toMulticodec

def parse (base58 : Base58) (input : Str) : Except Error (PublicKey curves) :=
  match Str.stripPrefix didKey input with
  | none => .error .notDidKey
  | some encoded => match base58.decode encoded with
    | none => .error .notDidKey
    | some bytes => fromMulticodec bytes

variable {key : PublicKey curves} {message signature : Bytes}

/-- What verifies is the bytes of a signature in the low half. -/
theorem verify_eq_ok (hc : curves.Lawful) : key.verify message signature = .ok () ↔
    ∃ s : curves.Signature key.algorithm, signature = curves.toBytes s ∧
      curves.normalizeS s = s ∧ curves.verify key.key message s = true := by
  unfold verify
  cases hs : curves.fromSlice key.algorithm signature with
  | none =>
    have hnone : ∀ s : curves.Signature key.algorithm, signature ≠ curves.toBytes s := by
      intro s he
      rw [hc.fromSlice_eq_some.mpr he] at hs
      cases hs
    simp [hnone]
  | some s =>
    obtain rfl := hc.fromSlice_eq_some.mp hs
    have hone : ∀ s' : curves.Signature key.algorithm,
        curves.toBytes s = curves.toBytes s' → s = s' := by
      intro s' he
      rw [he, hc.fromSlice_eq_some.mpr rfl] at hs
      exact (Option.some.inj hs).symm
    dsimp only
    constructor
    · intro h
      split_ifs at h with hlow hverify
      exact ⟨s, rfl, not_not.mp hlow, hverify⟩
    · rintro ⟨s', he, hlow, hverify⟩
      obtain rfl := hone s' he
      rw [if_neg (not_not.mpr hlow), if_pos hverify]

theorem fromMulticodec_toMulticodec (hc : curves.Lawful) (key : PublicKey curves) :
    fromMulticodec key.toMulticodec = .ok key := by
  obtain ⟨algorithm, point⟩ := key
  have hpoint := hc.fromSec1Bytes_toSec1Point point
  have hlen := hc.length_toSec1Point point
  cases algorithm <;>
    simp [fromMulticodec, toMulticodec, Algorithm.codecPrefix, pointLen, hlen, fromPoint, hpoint]

theorem parse_toText (hc : curves.Lawful) (hb : base58.Lawful) (key : PublicKey curves) :
    parse base58 (key.toText base58) = .ok key := by
  have hstrip : Str.stripPrefix didKey (key.toText base58) =
      some (base58.encode key.toMulticodec) := by
    rw [Str.stripPrefix, toText, if_pos (List.prefix_append _ _), List.drop_left]
  rw [parse, hstrip]
  dsimp only
  rw [hb]
  exact fromMulticodec_toMulticodec hc key

/-- A signature verifies under the key of the keypair that made it. -/
theorem verify_sign (hc : curves.Lawful) (keypair : Keypair curves) (message : Bytes) :
    keypair.publicKey.verify message (keypair.sign message) = .ok () :=
  (verify_eq_ok hc).mpr ⟨_, rfl, hc.normalizeS_normalizeS _, hc.verify_sign _ _⟩

/-- What parses is 33 bytes of a point behind what its curve is. -/
theorem fromMulticodec_eq_ok {bytes : Bytes} (h : fromMulticodec bytes = .ok key) :
    ∃ point, point.length = pointLen ∧ bytes = key.algorithm.codecPrefix ++ point ∧
      curves.fromSec1Bytes key.algorithm point = some key.key := by
  have hpoint : ∀ algorithm : Algorithm, bytes.take 2 = algorithm.codecPrefix →
      fromPoint algorithm (bytes.drop 2) = .ok key →
      bytes = key.algorithm.codecPrefix ++ bytes.drop 2 ∧
        curves.fromSec1Bytes key.algorithm (bytes.drop 2) = some key.key := by
    intro algorithm htake hread
    unfold fromPoint at hread
    cases hkey : curves.fromSec1Bytes algorithm (bytes.drop 2) with
    | none =>
      rw [hkey] at hread
      cases hread
    | some held =>
      rw [hkey] at hread
      obtain rfl := Except.ok.inj hread
      exact ⟨by rw [← htake, List.take_append_drop], hkey⟩
  unfold fromMulticodec at h
  split_ifs at h with hshort hlen hp hk
  · exact ⟨_, not_not.mp hlen, hpoint _ hp h⟩
  · exact ⟨_, not_not.mp hlen, hpoint _ hk h⟩

theorem parse_eq_ok {input : Str} (h : parse base58 input = .ok key) :
    ∃ encoded point, input = didKey ++ encoded ∧ point.length = pointLen ∧
      base58.decode encoded = some (key.algorithm.codecPrefix ++ point) ∧
      curves.fromSec1Bytes key.algorithm point = some key.key := by
  unfold parse at h
  cases hstrip : Str.stripPrefix didKey input with
  | none =>
    rw [hstrip] at h
    cases h
  | some encoded =>
    rw [hstrip] at h
    dsimp only at h
    cases hdecode : base58.decode encoded with
    | none =>
      rw [hdecode] at h
      cases h
    | some bytes =>
      rw [hdecode] at h
      obtain ⟨point, hlen, rfl, hkey⟩ := fromMulticodec_eq_ok h
      refine ⟨encoded, point, ?_, hlen, hdecode, hkey⟩
      rw [Str.stripPrefix] at hstrip
      split_ifs at hstrip with hprefix
      obtain ⟨rest, rfl⟩ := hprefix
      rw [← Option.some.inj hstrip, List.drop_left]

end PublicKey

/-- Every key on either curve reads back as it is written, and what reads as a key is the point it
holds behind the code of its curve. A signature verifies under the key of the keypair that made it.
Nothing but 64 bytes verifies, and of the signatures that come to the same in the low half only
one. -/
theorem keys_exact (hc : curves.Lawful) (hb : base58.Lawful) :
    (∀ key : PublicKey curves, PublicKey.parse base58 (key.toText base58) = .ok key) ∧
    (∀ (key : PublicKey curves) (input : Str), PublicKey.parse base58 input = .ok key →
      ∃ encoded point, input = PublicKey.didKey ++ encoded ∧ point.length = pointLen ∧
        base58.decode encoded = some (key.algorithm.codecPrefix ++ point) ∧
        curves.fromSec1Bytes key.algorithm point = some key.key) ∧
    (∀ (keypair : Keypair curves) (message : Bytes),
      keypair.publicKey.verify message (keypair.sign message) = .ok ()) ∧
    (∀ (key : PublicKey curves) (message signature : Bytes),
      key.verify message signature = .ok () → signature.length = 64) ∧
    ∀ (key : PublicKey curves) (message message' : Bytes) (s s' : curves.Signature key.algorithm),
      key.verify message (curves.toBytes s) = .ok () →
      key.verify message' (curves.toBytes s') = .ok () →
      curves.normalizeS s = curves.normalizeS s' → s = s' := by
  refine ⟨PublicKey.parse_toText hc hb, fun _ _ => PublicKey.parse_eq_ok,
    PublicKey.verify_sign hc, ?_, ?_⟩
  · intro key message signature h
    obtain ⟨s, rfl, -, -⟩ := (PublicKey.verify_eq_ok hc).mp h
    exact hc.length_toBytes s
  · have hlow : ∀ (key : PublicKey curves) (message : Bytes) (s : curves.Signature key.algorithm),
        key.verify message (curves.toBytes s) = .ok () → curves.normalizeS s = s := by
      intro key message s h
      obtain ⟨held, he, hnormal, -⟩ := (PublicKey.verify_eq_ok hc).mp h
      have hsome := hc.fromSlice_eq_some.mpr he
      rw [hc.fromSlice_eq_some.mpr rfl] at hsome
      rw [Option.some.inj hsome]
      exact hnormal
    intro key message message' s s' h h' he
    rw [← hlow key message s h, he]
    exact hlow key message' s' h'

/-! ## Keys and signatures from a table -/

/-- The order of the group. -/
def order : Algorithm → ℕ
  | .p256 => 0xffffffff00000000ffffffffffffffffbce6faada7179e84f3b9cac2fc632551
  | .secp256k1 => 0xfffffffffffffffffffffffffffffffebaaedce6af48a03bbfd25e8cd0364141

theorem order_bounds (a : Algorithm) : 0 < order a ∧ order a < 256 ^ 32 := by
  cases a <;> simp [order]

/-- A signature: two numbers that are not 0, below the order. -/
structure Scalars (a : Algorithm) where
  r : ℕ
  s : ℕ
  r_bounds : 0 < r ∧ r < order a
  s_bounds : 0 < s ∧ s < order a
deriving DecidableEq

namespace Scalars

variable {a : Algorithm}

def low (p : Scalars a) : Scalars a where
  r := p.r
  s := if order a / 2 < p.s then order a - p.s else p.s
  r_bounds := p.r_bounds
  s_bounds := by
    have h := p.s_bounds
    split_ifs <;> omega

theorem low_low (p : Scalars a) : p.low.low = p.low := by
  have h := p.s_bounds
  simp only [low, mk.injEq, true_and]
  split_ifs <;> omega

def bytes (p : Scalars a) : Bytes :=
  Numeral.spell 256 (Fin.ofNat 256) 32 p.r ++ Numeral.spell 256 (Fin.ofNat 256) 32 p.s

theorem length_bytes (p : Scalars a) : p.bytes.length = 64 := by simp [bytes]

theorem spell_inj {n m : ℕ} (hn : n < 256 ^ 32) (hm : m < 256 ^ 32)
    (h : Numeral.spell 256 (Fin.ofNat 256) 32 n = Numeral.spell 256 (Fin.ofNat 256) 32 m) :
    n = m := by
  have hv : ∀ i < 256, (Fin.ofNat 256 i).val = i := fun i hi => Nat.mod_eq_of_lt hi
  have he := congrArg (Numeral.value 256 Fin.val) h
  rw [Numeral.value_spell (by decide) hv, Numeral.value_spell (by decide) hv,
    Nat.mod_eq_of_lt hn, Nat.mod_eq_of_lt hm] at he
  exact he

theorem bytes_injective : Function.Injective (bytes : Scalars a → Bytes) := by
  intro p q h
  obtain ⟨hr, hs⟩ := List.append_inj h (by simp)
  have ha := order_bounds a
  have hr' := spell_inj (p.r_bounds.2.trans ha.2) (q.r_bounds.2.trans ha.2) hr
  have hs' := spell_inj (p.s_bounds.2.trans ha.2) (q.s_bounds.2.trans ha.2) hs
  cases p
  cases q
  cases hr'
  cases hs'
  rfl

open Classical in
noncomputable def read (a : Algorithm) (bytes : Bytes) : Option (Scalars a) :=
  if h : ∃ s : Scalars a, bytes = s.bytes then some h.choose else none

theorem read_eq_some {bytes : Bytes} {s : Scalars a} : read a bytes = some s ↔ bytes = s.bytes := by
  unfold read
  split_ifs with h
  · rw [Option.some_inj]
    constructor
    · rintro rfl
      exact h.choose_spec
    · intro he
      exact bytes_injective (h.choose_spec.symm.trans he)
  · constructor
    · rintro ⟨⟩
    · intro he
      exact absurd ⟨s, he⟩ h

/-- Whether a signature is this one. -/
def takes (p s : Scalars a) : Bool := s = p.low

theorem takes_low (p : Scalars a) : p.takes p.low = true := decide_eq_true rfl

end Scalars

def readPoint (bytes : Bytes) : Option (Vector Byte 33) :=
  if h : bytes.length = 33 then some ⟨bytes.toArray, by simpa using h⟩ else none

theorem readPoint_toList (point : Vector Byte 33) : readPoint point.toList = some point := by
  have hlen : point.toList.length = 33 := by simp
  have harray : point.toList.toArray = point.toArray := Array.toArray_toList
  rw [readPoint, dif_pos hlen]
  simp only [harray]

/-- Curves whose keys are known by their points, and whose signatures by a table. -/
noncomputable def listed (signed : (a : Algorithm) → Bytes → Scalars a) : Curves where
  SigningKey _ := Vector Byte 33
  VerifyingKey _ := Vector Byte 33
  Signature := Scalars
  decEq _ := inferInstance
  verifyingKey key := key
  sign {a} _ message := signed a message
  normalizeS := Scalars.low
  verify {a} _ message s := (signed a message).takes s
  toBytes := Scalars.bytes
  fromSlice := Scalars.read
  toSec1Point := Vector.toList
  fromSec1Bytes _ := readPoint

theorem lawful_listed (signed : (a : Algorithm) → Bytes → Scalars a) : (listed signed).Lawful where
  length_toBytes s := Scalars.length_bytes s
  fromSlice_eq_some := Scalars.read_eq_some
  normalizeS_normalizeS := Scalars.low_low
  verify_sign {a} _ message := Scalars.takes_low (signed a message)
  length_toSec1Point _ := Vector.length_toList
  fromSec1Bytes_toSec1Point := readPoint_toList

theorem sign_listed {signed : (a : Algorithm) → Bytes → Scalars a} {a : Algorithm}
    (point : Vector Byte 33) (message : Bytes) :
    (⟨a, point⟩ : Keypair (listed signed)).sign message = (signed a message).low.bytes := rfl

/-- Base58 of a table, and what no base58 starts with in front of anything else. -/
def spelled (table : List (Bytes × Str)) : Base58 where
  encode bytes := (table.find? fun row => row.1 = bytes).elim (ascii '0' :: bytes) Prod.snd
  decode s := match table.find? fun row => row.2 = s with
    | some row => some row.1
    | none => s.tail?

theorem lawful_spelled {table : List (Bytes × Str)} (htext : (table.map Prod.snd).Nodup)
    (hzero : ∀ row ∈ table, row.2.head? ≠ some (ascii '0')) : (spelled table).Lawful := by
  intro bytes
  dsimp only [spelled]
  cases hfind : table.find? fun row => row.1 = bytes with
  | none =>
    have hnone : (table.find? fun row => row.2 = ascii '0' :: bytes) = none := by
      rw [List.find?_eq_none]
      intro row hrow he
      apply hzero row hrow
      rw [of_decide_eq_true he]
      rfl
    rw [Option.elim_none, hnone]
    rfl
  | some row =>
    have hrow := List.mem_of_find?_eq_some hfind
    have hkey : row.1 = bytes := by simpa using List.find?_some hfind
    cases hback : table.find? fun held => held.2 = row.2 with
    | none =>
      have hno := List.find?_eq_none.mp hback row hrow
      exact absurd (decide_eq_true rfl) hno
    | some held =>
      have he : held.2 = row.2 := by simpa using List.find?_some hback
      obtain rfl := List.inj_on_of_nodup_map htext (List.mem_of_find?_eq_some hback) hrow he
      rw [Option.elim_some, hback]
      exact congrArg some hkey

theorem one_lt_p256 : 1 < order .p256 := by simp [order]

theorem testSignature_bounds :
    (0 < 0xe56a5d22e11451f55461aa33b22f06d01ddc58ed3d72065b208c20d6dd9829d5 ∧
      0xe56a5d22e11451f55461aa33b22f06d01ddc58ed3d72065b208c20d6dd9829d5 < order .secp256k1) ∧
    0 < 0x27fc51339ce9ddb33fea82261bf3dcf0c5809b07bd5fef240ae4bafb35ab1fa0 ∧
      0x27fc51339ce9ddb33fea82261bf3dcf0c5809b07bd5fef240ae4bafb35ab1fa0 < order .secp256k1 := by
  simp [order]

/-- A signature that the code is tested with. -/
def testSignature : Scalars .secp256k1 := ⟨_, _, testSignature_bounds.1, testSignature_bounds.2⟩

theorem highSignature_bounds :
    0 < order .secp256k1 - testSignature.s ∧
      order .secp256k1 - testSignature.s < order .secp256k1 := by
  simp [order, testSignature]

/-- Its other half. -/
def highSignature : Scalars .secp256k1 :=
  ⟨testSignature.r, _, testSignature.r_bounds, highSignature_bounds⟩

def testPoint : Vector Byte 33 :=
  #v[0x03, 0xa7, 0xd7, 0xfb, 0xf0, 0x48, 0x46, 0xfa, 0x1f, 0xcf, 0xf7, 0x28, 0xba, 0x59, 0x4f,
    0x3c, 0x58, 0x19, 0x34, 0x5e, 0x88, 0x90, 0x8e, 0x87, 0x4b, 0x53, 0x7b, 0xa5, 0xa6, 0x5d,
    0x1f, 0xc3, 0xbb]

def testBase58 : Base58 :=
  spelled [([0xe7, 0x01] ++ testPoint.toList,
    text "Q3shqwJEJyMBsBXCWyCBpUBMqxcon9oHB7mCvx4sSpMdLJwc")]

theorem lawful_testBase58 : testBase58.Lawful := lawful_spelled (List.nodup_singleton _) (by decide)

/-- Every message has the same signature here. -/
noncomputable def testCurves : Curves := listed fun
  | .secp256k1, _ => testSignature
  | .p256, _ => ⟨1, 1, ⟨Nat.one_pos, one_lt_p256⟩, Nat.one_pos, one_lt_p256⟩

theorem lawful_testCurves : testCurves.Lawful := lawful_listed _

noncomputable def testKey : PublicKey testCurves := ⟨.secp256k1, testPoint⟩

/-- A key and a signature that the code is tested with, in both halves. -/
theorem keys_exact_tested :
    PublicKey.parse testBase58
      (text "did:key:zQ3shqwJEJyMBsBXCWyCBpUBMqxcon9oHB7mCvx4sSpMdLJwc") = .ok testKey ∧
    testKey.verify (0xa1 :: text "ehelloeworld") testSignature.bytes = .ok () ∧
    testKey.verify (0xa1 :: text "ehelloeworld") highSignature.bytes ≠ .ok () := by
  obtain ⟨hread, -, hsign, -, hone⟩ := keys_exact lawful_testCurves lawful_testBase58
  have hlow : testSignature.low = testSignature := by
    simp [Scalars.low, testSignature, order]
  have hhigh : highSignature.low = testSignature := by
    simp [Scalars.low, highSignature, testSignature, order]
  have hverify := hsign ⟨.secp256k1, testPoint⟩ (0xa1 :: text "ehelloeworld")
  have hmade : (⟨.secp256k1, testPoint⟩ : Keypair testCurves).sign (0xa1 :: text "ehelloeworld") =
      testSignature.bytes := congrArg Scalars.bytes hlow
  rw [hmade] at hverify
  refine ⟨hread testKey, hverify, ?_⟩
  intro h
  have he := hone testKey _ _ testSignature highSignature hverify h (hlow.trans hhigh.symm)
  have hs := congrArg Scalars.s he
  simp [testSignature, highSignature, order] at hs

end Manapds.Crypto
