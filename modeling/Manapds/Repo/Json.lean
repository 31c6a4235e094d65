import Manapds.Lib.Base64
import Manapds.Repo.Block
import Manapds.Repo.DagCbor

/-!
# Records as JSON

A record as a client reads and writes it. A CID and a byte string have no JSON of their own, so
each is an object of a single reserved key, `$link` or `$bytes`; everything else maps across as
itself. What a client may write is the record data below, and that goes out and comes back
unchanged.
-/

namespace Manapds

variable {Cid : Type}

/-- `serde_json::Number`. -/
inductive Number where
  | posInt (n : UInt64)
  | negInt (n : Int64)
  /-- A float, as its bits. -/
  | float (bits : UInt64)

namespace Number

def asI64 : Number → Option Int64
  | .posInt n => if n.toNat ≤ Int64.maxValue.toInt then some (Int64.ofNat n.toNat) else none
  | .negInt n => some n
  | .float _ => none

def ofI64 (n : Int64) : Number :=
  if n < 0 then .negInt n else .posInt (UInt64.ofNat n.toInt.toNat)

theorem asI64_ofI64 (n : Int64) : (ofI64 n).asI64 = some n := by
  have hle := n.toInt_le
  unfold ofI64
  split_ifs with hneg
  · rfl
  · have hpos : 0 ≤ n.toInt := by
      rw [Int64.lt_iff_toInt_lt] at hneg
      exact not_lt.mp hneg
    have hmax : Int64.maxValue.toInt = 9223372036854775807 := rfl
    have hnat : (UInt64.ofNat n.toInt.toNat).toNat = n.toInt.toNat := by
      rw [UInt64.toNat_ofNat']
      omega
    have hofNat : Int64.ofNat n.toInt.toNat = n := by
      apply Int64.toInt.inj
      rw [Int64.toInt_ofNat_of_lt (by omega)]
      omega
    rw [asI64, hnat, if_pos (by omega), hofNat]

end Number

inductive Json where
  | null
  | bool (b : Bool)
  | number (n : Number)
  | string (s : Str)
  | array (items : List Json)
  | object (fields : List (Str × Json))

/-- `i64::try_from`. -/
def i64TryFrom (n : ℤ) : Option Int64 :=
  if Int64.minValue.toInt ≤ n ∧ n ≤ Int64.maxValue.toInt then some (Int64.ofInt n) else none

theorem i64TryFrom_toInt (n : Int64) : i64TryFrom n.toInt = some n := by
  rw [i64TryFrom, if_pos ⟨n.minValue_le_toInt, n.toInt_le⟩, Int64.ofInt_toInt]

theorem toInt_of_i64TryFrom {n : ℤ} {m : Int64} (h : i64TryFrom n = some m) : m.toInt = n := by
  unfold i64TryFrom at h
  split_ifs at h with hn
  obtain rfl := Option.some.inj h
  exact Int64.toInt_ofInt_of_le hn.1 (Int.lt_add_one_of_le hn.2)

/-- What the two reserved keys hold, and how it is written. -/
class JsonCodec (Cid : Type) extends CidText Cid where
  /-- `Cid::from_str`. -/
  parse : Str → Option Cid
  /-- Base64 without padding, and read with or without it. -/
  encode : Bytes → Str
  decode : Str → Option Bytes

class LawfulJsonCodec (Cid : Type) [JsonCodec Cid] : Prop where
  parse_toText (cid : Cid) : JsonCodec.parse (CidText.toText cid) = some cid
  decode_encode (b : Bytes) : JsonCodec.decode Cid (JsonCodec.encode Cid b) = some b

namespace Json

/-- The key a CID is written under. -/
def LINK : Str := text "$link"

/-- The key a byte string is written under. -/
def BYTES : Str := text "$bytes"

/-- `object.get(key)`. -/
def get (object : List (Str × Json)) (key : Str) : Option Json :=
  (object.find? fun field => field.1 = key).map Prod.snd

/-- An object of exactly one reserved key, which stands for one of the two things JSON cannot
write. -/
def reserved (object : List (Str × Json)) : Option (Str × Json) :=
  if object.length ≠ 1 then none
  else [LINK, BYTES].findSome? fun key => (get object key).map fun held => (key, held)

/-- One of those two, written back out. -/
def tagged (key held : Str) : Json := .object [(key, .string held)]

end Json

section

variable [JsonCodec Cid]

open Json RepoError

mutual

/-- A record as a client is shown it. -/
def toJson : Ipld Cid → Except (RepoError Cid) Json
  | .null => return .null
  | .bool held => return .bool held
  | .integer held => do
    let held ← (i64TryFrom held).elim (.error (notRecordData "an integer past 64 bits")) .ok
    return .number (.ofI64 held)
  | .float _ => .error (notRecordData "a float")
  | .string held => return .string held
  | .bytes held => return tagged BYTES (JsonCodec.encode Cid held)
  | .list held => return .array (← toJsonItems held)
  | .map held => return .object (← toJsonFields held)
  | .link held => return tagged LINK (CidText.toText held)

def toJsonItems : List (Ipld Cid) → Except (RepoError Cid) (List Json)
  | [] => return []
  | held :: rest => return (← toJson held) :: (← toJsonItems rest)

def toJsonFields : List (Str × Ipld Cid) → Except (RepoError Cid) (List (Str × Json))
  | [] => return []
  | (key, held) :: rest => return (key, ← toJson held) :: (← toJsonFields rest)

end

mutual

/-- A record as a client wrote it. -/
def fromJson : Json → Except (RepoError Cid) (Ipld Cid)
  | .null => return .null
  | .bool held => return .bool held
  | .number held => do
    let held ← held.asI64.elim (.error (notRecordData "a number that is not an integer")) .ok
    return .integer held.toInt
  | .string held => return .string held
  | .array held => return .list (← fromJsonItems held)
  | .object held =>
    match reserved held with
    | some (key, .string s) =>
      if key = LINK then
        (JsonCodec.parse s).elim (.error (notRecordData "a $link that is not a CID")) fun cid =>
          .ok (.link cid)
      else
        (JsonCodec.decode Cid s).elim (.error (notRecordData "a $bytes that is not base64"))
          fun bytes => .ok (.bytes bytes)
    | some _ => .error (notRecordData "a $link or $bytes holding no string")
    | none => return .map (← fromJsonFields held)

def fromJsonItems : List Json → Except (RepoError Cid) (List (Ipld Cid))
  | [] => return []
  | held :: rest => return (← fromJson held) :: (← fromJsonItems rest)

def fromJsonFields : List (Str × Json) → Except (RepoError Cid) (List (Str × Ipld Cid))
  | [] => return []
  | (key, held) :: rest => return (key, ← fromJson held) :: (← fromJsonFields rest)

end

end

/-! ## Record data -/

/-- A map that would be read as something else: of one entry, under a reserved key. -/
def Json.standsFor {α : Type} : List (Str × α) → Bool
  | [(key, _)] => key = LINK || key = BYTES
  | _ => false

mutual

/-- No float, no integer past 64 bits, and no map that would be read as something else. -/
def Ipld.isRecordData : Ipld Cid → Bool
  | .float _ => false
  | .integer n => (i64TryFrom n).isSome
  | .list items => itemsAreRecordData items
  | .map fields => !Json.standsFor fields && fieldsAreRecordData fields
  | _ => true

def Ipld.itemsAreRecordData : List (Ipld Cid) → Bool
  | [] => true
  | v :: rest => isRecordData v && itemsAreRecordData rest

def Ipld.fieldsAreRecordData : List (Str × Ipld Cid) → Bool
  | [] => true
  | (_, v) :: rest => isRecordData v && fieldsAreRecordData rest

end

theorem Json.standsFor_congr {α β : Type} {fields : List (Str × α)} {others : List (Str × β)}
    (h : fields.map Prod.fst = others.map Prod.fst) : standsFor fields = standsFor others := by
  rcases fields with _ | ⟨f, _ | ⟨g, fields⟩⟩ <;> rcases others with _ | ⟨f', _ | ⟨g', others⟩⟩ <;>
    simp_all [standsFor]

/-- A reserved key is told by itself. -/
theorem Json.reserved_eq_none {object : List (Str × Json)} :
    reserved object = none ↔ standsFor object = false := by
  rcases object with _ | ⟨⟨key, held⟩, _ | ⟨g, object⟩⟩
  · simp [reserved, standsFor]
  · by_cases hlink : key = LINK
    · simp [reserved, standsFor, get, hlink]
    · by_cases hbytes : key = BYTES
      · simp [reserved, standsFor, get, hbytes]
      · simp [reserved, standsFor, get, hlink, hbytes]
  · simp [reserved, standsFor]

theorem Json.reserved_link (held : Json) : reserved [(LINK, held)] = some (LINK, held) := by
  simp [reserved, get]

theorem Json.reserved_bytes (held : Json) : reserved [(BYTES, held)] = some (BYTES, held) := by
  have hne : BYTES ≠ LINK := by decide
  simp [reserved, get, hne]

theorem isRecordData_integer (n : Int64) :
    (Ipld.integer n.toInt : Ipld Cid).isRecordData = true := by
  rw [Ipld.isRecordData, i64TryFrom_toInt, Option.isSome_some]

section

variable [JsonCodec Cid]

open Json

/-! ## One constructor at a time -/

theorem exists_of_elim_eq_ok {α β ε : Type} {o : Option α} {e : ε} {f : α → β} {b : β}
    (h : o.elim (.error e) (fun a => .ok (f a)) = Except.ok b) : ∃ a, o = some a ∧ b = f a := by
  cases o with
  | none => cases h
  | some a => exact ⟨a, rfl, (Except.ok.inj h).symm⟩

theorem fromJsonItems_cons {held : Json} {rest : List Json} {items : List (Ipld Cid)}
    (h : fromJsonItems (held :: rest) = .ok items) :
    ∃ v vs, fromJson held = .ok v ∧ fromJsonItems rest = .ok vs ∧ items = v :: vs := by
  rw [fromJsonItems] at h
  cases hv : (fromJson held : Except (RepoError Cid) (Ipld Cid)) with
  | error e =>
    rw [hv] at h
    cases h
  | ok v =>
    cases hvs : (fromJsonItems rest : Except (RepoError Cid) (List (Ipld Cid))) with
    | error e =>
      rw [hv, hvs] at h
      cases h
    | ok vs =>
      rw [hv, hvs] at h
      exact ⟨v, vs, rfl, rfl, (Except.ok.inj h).symm⟩

theorem fromJsonFields_cons {key : Str} {held : Json} {rest : List (Str × Json)}
    {fields : List (Str × Ipld Cid)} (h : fromJsonFields ((key, held) :: rest) = .ok fields) :
    ∃ v vs, fromJson held = .ok v ∧ fromJsonFields rest = .ok vs ∧ fields = (key, v) :: vs := by
  rw [fromJsonFields] at h
  cases hv : (fromJson held : Except (RepoError Cid) (Ipld Cid)) with
  | error e =>
    rw [hv] at h
    cases h
  | ok v =>
    cases hvs : (fromJsonFields rest : Except (RepoError Cid) (List (Str × Ipld Cid))) with
    | error e =>
      rw [hv, hvs] at h
      cases h
    | ok vs =>
      rw [hv, hvs] at h
      exact ⟨v, vs, rfl, rfl, (Except.ok.inj h).symm⟩

theorem keys_fromJsonFields {object : List (Str × Json)} {fields : List (Str × Ipld Cid)}
    (h : fromJsonFields object = .ok fields) : fields.map Prod.fst = object.map Prod.fst := by
  induction object generalizing fields with
  | nil =>
    rw [fromJsonFields] at h
    obtain rfl := Except.ok.inj h
    rfl
  | cons field rest ih =>
    obtain ⟨v, vs, -, hvs, rfl⟩ := fromJsonFields_cons h
    rw [List.map_cons, List.map_cons, ih hvs]

/-- What an object of no reserved key is read as. -/
theorem fromJson_object {object : List (Str × Json)} (h : standsFor object = false) :
    (fromJson (.object object) : Except (RepoError Cid) (Ipld Cid)) =
      (fromJsonFields object).map .map := by
  rw [fromJson, reserved_eq_none.mpr h]
  cases (fromJsonFields object : Except (RepoError Cid) (List (Str × Ipld Cid))) <;> rfl

/-! ## What is read is record data -/

mutual

theorem isRecordData_fromJson : ∀ {J : Json} {v : Ipld Cid}, fromJson J = .ok v →
    v.isRecordData = true
  | .null, v, h => by
    obtain rfl := Except.ok.inj h
    rfl
  | .bool b, v, h => by
    obtain rfl := Except.ok.inj h
    rfl
  | .number n, v, h => by
    rw [fromJson] at h
    cases hn : n.asI64 with
    | none =>
      rw [hn] at h
      cases h
    | some m =>
      rw [hn] at h
      obtain rfl := Except.ok.inj h
      exact isRecordData_integer m
  | .string s, v, h => by
    obtain rfl := Except.ok.inj h
    rfl
  | .array items, v, h => by
    rw [fromJson] at h
    cases hitems : (fromJsonItems items : Except (RepoError Cid) (List (Ipld Cid))) with
    | error e =>
      rw [hitems] at h
      cases h
    | ok vs =>
      rw [hitems] at h
      obtain rfl := Except.ok.inj h
      exact itemsAreRecordData_fromJson hitems
  | .object held, v, h => by
    cases hreserved : standsFor held with
    | true =>
      rw [fromJson] at h
      split at h
      · split_ifs at h
        · obtain ⟨cid, -, rfl⟩ := exists_of_elim_eq_ok h
          rfl
        · obtain ⟨b, -, rfl⟩ := exists_of_elim_eq_ok h
          rfl
      · cases h
      · next hnone =>
        rw [reserved_eq_none, hreserved] at hnone
        cases hnone
    | false =>
      rw [fromJson_object hreserved] at h
      cases hfields : (fromJsonFields held : Except (RepoError Cid) (List (Str × Ipld Cid))) with
      | error e =>
        rw [hfields] at h
        cases h
      | ok fields =>
        rw [hfields] at h
        obtain rfl := Except.ok.inj h
        rw [Ipld.isRecordData, standsFor_congr (keys_fromJsonFields hfields), hreserved]
        exact fieldsAreRecordData_fromJson hfields

theorem itemsAreRecordData_fromJson : ∀ {items : List Json} {vs : List (Ipld Cid)},
    fromJsonItems items = .ok vs → Ipld.itemsAreRecordData vs = true
  | [], vs, h => by
    rw [fromJsonItems] at h
    obtain rfl := Except.ok.inj h
    rfl
  | J :: items, vs, h => by
    obtain ⟨v, vs, hv, hvs, rfl⟩ := fromJsonItems_cons h
    rw [Ipld.itemsAreRecordData, isRecordData_fromJson hv, itemsAreRecordData_fromJson hvs,
      Bool.and_self]

theorem fieldsAreRecordData_fromJson : ∀ {object : List (Str × Json)}
    {fields : List (Str × Ipld Cid)}, fromJsonFields object = .ok fields →
      Ipld.fieldsAreRecordData fields = true
  | [], fields, h => by
    rw [fromJsonFields] at h
    obtain rfl := Except.ok.inj h
    rfl
  | (key, J) :: held, fields, h => by
    obtain ⟨v, vs, hv, hvs, rfl⟩ := fromJsonFields_cons h
    rw [Ipld.fieldsAreRecordData, isRecordData_fromJson hv, fieldsAreRecordData_fromJson hvs,
      Bool.and_self]

end

/-! ## Record data goes out and comes back -/

mutual

theorem exists_toJson [LawfulJsonCodec Cid] : ∀ {v : Ipld Cid}, v.isRecordData = true →
    ∃ J, toJson v = .ok J ∧ fromJson J = .ok v
  | .null, _ => ⟨.null, rfl, rfl⟩
  | .bool b, _ => ⟨.bool b, rfl, rfl⟩
  | .integer n, h => by
    obtain ⟨m, hm⟩ := Option.isSome_iff_exists.mp h
    refine ⟨.number (.ofI64 m), ?_, ?_⟩
    · rw [toJson, hm]
      rfl
    · rw [fromJson, Number.asI64_ofI64, ← toInt_of_i64TryFrom hm]
      rfl
  | .float bits, h => by cases h
  | .string s, _ => ⟨.string s, rfl, rfl⟩
  | .bytes b, _ => by
    have hne : BYTES ≠ LINK := by decide
    refine ⟨tagged BYTES (JsonCodec.encode Cid b), rfl, ?_⟩
    rw [tagged, fromJson, reserved_bytes]
    simp only [if_neg hne, LawfulJsonCodec.decode_encode]
    rfl
  | .list items, h => by
    obtain ⟨Js, hto, hfrom⟩ := exists_toJsonItems h
    refine ⟨.array Js, ?_, ?_⟩
    · rw [toJson, hto]
      rfl
    · rw [fromJson, hfrom]
      rfl
  | .map fields, h => by
    rw [Ipld.isRecordData, Bool.and_eq_true, Bool.not_eq_true'] at h
    obtain ⟨object, hto, hfrom⟩ := exists_toJsonFields h.2
    refine ⟨.object object, ?_, ?_⟩
    · rw [toJson, hto]
      rfl
    · rw [standsFor_congr (keys_fromJsonFields hfrom)] at h
      rw [fromJson_object h.1, hfrom]
      rfl
  | .link cid, _ => by
    refine ⟨tagged LINK (CidText.toText cid), rfl, ?_⟩
    rw [tagged, fromJson, reserved_link]
    simp only [if_true, LawfulJsonCodec.parse_toText]
    rfl

theorem exists_toJsonItems [LawfulJsonCodec Cid] : ∀ {items : List (Ipld Cid)},
    Ipld.itemsAreRecordData items = true →
      ∃ Js, toJsonItems items = .ok Js ∧ fromJsonItems Js = .ok items
  | [], _ => by
    refine ⟨[], ?_, ?_⟩
    · rw [toJsonItems]
      rfl
    · rw [fromJsonItems]
      rfl
  | v :: items, h => by
    rw [Ipld.itemsAreRecordData, Bool.and_eq_true] at h
    obtain ⟨J, hto, hfrom⟩ := exists_toJson h.1
    obtain ⟨Js, htos, hfroms⟩ := exists_toJsonItems h.2
    refine ⟨J :: Js, ?_, ?_⟩
    · rw [toJsonItems, hto, htos]
      rfl
    · rw [fromJsonItems, hfrom, hfroms]
      rfl

theorem exists_toJsonFields [LawfulJsonCodec Cid] : ∀ {fields : List (Str × Ipld Cid)},
    Ipld.fieldsAreRecordData fields = true →
      ∃ object, toJsonFields fields = .ok object ∧ fromJsonFields object = .ok fields
  | [], _ => by
    refine ⟨[], ?_, ?_⟩
    · rw [toJsonFields]
      rfl
    · rw [fromJsonFields]
      rfl
  | (key, v) :: fields, h => by
    rw [Ipld.fieldsAreRecordData, Bool.and_eq_true] at h
    obtain ⟨J, hto, hfrom⟩ := exists_toJson h.1
    obtain ⟨object, htos, hfroms⟩ := exists_toJsonFields h.2
    refine ⟨(key, J) :: object, ?_, ?_⟩
    · rw [toJsonFields, hto, htos]
      rfl
    · rw [fromJsonFields, hfrom, hfroms]
      rfl

end

variable [LawfulJsonCodec Cid]

theorem toJson_inj {v w : Ipld Cid} (hv : v.isRecordData = true) (hw : w.isRecordData = true)
    (h : toJson v = toJson w) : v = w := by
  obtain ⟨J, hto, hfrom⟩ := exists_toJson hv
  obtain ⟨J', hto', hfrom'⟩ := exists_toJson hw
  rw [hto, hto'] at h
  obtain rfl := Except.ok.inj h
  rw [hfrom] at hfrom'
  exact Except.ok.inj hfrom'

/-- What is read from JSON is written and read again as the same, as is every record, and no two
of those are written alike. -/
theorem json_exact :
    (∀ (J : Json) (v : Ipld Cid), fromJson J = .ok v →
      ∃ J', toJson v = .ok J' ∧ fromJson J' = .ok v) ∧
    (∀ v : Ipld Cid, v.isRecordData = true → ∃ J, toJson v = .ok J ∧ fromJson J = .ok v) ∧
    ∀ v w : Ipld Cid, v.isRecordData = true → w.isRecordData = true → toJson v = toJson w →
      v = w :=
  ⟨fun _ _ h => exists_toJson (isRecordData_fromJson h), fun _ => exists_toJson,
    fun _ _ => toJson_inj⟩

end

/-! ## The spellings -/

open DagCbor Json

/-- The standard alphabet. -/
def base64Alphabet : Str :=
  text "ABCDEFGHIJKLMNOPQRSTUVWXYZabcdefghijklmnopqrstuvwxyz0123456789+/"

def base64Symbol (i : Fin 64) : Byte := base64Alphabet.getD i 0

def base64Digit (b : Byte) : Option (Fin 64) :=
  (List.finRange 64).find? fun i => base64Symbol i = b

theorem base64Digit_symbol : ∀ i : Fin 64, base64Digit (base64Symbol i) = some i := by
  decide

theorem base64Symbol_ne_pad : ∀ i : Fin 64, base64Symbol i ≠ ascii '=' := by decide

def parseCid (s : Str) : Option RawCid :=
  if s = cidText (cidOf trivialDigest) then some (cidOf trivialDigest)
  else if s.head? = some 0 then some ⟨s.tail⟩
  else none

theorem parseCid_cidText (cid : RawCid) : parseCid (cidText cid) = some cid := by
  by_cases hcid : cid = cidOf trivialDigest
  · rw [hcid, parseCid, if_pos rfl]
  · have hne : cidText cid ≠ cidText (cidOf trivialDigest) := fun h => hcid (cidText_injective h)
    have htext : cidText cid = 0 :: cid.bytes := if_neg hcid
    rw [parseCid, if_neg hne, htext, List.head?_cons, if_pos rfl, List.tail_cons]

instance : JsonCodec RawCid where
  parse := parseCid
  encode := Base64.encode base64Symbol
  decode := Base64.decode base64Digit (ascii '=')

instance : LawfulJsonCodec RawCid where
  parse_toText := parseCid_cidText
  decode_encode := Base64.decode_encode base64Digit_symbol base64Symbol_ne_pad

/-- Bytes that were written with their padding are written without it. -/
theorem json_exact_padded :
    fromJson (.object [(text "sig", tagged BYTES (text "AQ=="))]) =
      .ok (.map [(text "sig", .bytes [1])] : Ipld RawCid) ∧
    ∃ J, toJson (.map [(text "sig", .bytes [1])] : Ipld RawCid) = .ok J ∧
      fromJson J = .ok (.map [(text "sig", .bytes [1])] : Ipld RawCid) := by
  have hne : BYTES ≠ LINK := by decide
  have hbytes : JsonCodec.decode RawCid (text "AQ==") = some [1] := by decide
  have hread : fromJson (.object [(text "sig", tagged BYTES (text "AQ=="))]) =
      .ok (.map [(text "sig", .bytes [1])] : Ipld RawCid) := by
    rw [fromJson_object (by decide), fromJsonFields, tagged, fromJson, reserved_bytes,
      fromJsonFields]
    simp only [if_neg hne, hbytes]
    rfl
  exact ⟨hread, json_exact.1 _ _ hread⟩

end Manapds
