import Manapds.Repo.Signature
import Manapds.Syntax.Base32
import Manapds.Syntax.DidKey
import Manapds.Xrpc.Auth

/-!
# The operation behind an identifier

An identifier is a hash of the operation that creates it, signature and all, so it stands for that
operation and for no other. What a signup writes is an operation its own rotation key signed. The
tombstone that would retire it names it by its CID.
-/

namespace Manapds

/-- A map under strings, in the order of those. -/
structure StringMap (α : Type) where
  entries : List (Str × α)
  ordered : (entries.map Prod.fst).Pairwise (· < ·)

theorem StringMap.ext {α : Type} {a b : StringMap α} (h : a.entries = b.entries) : a = b := by
  cases a
  cases b
  cases h
  rfl

/-- The map with one entry. -/
def StringMap.single {α : Type} (key : Str) (a : α) : StringMap α := ⟨[(key, a)], by simp⟩

namespace Plc

/-- What went wrong building or reading an operation. `panic` is a panic of the source. -/
inductive Error (Cid : Type) where
  | encode (why : RepoError Cid)
  | signature
  | malformed (why : String)
  | panic

/-- Somewhere an account is served from. -/
structure Service where
  kind : Str
  endpoint : Str

/-- An operation, as the directory takes it and hands it back. -/
structure Operation where
  kind : Str
  rotationKeys : List Str
  verificationMethods : StringMap Str
  alsoKnownAs : List Str
  services : StringMap Service
  prev : Option Str
  sig : Option Str

/-- The operation that retires an identifier. -/
structure Tombstone where
  kind : Str
  prev : Str
  sig : Option Str

def OPERATION : Str := text "plc_operation"

def TOMBSTONE : Str := text "plc_tombstone"

def ATPROTO : Str := text "atproto"

def PDS : Str := text "atproto_pds"

def PDS_TYPE : Str := text "AtprotoPersonalDataServer"

/-- How much of the hash the identifier keeps. -/
def LENGTH : ℕ := 24

variable {Cid : Type}

/-! ## How one is encoded -/

/-- A list of strings. -/
def strings (l : List Str) : Ipld Cid := .list (l.map .string)

/-- A string, or null. -/
def nullable : Option Str → Ipld Cid
  | none => .null
  | some s => .string s

/-- A field that is left out where there is nothing in it. -/
def field (name : Str) : Option Str → List (Str × Ipld Cid)
  | none => []
  | some s => [(name, .string s)]

def fields {α : Type} (toIpld : α → Ipld Cid) (map : StringMap α) : Ipld Cid :=
  .map (map.entries.map fun entry => (entry.1, toIpld entry.2))

def Service.toIpld (service : Service) : Ipld Cid :=
  .map [(text "endpoint", .string service.endpoint), (text "type", .string service.kind)]

def Operation.toIpld (operation : Operation) : Ipld Cid :=
  .map ([(text "alsoKnownAs", strings operation.alsoKnownAs),
    (text "prev", nullable operation.prev),
    (text "rotationKeys", strings operation.rotationKeys),
    (text "services", fields Service.toIpld operation.services)] ++
    field (text "sig") operation.sig ++
    [(text "type", .string operation.kind),
    (text "verificationMethods", fields .string operation.verificationMethods)])

def Tombstone.toIpld (tombstone : Tombstone) : Ipld Cid :=
  .map ([(text "prev", .string tombstone.prev)] ++ field (text "sig") tombstone.sig ++
    [(text "type", .string tombstone.kind)])

theorem wf_strings (l : List Str) : (strings l : Ipld Cid).wf = true := by
  rw [strings, Ipld.wf_list, List.all_map, List.all_eq_true]
  intro s _
  rfl

theorem plain_strings (l : List Str) : (strings l : Ipld Cid).plain = true := by
  rw [strings, Ipld.plain_list, List.all_map, List.all_eq_true]
  intro s _
  rfl

theorem strings_injective : Function.Injective (strings : List Str → Ipld Cid) := by
  intro l l' h
  have hstring : Function.Injective (Ipld.string : Str → Ipld Cid) := fun _ _ => Ipld.string.inj
  exact List.map_injective_iff.mpr hstring (Ipld.list.inj h)

theorem wf_nullable (held : Option Str) : (nullable held : Ipld Cid).wf = true := by
  cases held <;> rfl

theorem plain_nullable (held : Option Str) : (nullable held : Ipld Cid).plain = true := by
  cases held <;> rfl

theorem nullable_injective : Function.Injective (nullable : Option Str → Ipld Cid) := by
  intro held held' h
  cases held <;> cases held' <;> simp_all [nullable]

theorem wf_fields {α : Type} {toIpld : α → Ipld Cid} (h : ∀ a, (toIpld a).wf = true)
    (map : StringMap α) : (fields toIpld map).wf = true := by
  rw [fields, Ipld.wf_map, Bool.and_eq_true, decide_eq_true_eq, List.map_map, List.all_map,
    List.all_eq_true]
  exact ⟨map.ordered, fun entry _ => h entry.2⟩

theorem plain_fields {α : Type} {toIpld : α → Ipld Cid} (h : ∀ a, (toIpld a).plain = true)
    (map : StringMap α) : (fields toIpld map).plain = true := by
  rw [fields, Ipld.plain_map, List.all_map, List.all_eq_true]
  exact fun entry _ => h entry.2

theorem fields_injective {α : Type} {toIpld : α → Ipld Cid} (h : Function.Injective toIpld) :
    Function.Injective (fields toIpld) := by
  intro map map' he
  apply StringMap.ext
  have hentry : Function.Injective fun entry : Str × α => (entry.1, toIpld entry.2) := by
    intro a b hab
    obtain ⟨hkey, hheld⟩ := Prod.mk.inj hab
    exact Prod.ext hkey (h hheld)
  exact List.map_injective_iff.mpr hentry (Ipld.map.inj he)

namespace Service

theorem wf_toIpld (service : Service) : (service.toIpld : Ipld Cid).wf = true := by
  have hkeys : ([text "endpoint", text "type"]).Pairwise (· < ·) := by decide
  rw [toIpld, Ipld.wf_map, Bool.and_eq_true, decide_eq_true_eq]
  exact ⟨hkeys, rfl⟩

theorem plain_toIpld (service : Service) : (service.toIpld : Ipld Cid).plain = true := by
  rw [toIpld, Ipld.plain_map]
  rfl

theorem toIpld_injective : Function.Injective (toIpld : Service → Ipld Cid) := by
  rintro ⟨kind, endpoint⟩ ⟨kind', endpoint'⟩ h
  simp only [toIpld, Ipld.map.injEq, List.cons.injEq, Prod.mk.injEq, true_and, and_true,
    Ipld.string.injEq] at h
  obtain ⟨rfl, rfl⟩ := h
  rfl

end Service

namespace Operation

theorem wf_toIpld (operation : Operation) : (operation.toIpld : Ipld Cid).wf = true := by
  have hservices : (fields Service.toIpld operation.services : Ipld Cid).wf = true :=
    wf_fields Service.wf_toIpld _
  have hmethods : (fields .string operation.verificationMethods : Ipld Cid).wf = true :=
    wf_fields (fun _ => rfl) _
  rw [toIpld, Ipld.wf_map, Bool.and_eq_true, decide_eq_true_eq]
  cases operation.sig with
  | none =>
    have hkeys : ([text "alsoKnownAs", text "prev", text "rotationKeys", text "services",
      text "type", text "verificationMethods"]).Pairwise (· < ·) := by decide
    refine ⟨hkeys, ?_⟩
    simp [field, hservices, hmethods, wf_strings, wf_nullable, Ipld.wf]
  | some sig =>
    have hkeys : ([text "alsoKnownAs", text "prev", text "rotationKeys", text "services",
      text "sig", text "type", text "verificationMethods"]).Pairwise (· < ·) := by decide
    refine ⟨hkeys, ?_⟩
    simp [field, hservices, hmethods, wf_strings, wf_nullable, Ipld.wf]

theorem plain_toIpld (operation : Operation) : (operation.toIpld : Ipld Cid).plain = true := by
  have hservices : (fields Service.toIpld operation.services : Ipld Cid).plain = true :=
    plain_fields Service.plain_toIpld _
  have hmethods : (fields .string operation.verificationMethods : Ipld Cid).plain = true :=
    plain_fields (fun _ => rfl) _
  rw [toIpld, Ipld.plain_map]
  cases operation.sig <;>
    simp [field, hservices, hmethods, plain_strings, plain_nullable, Ipld.plain]

/-- Nothing in an operation can be changed without changing what is encoded. -/
theorem toIpld_injective : Function.Injective (toIpld : Operation → Ipld Cid) := by
  have hstring : Function.Injective (Ipld.string : Str → Ipld Cid) := fun _ _ => Ipld.string.inj
  rintro ⟨kind, keys, methods, known, services, prev, sig⟩
    ⟨kind', keys', methods', known', services', prev', sig'⟩ h
  have hentries := Ipld.map.inj h
  have hsig : sig = sig' ∧ known = known' ∧ prev = prev' ∧ keys = keys' ∧ services = services' ∧
      kind = kind' ∧ methods = methods' := by
    cases sig with
    | none =>
      cases sig' with
      | none =>
        simp only [field, List.cons_append, List.nil_append, List.append_nil, List.cons.injEq,
          Prod.mk.injEq, true_and, and_true, Ipld.string.injEq] at hentries
        obtain ⟨hknown, hprev, hkeys, hservices, hkind, hmethods⟩ := hentries
        exact ⟨rfl, strings_injective hknown, nullable_injective hprev, strings_injective hkeys,
          fields_injective Service.toIpld_injective hservices, hkind,
          fields_injective hstring hmethods⟩
      | some _ => cases congrArg List.length hentries
    | some sig =>
      cases sig' with
      | none => cases congrArg List.length hentries
      | some sig' =>
        simp only [field, List.cons_append, List.nil_append, List.cons.injEq,
          Prod.mk.injEq, true_and, and_true, Ipld.string.injEq] at hentries
        obtain ⟨hknown, hprev, hkeys, hservices, hsig, hkind, hmethods⟩ := hentries
        exact ⟨congrArg some hsig, strings_injective hknown, nullable_injective hprev,
          strings_injective hkeys, fields_injective Service.toIpld_injective hservices, hkind,
          fields_injective hstring hmethods⟩
  obtain ⟨rfl, rfl, rfl, rfl, rfl, rfl, rfl⟩ := hsig
  rfl

end Operation

namespace Tombstone

theorem wf_toIpld (tombstone : Tombstone) : (tombstone.toIpld : Ipld Cid).wf = true := by
  rw [toIpld, Ipld.wf_map, Bool.and_eq_true, decide_eq_true_eq]
  cases tombstone.sig with
  | none =>
    have hkeys : ([text "prev", text "type"]).Pairwise (· < ·) := by decide
    exact ⟨hkeys, rfl⟩
  | some sig =>
    have hkeys : ([text "prev", text "sig", text "type"]).Pairwise (· < ·) := by decide
    exact ⟨hkeys, rfl⟩

theorem plain_toIpld (tombstone : Tombstone) : (tombstone.toIpld : Ipld Cid).plain = true := by
  rw [toIpld, Ipld.plain_map]
  cases tombstone.sig <;> rfl

end Tombstone

/-! ## Building and checking one -/

section

variable [Codec Cid]

open Crypto

variable {curves : Curves} (base58 : Base58) (base64 : Auth.Engine)

def encoded (v : Ipld Cid) : Except (Error Cid) Bytes := (encode v).mapError .encode

namespace Operation

variable (Cid)

/-- What the signature covers: the operation without it. -/
def payload (operation : Operation) : Except (Error Cid) Bytes :=
  encoded { operation with sig := none }.toIpld

/-- Builds the operation that creates an account, and signs it. -/
def create (handle : Handle) (pds : Str) (signingKey : Crypto.PublicKey curves)
    (recoveryKeys : List (Crypto.PublicKey curves)) (rotation : Crypto.Keypair curves) :
    Except (Error Cid) Operation := do
  let operation : Operation :=
    { kind := OPERATION
      rotationKeys := recoveryKeys.map (·.toText base58) ++ [rotation.publicKey.toText base58]
      verificationMethods := .single ATPROTO (signingKey.toText base58)
      alsoKnownAs := [text "at://" ++ handle.str]
      services := .single PDS ⟨PDS_TYPE, pds⟩
      prev := none
      sig := none }
  let payload ← operation.payload Cid
  return { operation with sig := some (base64.encode (rotation.sign payload)) }

/-- The identifier this operation mints. -/
def did (operation : Operation) : Except (Error Cid) Did := do
  let bytes ← encoded operation.toIpld
  let identifier := (base32 (Codec.sha256 Cid bytes).toList).take LENGTH
  match Did.parse (text "did:plc:" ++ identifier) with
  | .ok did => .ok did
  | .error _ => .error .panic

variable (curves)

/-- Checks the operation against the keys it carries. -/
def verify (operation : Operation) : Except (Error Cid) Unit :=
  if operation.kind ≠ OPERATION then .error (.malformed "not a plc operation")
  else match operation.sig with
    | none => .error (.malformed "operation carries no signature")
    | some sig => match base64.decode sig with
      | none => .error .signature
      | some signature => do
        let payload ← operation.payload Cid
        let keys : List (Crypto.PublicKey curves) := operation.rotationKeys.filterMap fun key =>
          (PublicKey.parse base58 key).toOption
        if keys.any fun key => (key.verify payload signature).isOk then .ok ()
        else .error .signature

end Operation

variable (Cid)

/-- Builds the operation that retires what `previous` created, and signs it. -/
def Tombstone.create [CidText Cid] (previous : Operation) (rotation : Crypto.Keypair curves) :
    Except (Error Cid) Tombstone := do
  let bytes ← encoded (previous.toIpld : Ipld Cid)
  let tombstone : Tombstone := ⟨TOMBSTONE, CidText.toText (cidFor bytes : Cid), none⟩
  let payload ← encoded (tombstone.toIpld : Ipld Cid)
  return { tombstone with sig := some (base64.encode (rotation.sign payload)) }

/-! ## What one stands for -/

variable {Cid} {base58} {base64} [LawfulCodec Cid]

theorem exists_encoded {v : Ipld Cid} (hw : v.wf = true) (hp : v.plain = true) :
    ∃ bytes, encoded v = .ok bytes := by
  obtain ⟨bytes, hbytes⟩ := LawfulCodec.toVec_ok hw hp
  refine ⟨bytes, mapError_ok_iff.mpr (mapError_ok_iff.mpr hbytes)⟩

theorem encoded_inj {v w : Ipld Cid} {bytes : Bytes} (hv : v.wf = true) (hw : w.wf = true)
    (h : encoded v = .ok bytes) (h' : encoded w = .ok bytes) : v = w :=
  LawfulCodec.toVec_injective hv hw (mapError_ok_iff.mp (mapError_ok_iff.mp h))
    (mapError_ok_iff.mp (mapError_ok_iff.mp h'))

/-- The letters of an identifier, which are those of fifteen bytes. -/
def identifier (digest : Vector Byte 32) : Str := rfc4648 (digest.toList.take 15)

theorem take_base32 (digest : Vector Byte 32) :
    (base32 digest.toList).take LENGTH = identifier digest := by
  have hlen : 5 * 3 ≤ digest.toList.length := by simp
  rw [base32_eq]
  exact take_rfc4648 hlen

theorem identifier_valid (digest : Vector Byte 32) :
    Did.validate (text "did:plc:" ++ identifier digest) = .ok () := by
  have hlen : (identifier digest).length = 24 := by
    rw [identifier, length_rfc4648]
    simp
  have hall : ∀ b ∈ alphabet, Did.isAllowed b = true ∧ b ≠ ascii ':' ∧ b ≠ ascii '%' := by
    decide +kernel
  have hletters : ∀ b ∈ identifier digest,
      Did.isAllowed b = true ∧ b ≠ ascii ':' ∧ b ≠ ascii '%' :=
    fun b hb => hall b (mem_alphabet_of_mem hb)
  have hne : identifier digest ≠ [] := by
    intro h
    rw [h] at hlen
    cases hlen
  have hstrip : Str.stripPrefix (text "did:") (text "did:plc:" ++ identifier digest) =
      some (text "plc:" ++ identifier digest) := rfl
  have hsplit : (text "plc:" ++ identifier digest).splitOnce (ascii ':') =
      some (text "plc", identifier digest) := rfl
  have hallowed : (identifier digest).all Did.isAllowed = true :=
    List.all_eq_true.mpr fun b hb => (hletters b hb).1
  have hlast : ¬((identifier digest).getLast? = some (ascii ':') ∨
      (identifier digest).getLast? = some (ascii '%')) := by
    rintro (h | h)
    · exact (hletters _ (List.mem_of_getLast? h)).2.1 rfl
    · exact (hletters _ (List.mem_of_getLast? h)).2.2 rfl
  have hshort : ¬Did.maxLen < (text "did:plc:" ++ identifier digest).length := by
    rw [List.length_append, hlen]
    decide
  have hmethod : ¬(text "plc" = [] ∨ (text "plc").all Byte.isAsciiLowercase = false) := by decide
  rw [Did.validate, if_neg hshort, hstrip]
  dsimp only
  rw [hsplit]
  dsimp only
  rw [if_neg hmethod, if_neg hne, if_neg (by simp [hallowed]), if_neg hlast]

namespace Operation

/-- Every operation mints an identifier: fifteen bytes of its hash, spelled out. -/
theorem exists_did (Cid : Type) [Codec Cid] [LawfulCodec Cid] (operation : Operation) :
    ∃ bytes did, encoded (operation.toIpld : Ipld Cid) = .ok bytes ∧ operation.did Cid = .ok did ∧
    did.str = text "did:plc:" ++ identifier (Codec.sha256 Cid bytes) := by
  obtain ⟨bytes, hbytes⟩ : ∃ bytes, encoded (operation.toIpld : Ipld Cid) = .ok bytes :=
    exists_encoded operation.wf_toIpld operation.plain_toIpld
  obtain ⟨did, hdid⟩ : ∃ did : Did,
      did.str = text "did:plc:" ++ identifier (Codec.sha256 Cid bytes) :=
    ⟨⟨_, identifier_valid _⟩, rfl⟩
  refine ⟨bytes, did, hbytes, ?_, hdid⟩
  have hparse := Did.parse_eq_ok.mpr hdid
  unfold Operation.did
  rw [hbytes]
  simp only [bind, Except.bind, take_base32, hparse]

/-- Two operations whose hashes agree in the bytes that an identifier keeps. -/
def Collides (Cid : Type) [Codec Cid] (operation other : Operation) : Prop :=
  ∃ bytes bytes', encoded (operation.toIpld : Ipld Cid) = .ok bytes ∧
    encoded (other.toIpld : Ipld Cid) = .ok bytes' ∧ bytes ≠ bytes' ∧
    (Codec.sha256 Cid bytes).toList.take 15 = (Codec.sha256 Cid bytes').toList.take 15

/-- An identifier is of one operation, unless hashes collide. -/
theorem eq_or_collides {operation other : Operation} {did : Did}
    (h : operation.did Cid = .ok did) (h' : other.did Cid = .ok did) :
    other = operation ∨ Collides Cid operation other := by
  obtain ⟨bytes, held, hbytes, hheld, hstr⟩ := operation.exists_did Cid
  obtain ⟨bytes', held', hbytes', hheld', hstr'⟩ := other.exists_did Cid
  obtain rfl := Except.ok.inj (hheld.symm.trans h)
  obtain rfl := Except.ok.inj (hheld'.symm.trans h')
  have hsame := List.append_cancel_left (hstr.symm.trans hstr')
  by_cases he : bytes = bytes'
  · subst he
    left
    exact toIpld_injective
      (encoded_inj other.wf_toIpld operation.wf_toIpld hbytes' hbytes)
  · right
    exact ⟨bytes, bytes', hbytes, hbytes', he, rfc4648_injective hsame⟩

/-- The keys that an operation lists, as far as they can be read. -/
theorem mem_keys {held : List Str} {key : Crypto.PublicKey curves} :
    (key ∈ held.filterMap fun text => (PublicKey.parse base58 text).toOption) ↔
      ∃ text ∈ held, PublicKey.parse base58 text = .ok key := by
  rw [List.mem_filterMap]
  apply exists_congr
  intro text
  cases PublicKey.parse base58 text <;> simp [Except.toOption]

omit [LawfulCodec Cid] in
/-- What verifies is signed, all but the signature, under a key that it lists. -/
theorem verify_eq_ok (hbase64 : base64.Lawful) {operation : Operation} :
    operation.verify Cid curves base58 base64 = .ok () ↔
    operation.kind = OPERATION ∧ ∃ signature payload, ∃ key : Crypto.PublicKey curves,
      operation.sig = some (base64.encode signature) ∧ operation.payload Cid = .ok payload ∧
      (∃ held ∈ operation.rotationKeys, PublicKey.parse base58 held = .ok key) ∧
      key.verify payload signature = .ok () := by
  constructor
  · intro h
    unfold verify at h
    split_ifs at h with hkind
    refine ⟨not_not.mp hkind, ?_⟩
    cases hsig : operation.sig with
    | none =>
      rw [hsig] at h
      cases h
    | some sig =>
      rw [hsig] at h
      dsimp only at h
      cases hdecode : base64.decode sig with
      | none =>
        rw [hdecode] at h
        cases h
      | some signature =>
        rw [hdecode] at h
        obtain ⟨payload, hpayload, h⟩ := bind_ok_iff.mp h
        split_ifs at h with hany
        obtain ⟨key, hkey, hverify⟩ := List.any_eq_true.mp hany
        have hok : key.verify payload signature = .ok () := by
          cases hv : key.verify payload signature with
          | ok u => rfl
          | error e =>
            rw [hv] at hverify
            cases hverify
        rw [hbase64.decode_eq_some.mp hdecode]
        exact ⟨signature, payload, key, rfl, hpayload, mem_keys.mp hkey, hok⟩
  · rintro ⟨hkind, signature, payload, key, hsig, hpayload, hlisted, hverify⟩
    have hany : ((operation.rotationKeys.filterMap fun text =>
        (PublicKey.parse base58 text).toOption).any fun key : Crypto.PublicKey curves =>
          (key.verify payload signature).isOk) = true := by
      rw [List.any_eq_true]
      refine ⟨key, mem_keys.mpr hlisted, ?_⟩
      rw [hverify]
      rfl
    unfold verify
    rw [if_neg (not_not.mpr hkind), hsig]
    dsimp only
    rw [hbase64.decode_eq_some.mpr rfl]
    dsimp only
    rw [hpayload]
    exact if_pos hany

/-- What is created verifies under the keys it lists. -/
theorem exists_create (Cid : Type) [Codec Cid] [LawfulCodec Cid] (hc : curves.Lawful)
    (hb : base58.Lawful) (hbase64 : base64.Lawful) (handle : Handle) (pds : Str)
    (signingKey : Crypto.PublicKey curves) (recoveryKeys : List (Crypto.PublicKey curves))
    (rotation : Crypto.Keypair curves) :
    ∃ operation : Operation,
      create Cid base58 base64 handle pds signingKey recoveryKeys rotation = .ok operation ∧
      operation.verify Cid curves base58 base64 = .ok () ∧
      operation.verificationMethods = .single ATPROTO (signingKey.toText base58) := by
  obtain ⟨unsigned, hunsigned⟩ : ∃ unsigned : Operation, unsigned =
      { kind := OPERATION
        rotationKeys := recoveryKeys.map (·.toText base58) ++ [rotation.publicKey.toText base58]
        verificationMethods := .single ATPROTO (signingKey.toText base58)
        alsoKnownAs := [text "at://" ++ handle.str]
        services := .single PDS ⟨PDS_TYPE, pds⟩
        prev := none
        sig := none } := ⟨_, rfl⟩
  have hlisted : rotation.publicKey.toText base58 ∈ unsigned.rotationKeys := by
    rw [hunsigned]
    exact List.mem_append_right _ (List.mem_singleton_self _)
  obtain ⟨payload, hpayload⟩ : ∃ payload, unsigned.payload Cid = .ok payload :=
    exists_encoded (wf_toIpld _) (plain_toIpld _)
  refine ⟨{ unsigned with sig := some (base64.encode (rotation.sign payload)) }, ?_, ?_, ?_⟩
  · unfold create
    rw [← hunsigned]
    simp only [hpayload, bind, Except.bind, pure, Except.pure]
  · rw [verify_eq_ok hbase64]
    refine ⟨by rw [hunsigned], rotation.sign payload, payload, rotation.publicKey, rfl, hpayload,
      ⟨_, hlisted, PublicKey.parse_toText hc hb _⟩, PublicKey.verify_sign hc rotation payload⟩
  · rw [hunsigned]

end Operation

/-- A tombstone names the operation it follows, and is signed. -/
theorem Tombstone.exists_create (Cid : Type) [Codec Cid] [LawfulCodec Cid] [CidText Cid]
    (base64 : Auth.Engine) (previous : Operation) (rotation : Crypto.Keypair curves) :
    ∃ tombstone bytes payload,
    Tombstone.create Cid base64 previous rotation = .ok tombstone ∧
    encoded (previous.toIpld : Ipld Cid) = .ok bytes ∧
    tombstone.prev = CidText.toText (cidFor bytes : Cid) ∧
    encoded ({ tombstone with sig := none }.toIpld : Ipld Cid) = .ok payload ∧
    tombstone.sig = some (base64.encode (rotation.sign payload)) := by
  obtain ⟨bytes, hbytes⟩ : ∃ bytes, encoded (previous.toIpld : Ipld Cid) = .ok bytes :=
    exists_encoded previous.wf_toIpld previous.plain_toIpld
  obtain ⟨unsigned, hunsigned⟩ : ∃ unsigned : Tombstone,
    unsigned = ⟨TOMBSTONE, CidText.toText (cidFor bytes : Cid), none⟩ := ⟨_, rfl⟩
  obtain ⟨payload, hpayload⟩ : ∃ payload, encoded (unsigned.toIpld : Ipld Cid) = .ok payload :=
    exists_encoded unsigned.wf_toIpld unsigned.plain_toIpld
  subst hunsigned
  refine ⟨⟨TOMBSTONE, CidText.toText (cidFor bytes : Cid),
    some (base64.encode (rotation.sign payload))⟩, bytes, payload, ?_, hbytes, rfl, hpayload, rfl⟩
  unfold Tombstone.create
  simp only [hbytes, hpayload, bind, Except.bind, pure, Except.pure]

end

end Plc

/-! ## Commits under the same keys -/

namespace Crypto

/-- What a signature is refused with. -/
def Error.message : Error → String
  | .notDidKey => "not a did:key"
  | .unsupportedKey => "not a key on an allowed curve"
  | .malformedKey => "malformed key"
  | .malformedSignature => "signature is not 64 bytes"
  | .highS => "signature does not use the low half of the curve"
  | .badSignature => "signature does not verify"

variable {curves : Curves}

/-- What a repository signs its commits with. -/
def Keypair.signer (keypair : Keypair curves) : Manapds.Keypair := ⟨keypair.sign⟩

/-- What a commit is checked with. -/
def PublicKey.verifier (key : PublicKey curves) : Manapds.PublicKey :=
  ⟨fun message signature => (key.verify message signature).mapError Error.message⟩

theorem verify_commit {Cid : Type} [Codec Cid] (hc : curves.Lawful) {did : Did} {rev : Tid}
    {data : Cid} {keypair : Keypair curves} {commit : Commit Cid}
    (h : Commit.sign did rev data keypair.signer = .ok commit) :
    commit.verify keypair.publicKey.verifier = .ok () := by
  apply Commit.verify_of_sign h
  intro message
  change (keypair.publicKey.verify message (keypair.sign message)).mapError Error.message = .ok ()
  rw [PublicKey.verify_sign hc]
  rfl

end Crypto

open Plc Crypto

/-- A signup's first operation verifies under the keys it lists and mints an identifier, which no
other operation mints unless hashes collide. The key it names is one every commit the account signs
verifies under. The tombstone that would retire it is signed by the same key as it is and names it:
what follows any other operation names something else. -/
theorem operation_commits {Cid : Type} [Codec Cid] [LawfulCodec Cid] [CidText Cid]
    [LawfulCidText Cid] {curves : Curves} {base58 : Base58} {base64 : Auth.Engine}
    (hc : curves.Lawful) (hb : base58.Lawful) (hbase64 : base64.Lawful) (handle : Handle) (pds : Str)
    (signingKey : Crypto.PublicKey curves) (recoveryKeys : List (Crypto.PublicKey curves))
    (rotation : Crypto.Keypair curves) :
    ∃ operation did tombstone payload,
      Operation.create Cid base58 base64 handle pds signingKey recoveryKeys rotation = .ok operation ∧
      operation.verify Cid curves base58 base64 = .ok () ∧ operation.did Cid = .ok did ∧
      (∀ other : Operation, ∃ did', other.did Cid = .ok did' ∧
        (did' = did → other = operation ∨ operation.Collides Cid other)) ∧
      (∀ keypair : Crypto.Keypair curves, keypair.publicKey = signingKey →
        ∃ (named : Str) (key : Crypto.PublicKey curves),
          (ATPROTO, named) ∈ operation.verificationMethods.entries ∧
          PublicKey.parse base58 named = .ok key ∧
          ∀ (account : Did) (rev : Tid) (data : Cid) (commit : Commit Cid),
            Commit.sign account rev data keypair.signer = .ok commit →
            commit.verify key.verifier = .ok ()) ∧
      Tombstone.create Cid base64 operation rotation = .ok tombstone ∧
      encoded ({ tombstone with sig := none }.toIpld : Ipld Cid) = .ok payload ∧
      tombstone.sig = some (base64.encode (rotation.sign payload)) ∧
      rotation.publicKey.verify payload (rotation.sign payload) = .ok () ∧
      ∀ (other : Operation) (keypair : Crypto.Keypair curves) (tombstone' : Tombstone),
        Tombstone.create Cid base64 other keypair = .ok tombstone' →
        (tombstone'.prev = tombstone.prev ↔ other = operation) := by
  obtain ⟨operation, hcreate, hverify, hmethods⟩ :=
    Operation.exists_create Cid hc hb hbase64 handle pds signingKey recoveryKeys rotation
  obtain ⟨bytes, did, hbytes, hdid, -⟩ := operation.exists_did Cid
  obtain ⟨tombstone, bytes', payload, htomb, hbytes', hprev, hpayload, hsig⟩ :=
    Tombstone.exists_create Cid base64 operation rotation
  refine ⟨operation, did, tombstone, payload, hcreate, hverify, hdid, ?_, ?_, htomb, hpayload, hsig,
    PublicKey.verify_sign hc rotation payload, ?_⟩
  · intro other
    obtain ⟨-, did', -, hother, -⟩ := other.exists_did Cid
    refine ⟨did', hother, ?_⟩
    rintro rfl
    exact Operation.eq_or_collides hdid hother
  · rintro keypair rfl
    refine ⟨_, keypair.publicKey, ?_, PublicKey.parse_toText hc hb keypair.publicKey, ?_⟩
    · rw [hmethods]
      exact List.mem_singleton_self _
    · exact fun account rev data commit hsign => verify_commit hc hsign
  · intro other keypair tombstone' hother
    obtain ⟨held, named, -, hheld, hnamed, hprev', -, -⟩ :=
      Tombstone.exists_create Cid base64 other keypair
    obtain rfl := Except.ok.inj (hheld.symm.trans hother)
    constructor
    · intro he
      rw [hprev, hprev'] at he
      have hcid := LawfulCodec.cidFor_injective (LawfulCidText.toText_injective he)
      rw [hcid] at hnamed
      exact Operation.toIpld_injective
        (encoded_inj other.wf_toIpld operation.wf_toIpld hnamed hbytes')
    · rintro rfl
      rw [hprev, hprev', Except.ok.inj (hnamed.symm.trans hbytes')]

/-! ## The operation the code is tested with -/

namespace Plc.Genesis

variable {Cid : Type}

theorem handle_valid : Handle.validate (text "alice.test") = .ok () := by decide

def handle : Handle := ⟨text "alice.test", handle_valid⟩

theorem did_valid : Did.validate (text "did:plc:mav423b24thku7ezkx7yaray") = .ok () := rfl

def did : Did := ⟨text "did:plc:mav423b24thku7ezkx7yaray", did_valid⟩

def signingPoint : Vector Byte 33 :=
  #v[0x03, 0x87, 0x4c, 0x15, 0xc7, 0xfd, 0xa2, 0x0e, 0x53, 0x9c, 0x6e, 0x5b, 0xa5, 0x73, 0xc1,
    0x39, 0x88, 0x4c, 0x35, 0x11, 0x88, 0x79, 0x9f, 0x54, 0x58, 0xb4, 0xb4, 0x1f, 0x79, 0x24,
    0xf2, 0x35, 0xcd]

def rotationPoint : Vector Byte 33 :=
  #v[0x02, 0x24, 0x9f, 0xe0, 0xee, 0xe7, 0xdf, 0x59, 0x1f, 0xaa, 0x62, 0xd6, 0x61, 0xaa, 0xa1,
    0xcf, 0x72, 0x1a, 0x58, 0xb6, 0xbe, 0x7e, 0x44, 0x69, 0xe5, 0x3a, 0x98, 0xe5, 0x4b, 0x56,
    0x4b, 0xcd, 0xaa]

def base58 : Base58 :=
  spelled [([0xe7, 0x01] ++ signingPoint.toList,
      text "Q3shokFTS3brHcDQrn82RUDfCZESWL1ZdCEJwekUDPQiYBme"),
    ([0xe7, 0x01] ++ rotationPoint.toList,
      text "Q3shPskqAh6LCubaUvKZfoddMNTxC8yk27xWBrpxpGXs2Mof")]

theorem lawful_base58 : base58.Lawful := lawful_spelled (by decide) (by decide)

def unsigned : Operation where
  kind := text "plc_operation"
  rotationKeys := [text "did:key:zQ3shPskqAh6LCubaUvKZfoddMNTxC8yk27xWBrpxpGXs2Mof"]
  verificationMethods := .single (text "atproto")
    (text "did:key:zQ3shokFTS3brHcDQrn82RUDfCZESWL1ZdCEJwekUDPQiYBme")
  alsoKnownAs := [text "at://alice.test"]
  services := .single (text "atproto_pds")
    ⟨text "AtprotoPersonalDataServer", text "https://pds.test"⟩
  prev := none
  sig := none

def operation : Operation :=
  { unsigned with
    sig := some (text
      "I03qbyPndzmhcpDXSYZpRgVRvjqCY9a7nhdWLW2OpaJz_Q6ZbqmPKeKB6LD6epZed3xfavbHRMDyYsSZrVMRgw") }

theorem signature_bounds :
    (0 < 0x234dea6f23e77739a17290d7498669460551be3a8263d6bb9e17562d6d8ea5a2 ∧
      0x234dea6f23e77739a17290d7498669460551be3a8263d6bb9e17562d6d8ea5a2 < order .secp256k1) ∧
    0 < 0x73fd0e996ea98f29e281e8b0fa7a965e777c5f6af6c744c0f262c499ad531183 ∧
      0x73fd0e996ea98f29e281e8b0fa7a965e777c5f6af6c744c0f262c499ad531183 < order .secp256k1 := by
  simp [order]

/-- What the rotation key makes of the operation. -/
def signature : Scalars .secp256k1 := ⟨_, _, signature_bounds.1, signature_bounds.2⟩

theorem tombstone_bounds :
    (0 < 0x95988014cb89f951b6abf36331049fff0108eb60abf81d5cf5a17cc1e4a64337 ∧
      0x95988014cb89f951b6abf36331049fff0108eb60abf81d5cf5a17cc1e4a64337 < order .secp256k1) ∧
    0 < 0x1bd24627233e0e6419b9150dd16a9527ab1b9499f92cbc877631d9a793faa59f ∧
      0x1bd24627233e0e6419b9150dd16a9527ab1b9499f92cbc877631d9a793faa59f < order .secp256k1 := by
  simp [order]

/-- What it makes of the tombstone. -/
def tombstoneSignature : Scalars .secp256k1 := ⟨_, _, tombstone_bounds.1, tombstone_bounds.2⟩

theorem one_bounds : 0 < 1 ∧ 1 < order .p256 := ⟨Nat.one_pos, one_lt_p256⟩

/-- Signatures where this is what is signed first. -/
noncomputable def signed (payload : Bytes) : (a : Algorithm) → Bytes → Scalars a
  | .secp256k1, message => if message = payload then signature else tombstoneSignature
  | .p256, _ => ⟨1, 1, one_bounds, one_bounds⟩

theorem signed_self (payload : Bytes) : signed payload .secp256k1 payload = signature := if_pos rfl

noncomputable def curves : Curves := listed (signed (DagCbor.enc unsigned.toIpld))

theorem lawful_curves : curves.Lawful := lawful_listed _

noncomputable def rotation : Crypto.Keypair curves := ⟨.secp256k1, rotationPoint⟩

noncomputable def signingKey : Crypto.PublicKey curves := ⟨.secp256k1, signingPoint⟩

/-- The sha-256 of the operation. -/
def digest : ℕ := 0x602bcd6c3ae4ceaa7c9955ff804418c2905ad3d3f04fa50e5f0d866091992ab5

def digestBytes : Vector Byte 32 :=
  ⟨(DagCbor.bigEndian 32 digest).toArray, by
    rw [List.size_toArray, DagCbor.length_bigEndian]⟩

/-- A codec under other hashes. -/
@[reducible] def rehashed (codec : Codec Cid) (sha256 : Bytes → Vector Byte 32)
    (cidFor : Bytes → Cid) : Codec Cid where
  sha256 := sha256
  cidFor := cidFor
  toVec := codec.toVec
  nodeFromSlice := codec.nodeFromSlice
  commitFromSlice := codec.commitFromSlice

theorem lawful_rehashed {codec : Codec Cid} (base : LawfulCodec Cid)
    (sha256 : Bytes → Vector Byte 32) {cidFor : Bytes → Cid} (h : Function.Injective cidFor) :
    @LawfulCodec Cid (rehashed codec sha256 cidFor) :=
  @LawfulCodec.mk Cid (rehashed codec sha256 cidFor) h base.toVec_injective base.toVec_ok
    base.nodeFromSlice_toVec base.commitFromSlice_toVec

theorem encoded_rehashed (codec : Codec Cid) (sha256 : Bytes → Vector Byte 32)
    (cidFor : Bytes → Cid) (v : Ipld Cid) :
    @encoded Cid (rehashed codec sha256 cidFor) v = encoded v := rfl

theorem encoded_toIpld (operation : Operation) :
    encoded (operation.toIpld : Ipld RawCid) = .ok (DagCbor.enc operation.toIpld) :=
  mapError_ok_iff.mpr (mapError_ok_iff.mpr (toVec_eq_ok.mpr ⟨operation.plain_toIpld, rfl⟩))

theorem payload_rehashed (sha256 : Bytes → Vector Byte 32) (cidFor : Bytes → RawCid)
    (operation : Operation) :
    @Operation.payload RawCid (rehashed inferInstance sha256 cidFor) operation =
      .ok (DagCbor.enc { operation with sig := none }.toIpld) := by
  unfold Operation.payload
  rw [encoded_rehashed, encoded_toIpld]

/-- The hash of one encoding, where it is known. -/
def knownDigest (encoding bytes : Bytes) : Vector Byte 32 :=
  if bytes = encoding then digestBytes else Vector.replicate 32 0

def knownCid (encoding bytes : Bytes) : RawCid :=
  if bytes = encoding then DagCbor.cidOf digest else ⟨0 :: bytes⟩

theorem knownDigest_self (encoding : Bytes) : knownDigest encoding encoding = digestBytes :=
  if_pos rfl

theorem knownCid_self (encoding : Bytes) : knownCid encoding encoding = DagCbor.cidOf digest :=
  if_pos rfl

theorem knownCid_injective (encoding : Bytes) : Function.Injective (knownCid encoding) := by
  intro bytes bytes' h
  unfold knownCid at h
  split_ifs at h with hb hb' hb'
  · rw [hb, hb']
  · cases congrArg (fun cid => cid.bytes.head?) h
  · cases congrArg (fun cid => cid.bytes.head?) h
  · exact (List.cons.inj (congrArg RawCid.bytes h)).2

/-- The codec of the repository, with the hash of the operation. -/
@[reducible] noncomputable def codec : Codec RawCid :=
  rehashed inferInstance (knownDigest (DagCbor.enc operation.toIpld))
    (knownCid (DagCbor.enc operation.toIpld))

theorem lawful_codec : @LawfulCodec RawCid codec :=
  lawful_rehashed inferInstance _ (knownCid_injective _)

theorem encoded_operation :
    @encoded RawCid codec operation.toIpld = .ok (DagCbor.enc operation.toIpld) :=
  (encoded_rehashed _ _ _ _).trans (encoded_toIpld operation)

/-- A CID in base32, behind the letter for that. -/
@[reducible] def cidBase32 : CidText RawCid := ⟨fun cid => ascii 'b' :: rfc4648 cid.bytes⟩

theorem lawful_cidBase32 : @LawfulCidText RawCid cidBase32 := by
  refine @LawfulCidText.mk RawCid cidBase32 ?_
  intro cid cid' h
  have hbytes := rfc4648_injective (List.cons.inj h).2
  cases cid
  cases cid'
  cases hbytes
  rfl

theorem low_signature : signature.low = signature := by simp [Scalars.low, signature, order]

theorem encode_signature : some (Auth.urlSafeNoPad.encode signature.bytes) = operation.sig := by decide

theorem toText_rotation : rotation.publicKey.toText base58 =
    text "did:key:zQ3shPskqAh6LCubaUvKZfoddMNTxC8yk27xWBrpxpGXs2Mof" := by decide

theorem toText_signingKey : signingKey.toText base58 =
    text "did:key:zQ3shokFTS3brHcDQrn82RUDfCZESWL1ZdCEJwekUDPQiYBme" := by decide

theorem sign_unsigned : rotation.sign (DagCbor.enc unsigned.toIpld) = signature.bytes := by
  have h : rotation.sign (DagCbor.enc unsigned.toIpld) =
      (signed (DagCbor.enc unsigned.toIpld) .secp256k1 (DagCbor.enc unsigned.toIpld)).low.bytes :=
    sign_listed rotationPoint _
  rw [h, signed_self, low_signature]

theorem create_eq : @Operation.create RawCid codec curves base58 Auth.urlSafeNoPad handle
    (text "https://pds.test") signingKey [] rotation = .ok operation := by
  unfold Operation.create
  rw [toText_rotation, toText_signingKey]
  have hpayload : @Operation.payload RawCid codec unsigned = .ok (DagCbor.enc unsigned.toIpld) :=
    payload_rehashed _ _ unsigned
  change (@Operation.payload RawCid codec unsigned >>= fun payload =>
    Except.ok { unsigned with sig := some (Auth.urlSafeNoPad.encode (rotation.sign payload)) }) = _
  rw [hpayload]
  simp only [bind, Except.bind, sign_unsigned, encode_signature]
  rfl

theorem identifier_eq : text "did:plc:" ++ identifier digestBytes = did.str := by decide +kernel

theorem did_eq : @Operation.did RawCid codec operation = .ok did := by
  obtain ⟨bytes, held, hbytes, hheld, hstr⟩ :=
    @Operation.exists_did RawCid codec lawful_codec operation
  obtain rfl := Except.ok.inj (encoded_operation.symm.trans hbytes)
  change held.str = text "did:plc:" ++ identifier (knownDigest _ _) at hstr
  rw [knownDigest_self, identifier_eq] at hstr
  obtain rfl : held = did := Did.ext hstr
  exact hheld

theorem toText_knownCid : cidBase32.toText (DagCbor.cidOf digest) =
    text "bafyreidafpgwyoxez2vhzgkv76aeiggcsbnnhu7qj6sq4xynqzqjdgjkwu" := by decide +kernel

end Plc.Genesis

open Plc.Genesis in
/-- The operation, the identifier and the tombstone that the code is tested with. -/
theorem operation_commits_genesis : ∃ tombstone,
    @Operation.create RawCid codec curves base58 Auth.urlSafeNoPad handle
      (text "https://pds.test") signingKey [] rotation = .ok operation ∧
    @Operation.did RawCid codec operation = .ok did ∧
    (∀ other, @Operation.did RawCid codec other = .ok did →
      other = operation ∨ @Operation.Collides RawCid codec operation other) ∧
    @Tombstone.create RawCid codec curves Auth.urlSafeNoPad cidBase32 operation rotation =
      .ok tombstone ∧
    tombstone.prev = text "bafyreidafpgwyoxez2vhzgkv76aeiggcsbnnhu7qj6sq4xynqzqjdgjkwu" := by
  obtain ⟨created, minted, tombstone, payload, hcreate, -, hdid, hothers, -, htomb, -⟩ :=
    @operation_commits RawCid codec lawful_codec cidBase32 lawful_cidBase32 curves base58
      Auth.urlSafeNoPad lawful_curves lawful_base58 Auth.urlSafeNoPad_lawful handle
      (text "https://pds.test") signingKey [] rotation
  obtain rfl := Except.ok.inj (create_eq.symm.trans hcreate)
  obtain rfl := Except.ok.inj (did_eq.symm.trans hdid)
  obtain ⟨held, bytes, -, hheld, hbytes, hprev, -, -⟩ :=
    @Tombstone.exists_create curves RawCid codec lawful_codec cidBase32 Auth.urlSafeNoPad operation
      rotation
  obtain rfl := Except.ok.inj (hheld.symm.trans htomb)
  obtain rfl := Except.ok.inj (encoded_operation.symm.trans hbytes)
  refine ⟨held, create_eq, did_eq, ?_, htomb, ?_⟩
  · intro other hother
    obtain ⟨did', hdid', honly⟩ := hothers other
    exact honly (Except.ok.inj (hdid'.symm.trans hother))
  · rw [hprev]
    change cidBase32.toText (knownCid _ _) = _
    rw [knownCid_self, toText_knownCid]

end Manapds
