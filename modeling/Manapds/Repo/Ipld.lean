import Manapds.Syntax.Identifier

/-!
# The data model, and the blocks a repository is made of

A record is an IPLD value. Nodes of the tree and commits are structures of their own, written as
maps of named fields; `toIpld` spells the map each one is serialized as. A map is held in key
order without repeats, which `Ipld.wf` says of every map inside a value.
-/

namespace Manapds

variable {Cid : Type}

/-- How a CID is written out. -/
class CidText (Cid : Type) where
  toText : Cid → Str

class LawfulCidText (Cid : Type) [CidText Cid] : Prop where
  toText_injective : Function.Injective (CidText.toText : Cid → Str)

inductive Ipld (Cid : Type) : Type where
  | null
  | bool (b : Bool)
  | integer (n : ℤ)
  /-- A float, as its bits. -/
  | float (bits : UInt64)
  | string (s : Str)
  | bytes (b : Bytes)
  | list (items : List (Ipld Cid))
  | map (fields : List (Str × Ipld Cid))
  | link (cid : Cid)

namespace Ipld

/-- `fields.get(name)` of a map. -/
def get (fields : List (Str × Ipld Cid)) (name : Str) : Option (Ipld Cid) :=
  (fields.find? (fun f => f.1 = name)).map Prod.snd

/-- The exponent of a float that is not finite has every bit set. -/
def isFinite (bits : UInt64) : Bool := (bits >>> 52) &&& 2047 != 2047

/-- dag-cbor writes a magnitude of up to eight bytes and a sign. -/
def fitsEightBytes (n : ℤ) : Bool := -18446744073709551616 ≤ n && n < 18446744073709551616

theorem fitsEightBytes_natCast {n : ℕ} (h : n < 18446744073709551616) :
    fitsEightBytes n = true := by
  simp only [fitsEightBytes, Bool.and_eq_true, decide_eq_true_eq]
  omega

mutual

/-- Every map inside is in key order without repeats. -/
def wf : Ipld Cid → Bool
  | .list items => wfItems items
  | .map fields => decide ((fields.map Prod.fst).Pairwise (· < ·)) && wfFields fields
  | _ => true

def wfItems : List (Ipld Cid) → Bool
  | [] => true
  | v :: rest => wf v && wfItems rest

def wfFields : List (Str × Ipld Cid) → Bool
  | [] => true
  | (_, v) :: rest => wf v && wfFields rest

end

mutual

/-- Nothing inside falls outside what dag-cbor writes. -/
def plain : Ipld Cid → Bool
  | .float bits => isFinite bits
  | .integer n => fitsEightBytes n
  | .list items => plainItems items
  | .map fields => plainFields fields
  | _ => true

def plainItems : List (Ipld Cid) → Bool
  | [] => true
  | v :: rest => plain v && plainItems rest

def plainFields : List (Str × Ipld Cid) → Bool
  | [] => true
  | (_, v) :: rest => plain v && plainFields rest

end

theorem wfItems_eq_all (items : List (Ipld Cid)) : wfItems items = items.all wf := by
  induction items with
  | nil => rfl
  | cons v rest ih => rw [wfItems, ih, List.all_cons]

theorem wfFields_eq_all (fields : List (Str × Ipld Cid)) :
    wfFields fields = fields.all fun f => f.2.wf := by
  induction fields with
  | nil => rfl
  | cons f rest ih => rw [wfFields, ih, List.all_cons]

theorem plainItems_eq_all (items : List (Ipld Cid)) : plainItems items = items.all plain := by
  induction items with
  | nil => rfl
  | cons v rest ih => rw [plainItems, ih, List.all_cons]

theorem plainFields_eq_all (fields : List (Str × Ipld Cid)) :
    plainFields fields = fields.all fun f => f.2.plain := by
  induction fields with
  | nil => rfl
  | cons f rest ih => rw [plainFields, ih, List.all_cons]

theorem wf_list (items : List (Ipld Cid)) : (list items).wf = items.all wf := by
  rw [wf, wfItems_eq_all]

theorem wf_map (fields : List (Str × Ipld Cid)) : (map fields).wf =
    (decide ((fields.map Prod.fst).Pairwise (· < ·)) && fields.all fun f => f.2.wf) := by
  rw [wf, wfFields_eq_all]

theorem plain_list (items : List (Ipld Cid)) : (list items).plain = items.all plain := by
  rw [plain, plainItems_eq_all]

theorem plain_map (fields : List (Str × Ipld Cid)) :
    (map fields).plain = fields.all fun f => f.2.plain := by
  rw [plain, plainFields_eq_all]

def ofLink : Option Cid → Ipld Cid
  | none => .null
  | some cid => .link cid

@[simp] theorem wf_ofLink (cid : Option Cid) : (ofLink cid).wf = true := by cases cid <;> rfl

@[simp] theorem plain_ofLink (cid : Option Cid) : (ofLink cid).plain = true := by cases cid <;> rfl

theorem ofLink_injective : Function.Injective (ofLink : Option Cid → Ipld Cid) := by
  intro a b h
  cases a <;> cases b <;> simp_all [ofLink]

end Ipld

/-- A value a record can hold: one whose maps are maps. -/
structure Value (Cid : Type) where
  ipld : Ipld Cid
  wf : ipld.wf = true

/-- One leaf and the subtree to its right, with the key compressed against the key before it. -/
structure TreeEntry (Cid : Type) where
  p : ℕ
  k : Bytes
  v : Cid
  t : Option Cid
deriving DecidableEq

/-- A node as it is stored: the leftmost subtree, then the entries. -/
structure NodeData (Cid : Type) where
  l : Option Cid
  e : List (TreeEntry Cid)
deriving DecidableEq

/-- A repository at one moment: whose it is, what it holds, and proof the account's signing key
agreed to it. -/
structure Commit (Cid : Type) where
  did : Did
  version : UInt8
  data : Cid
  rev : Tid
  prev : Option Cid
  sig : Bytes

def TreeEntry.toIpld (entry : TreeEntry Cid) : Ipld Cid :=
  .map [(text "k", .bytes entry.k), (text "p", .integer entry.p), (text "t", .ofLink entry.t),
    (text "v", .link entry.v)]

def NodeData.toIpld (node : NodeData Cid) : Ipld Cid :=
  .map [(text "e", .list (node.e.map TreeEntry.toIpld)), (text "l", .ofLink node.l)]

/-- What the signature is taken over: the commit without it. -/
def Commit.unsigned (commit : Commit Cid) : Ipld Cid :=
  .map [(text "data", .link commit.data), (text "did", .string commit.did.str),
    (text "prev", .ofLink commit.prev), (text "rev", .string commit.rev.str),
    (text "version", .integer commit.version.toNat)]

def Commit.toIpld (commit : Commit Cid) : Ipld Cid :=
  .map [(text "data", .link commit.data), (text "did", .string commit.did.str),
    (text "prev", .ofLink commit.prev), (text "rev", .string commit.rev.str),
    (text "sig", .bytes commit.sig), (text "version", .integer commit.version.toNat)]

theorem TreeEntry.wf_toIpld (entry : TreeEntry Cid) : entry.toIpld.wf = true := by
  have h : ([text "k", text "p", text "t", text "v"]).Pairwise (· < ·) := by decide
  rw [toIpld, Ipld.wf_map, Bool.and_eq_true, decide_eq_true_eq]
  exact ⟨h, by simp [Ipld.wf]⟩

theorem NodeData.wf_toIpld (node : NodeData Cid) : node.toIpld.wf = true := by
  have h : ([text "e", text "l"]).Pairwise (· < ·) := by decide
  rw [toIpld, Ipld.wf_map, Bool.and_eq_true, decide_eq_true_eq]
  exact ⟨h, by simp [Ipld.wf_list, TreeEntry.wf_toIpld]⟩

theorem Commit.wf_toIpld (commit : Commit Cid) : commit.toIpld.wf = true := by
  have h : ([text "data", text "did", text "prev", text "rev", text "sig",
    text "version"]).Pairwise (· < ·) := by decide
  rw [toIpld, Ipld.wf_map, Bool.and_eq_true, decide_eq_true_eq]
  exact ⟨h, by simp [Ipld.wf]⟩

theorem Commit.wf_unsigned (commit : Commit Cid) : commit.unsigned.wf = true := by
  have h : ([text "data", text "did", text "prev", text "rev", text "version"]).Pairwise (· < ·) := by
    decide
  rw [unsigned, Ipld.wf_map, Bool.and_eq_true, decide_eq_true_eq]
  exact ⟨h, by simp [Ipld.wf]⟩

theorem TreeEntry.plain_toIpld {entry : TreeEntry Cid} (h : entry.p < 18446744073709551616) :
    entry.toIpld.plain = true := by
  rw [toIpld, Ipld.plain_map]
  simp [Ipld.plain, Ipld.fitsEightBytes_natCast h]

theorem NodeData.plain_toIpld {node : NodeData Cid}
    (h : ∀ entry ∈ node.e, entry.p < 18446744073709551616) : node.toIpld.plain = true := by
  have he : (Ipld.list (node.e.map TreeEntry.toIpld)).plain = true := by
    rw [Ipld.plain_list, List.all_eq_true]
    intro v hv
    obtain ⟨entry, hm, rfl⟩ := List.mem_map.mp hv
    exact TreeEntry.plain_toIpld (h entry hm)
  rw [toIpld, Ipld.plain_map, List.all_cons, he, List.all_cons, Ipld.plain_ofLink]
  rfl

theorem fitsEightBytes_version (version : UInt8) :
    Ipld.fitsEightBytes version.toNat = true :=
  Ipld.fitsEightBytes_natCast (version.toNat_lt.trans (by decide))

theorem Commit.plain_toIpld (commit : Commit Cid) : commit.toIpld.plain = true := by
  have hv := fitsEightBytes_version commit.version
  rw [toIpld, Ipld.plain_map]
  simp [Ipld.plain, hv]

theorem Commit.plain_unsigned (commit : Commit Cid) : commit.unsigned.plain = true := by
  have hv := fitsEightBytes_version commit.version
  rw [unsigned, Ipld.plain_map]
  simp [Ipld.plain, hv]

theorem TreeEntry.toIpld_injective :
    Function.Injective (TreeEntry.toIpld : TreeEntry Cid → Ipld Cid) := by
  rintro ⟨p, k, v, t⟩ ⟨p', k', v', t'⟩ h
  simp only [toIpld, Ipld.map.injEq, List.cons.injEq, Prod.mk.injEq, true_and, and_true,
    Ipld.bytes.injEq, Ipld.integer.injEq, Ipld.link.injEq, Nat.cast_inj] at h
  obtain ⟨rfl, rfl, ht, rfl⟩ := h
  rw [Ipld.ofLink_injective ht]

theorem NodeData.toIpld_injective :
    Function.Injective (NodeData.toIpld : NodeData Cid → Ipld Cid) := by
  rintro ⟨l, e⟩ ⟨l', e'⟩ h
  simp only [toIpld, Ipld.map.injEq, List.cons.injEq, Prod.mk.injEq, true_and, and_true,
    Ipld.list.injEq] at h
  obtain ⟨he, hl⟩ := h
  rw [Ipld.ofLink_injective hl, List.map_injective_iff.mpr TreeEntry.toIpld_injective he]

theorem Commit.toIpld_injective : Function.Injective (Commit.toIpld : Commit Cid → Ipld Cid) := by
  rintro ⟨did, version, data, rev, prev, sig⟩ ⟨did', version', data', rev', prev', sig'⟩ h
  simp only [toIpld, Ipld.map.injEq, List.cons.injEq, Prod.mk.injEq, true_and, and_true,
    Ipld.bytes.injEq, Ipld.integer.injEq, Ipld.link.injEq, Ipld.string.injEq, Nat.cast_inj,
    UInt8.toNat_inj] at h
  obtain ⟨rfl, hd, hp, hr, rfl, rfl⟩ := h
  cases did; cases did'; cases rev; cases rev'
  cases hd; cases hr
  rw [Ipld.ofLink_injective hp]

end Manapds
