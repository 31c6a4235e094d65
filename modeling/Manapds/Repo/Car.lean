import Manapds.Repo.DagCbor

/-!
# CAR files

A length-prefixed header that names the roots, then every block as its CID followed by its bytes,
each behind the length of the two. Reading a file back checks that every block hashes to the CID it
arrived under, and gives back the blocks that were written.

The lengths, the binary form of a CID and its parts are the work of libraries, so they are fields of
`CarCodec`. A digest is whatever bytes the hash gives: that no two blocks share one is asked of it
here, where `Codec.sha256` only says how deep a key sits.
-/

namespace Manapds

variable {Cid : Type}

structure CarHeader (Cid : Type) where
  version : ℕ
  roots : List Cid

def CarHeader.toIpld (header : CarHeader Cid) : Ipld Cid :=
  .map [(text "roots", .list (header.roots.map .link)), (text "version", .integer header.version)]

class CarCodec (Cid : Type) where
  /-- `Cid::to_bytes` and `Cid::read_bytes`, the bytes after the CID being what is left to read. -/
  toBytes : Cid → Bytes
  readBytes : Bytes → Option (Cid × Bytes)
  /-- `Cid::hash`: the code of the hash and the digest. -/
  hashCode : Cid → ℕ
  hashDigest : Cid → Bytes
  /-- `Sha256::digest`. -/
  digest : Bytes → Bytes
  /-- `unsigned_varint::encode::u64` and `unsigned_varint::decode::u64`. What is written is only ever
  the length of a vector, which is below `2^63`. -/
  varint : ℕ → Bytes
  takeVarint : Bytes → Option (ℕ × Bytes)
  /-- `serde_ipld_dagcbor::from_slice`, at the type of a header. -/
  headerFromSlice : Bytes → Except String (CarHeader Cid)

def sha2256 : ℕ := 0x12

/-- What framing rests on: lengths, CIDs and headers that are read back as they were written. -/
class FrameCodec (Cid : Type) [Codec Cid] [CarCodec Cid] : Prop where
  readBytes_toBytes (cid : Cid) (rest : Bytes) :
    CarCodec.readBytes (CarCodec.toBytes cid ++ rest) = some (cid, rest)
  takeVarint_length (chunk rest : Bytes) :
    CarCodec.takeVarint Cid (CarCodec.varint Cid chunk.length ++ rest) = some (chunk.length, rest)
  varint_length_ne_nil (chunk : Bytes) : CarCodec.varint Cid chunk.length ≠ []
  headerFromSlice_toVec {header : CarHeader Cid} {b : Bytes} :
    Codec.toVec header.toIpld = .ok b → CarCodec.headerFromSlice b = .ok header

/-- What is asked besides of the CID of a block: it names its digest, and no two blocks have one. -/
class LawfulCarCodec (Cid : Type) [Codec Cid] [CarCodec Cid] : Prop extends FrameCodec Cid where
  hashCode_cidFor (b : Bytes) : CarCodec.hashCode (cidFor b : Cid) = sha2256
  hashDigest_cidFor (b : Bytes) :
    CarCodec.hashDigest (cidFor b : Cid) = CarCodec.digest Cid b
  digest_injective : Function.Injective (CarCodec.digest Cid)

namespace Car

/-! ## Writing -/

section

variable [CarCodec Cid]

/-- What a file opens with, naming the roots the blocks after it add up to. -/
def header [Codec Cid] (roots : List Cid) : Except (RepoError Cid) Bytes := do
  let header ← encode (CarHeader.toIpld ⟨1, roots⟩)
  return CarCodec.varint Cid header.length ++ header

/-- Writes one block onto the end of a file. -/
def push (car : Bytes) (cid : Cid) (bytes : Bytes) : Bytes :=
  car ++ CarCodec.varint Cid ((CarCodec.toBytes cid).length + bytes.length) ++
    CarCodec.toBytes cid ++ bytes

/-- One block as `push` writes it. -/
def frame (row : Cid × Bytes) : Bytes :=
  CarCodec.varint Cid ((CarCodec.toBytes row.1).length + row.2.length) ++
    (CarCodec.toBytes row.1 ++ row.2)

theorem foldl_push (car : Bytes) (rows : List (Cid × Bytes)) :
    rows.foldl (fun car row => push car row.1 row.2) car = car ++ rows.flatMap frame := by
  induction rows generalizing car with
  | nil => simp
  | cons row rows ih =>
    rw [List.foldl_cons, ih, List.flatMap_cons, push, frame]
    simp only [List.append_assoc]

/-! ## Reading -/

/-- Splits off one length-prefixed chunk, and what follows it. -/
def takeChunk (Cid : Type) [CarCodec Cid] (bytes : Bytes) :
    Except (RepoError Cid) (Bytes × Bytes) :=
  match CarCodec.takeVarint Cid bytes with
  | none => .error (.malformedCar "a length that is not a varint")
  | some (len, rest) =>
    if len ≤ rest.length then .ok (rest.splitAt len)
    else .error (.malformedCar "a length past the file")

def hashesTo (cid : Cid) (bytes : Bytes) : Bool :=
  CarCodec.hashCode cid = sha2256 && CarCodec.hashDigest cid = CarCodec.digest Cid bytes

variable [DecidableEq Cid]

/-- The blocks of a file after its header. A chunk is at least a byte, so the bytes there are bound
the rounds. -/
def readFrom : ℕ → Bytes → BlockMap Cid → Except (RepoError Cid) (BlockMap Cid)
  | _, [], blocks => .ok blocks
  | 0, _, _ => .error .unfinished
  | rounds + 1, rest, blocks => do
    let (chunk, next) ← takeChunk Cid rest
    match CarCodec.readBytes chunk with
    | none => .error (.malformedCar "a block under something that is not a CID")
    | some (cid, bytes) =>
      if hashesTo cid bytes then readFrom rounds next (blocks.insert cid bytes)
      else .error (.wrongCid cid)

def readRoots (car : Bytes) : Except (RepoError Cid) (List Cid × BlockMap Cid) := do
  let (header, rest) ← takeChunk Cid car
  let header ← (CarCodec.headerFromSlice header).mapError .decode
  if header.version = 1 then do
    let blocks ← readFrom rest.length rest ∅
    return (header.roots, blocks)
  else .error (.malformedCar "not a version 1 file")

/-- Reads a file back. -/
def read (car : Bytes) : Except (RepoError Cid) (Cid × BlockMap Cid) := do
  let (roots, blocks) ← readRoots car
  match roots with
  | [root] => if root ∈ blocks then .ok (root, blocks) else .error (.missingBlock root)
  | _ => .error (.malformedCar "not exactly one root")

end

/-! ## What was written is what is read -/

theorem hashesTo_cidFor [Codec Cid] [CarCodec Cid] [LawfulCarCodec Cid] {b b' : Bytes} :
    hashesTo (cidFor b : Cid) b' = true ↔ b = b' := by
  rw [hashesTo, Bool.and_eq_true, decide_eq_true_eq, decide_eq_true_eq,
    LawfulCarCodec.hashDigest_cidFor, LawfulCarCodec.digest_injective.eq_iff]
  exact and_iff_right (LawfulCarCodec.hashCode_cidFor b)

/-- The map of some rows, a later one standing for an earlier one of its CID. -/
def mapOf [DecidableEq Cid] (rows : List (Cid × Bytes)) (blocks : BlockMap Cid) : BlockMap Cid :=
  rows.foldl (fun blocks row => blocks.insert row.1 row.2) blocks

theorem lookup_mapOf [DecidableEq Cid] {rows : List (Cid × Bytes)}
    (hrows : (rows.map Prod.fst).Nodup) (blocks : BlockMap Cid) (c : Cid) :
    (mapOf rows blocks).lookup c = ((rows.find? fun row => row.1 = c).map Prod.snd).or
      (blocks.lookup c) := by
  induction rows generalizing blocks with
  | nil => rfl
  | cons row rows ih =>
    obtain ⟨hrow, hrows⟩ := List.nodup_cons.mp hrows
    rw [mapOf, List.foldl_cons, ← mapOf, ih hrows, List.find?_cons]
    by_cases hc : row.1 = c
    · subst hc
      have hnone : rows.find? (fun r => r.1 = row.1) = none := by
        rw [List.find?_eq_none]
        intro r hr he
        exact hrow (List.mem_map.mpr ⟨r, hr, of_decide_eq_true he⟩)
      simp [hnone]
    · simp [hc, AList.lookup_insert_ne (Ne.symm hc)]

theorem mem_mapOf [DecidableEq Cid] {rows : List (Cid × Bytes)} {blocks : BlockMap Cid} {c : Cid} :
    c ∈ mapOf rows blocks ↔ c ∈ rows.map Prod.fst ∨ c ∈ blocks := by
  induction rows generalizing blocks with
  | nil => simp [mapOf]
  | cons row rows ih =>
    rw [mapOf, List.foldl_cons, ← mapOf, ih, AList.mem_insert, List.map_cons, List.mem_cons,
      ← or_assoc, or_comm (a := c ∈ rows.map Prod.fst)]

variable [Codec Cid] [CarCodec Cid] [FrameCodec Cid]

theorem takeChunk_chunk (chunk rest : Bytes) :
    takeChunk Cid (CarCodec.varint Cid chunk.length ++ (chunk ++ rest)) = .ok (chunk, rest) := by
  have hle : chunk.length ≤ (chunk ++ rest).length := by simp
  rw [takeChunk, FrameCodec.takeVarint_length]
  simp only [if_pos hle, List.splitAt_eq, List.take_left', List.drop_left']

theorem takeChunk_frame (row : Cid × Bytes) (rest : Bytes) :
    takeChunk Cid (frame row ++ rest) = .ok (CarCodec.toBytes row.1 ++ row.2, rest) := by
  have h : takeChunk Cid (_ ++ (_ ++ rest)) = _ :=
    takeChunk_chunk (CarCodec.toBytes row.1 ++ row.2) rest
  rwa [List.length_append, ← List.append_assoc] at h

theorem length_le_frames (rows : List (Cid × Bytes)) :
    rows.length ≤ (rows.flatMap frame).length := by
  induction rows with
  | nil => simp
  | cons row rows ih =>
    have hpos : 0 < (frame row).length := by
      rw [frame, ← List.length_append, List.length_append]
      exact Nat.add_pos_left (List.length_pos_iff.mpr (FrameCodec.varint_length_ne_nil _)) _
    rw [List.flatMap_cons, List.length_append, List.length_cons]
    omega

variable [DecidableEq Cid]

theorem readFrom_frames {rows : List (Cid × Bytes)} (hrows : ∀ row ∈ rows, hashesTo row.1 row.2)
    {rounds : ℕ} (hle : rows.length ≤ rounds) (blocks : BlockMap Cid) :
    readFrom rounds (rows.flatMap frame) blocks = .ok (mapOf rows blocks) := by
  induction rows generalizing rounds blocks with
  | nil => cases rounds <;> rfl
  | cons row rows ih =>
    obtain ⟨n, rfl⟩ : ∃ n, rounds = n + 1 := ⟨rounds - 1, by simp at hle; omega⟩
    have hne : (row :: rows).flatMap frame ≠ [] := by
      have := length_le_frames (row :: rows)
      intro hn
      simp [hn] at this
    have hnext := ih (fun r hr => hrows r (List.mem_cons_of_mem row hr))
      (by simpa using hle : rows.length ≤ n) (blocks.insert row.1 row.2)
    have hchunk := takeChunk_frame row (rows.flatMap frame)
    rw [← List.flatMap_cons] at hchunk
    have hread : readFrom (n + 1) ((row :: rows).flatMap frame) blocks =
        readFrom n (rows.flatMap frame) (blocks.insert row.1 row.2) := by
      generalize (row :: rows).flatMap frame = bytes at hne hchunk
      cases bytes with
      | nil => exact absurd rfl hne
      | cons b bytes =>
        rw [readFrom, hchunk]
        · simp only [bind, Except.bind, FrameCodec.readBytes_toBytes,
            hrows row List.mem_cons_self, if_true]
        · exact hne
    rw [hread, hnext]
    rfl

omit [FrameCodec Cid] [DecidableEq Cid] in
theorem header_eq_ok {roots : List Cid} {opening : Bytes} (h : header roots = .ok opening) :
    ∃ b, encode (CarHeader.toIpld ⟨1, roots⟩) = .ok b ∧
      CarCodec.varint Cid b.length ++ b = opening := by
  unfold header at h
  cases hb : encode (CarHeader.toIpld ⟨1, roots⟩) with
  | error e =>
    rw [hb] at h
    cases h
  | ok b =>
    rw [hb] at h
    exact ⟨b, rfl, Except.ok.inj h⟩

/-- A file under one root is read back as what was written. -/
theorem read_frames {root : Cid} {rows : List (Cid × Bytes)} {opening : Bytes}
    (hopening : header [root] = .ok opening) (hrows : ∀ row ∈ rows, hashesTo row.1 row.2)
    (hroot : root ∈ rows.map Prod.fst) :
    read (opening ++ rows.flatMap frame) = .ok (root, mapOf rows ∅) := by
  obtain ⟨b, hb, rfl⟩ := header_eq_ok hopening
  have hchunk := @takeChunk_chunk Cid _ _ _ b (rows.flatMap frame)
  have hheader := FrameCodec.headerFromSlice_toVec (encode_eq_ok.mp hb)
  have hblocks := readFrom_frames hrows (length_le_frames rows) ∅
  have hmem : root ∈ mapOf rows ∅ := mem_mapOf.mpr (Or.inl hroot)
  rw [read, readRoots, List.append_assoc, hchunk]
  simp only [bind, Except.bind, hheader, Except.mapError, if_true, hblocks, pure, Except.pure,
    if_pos hmem]

end Car

/-! ## A codec for files -/

theorem CarHeader.wf_toIpld (header : CarHeader Cid) : header.toIpld.wf = true := by
  have h : ([text "roots", text "version"]).Pairwise (· < ·) := by decide
  rw [toIpld, Ipld.wf_map, Bool.and_eq_true, decide_eq_true_eq]
  refine ⟨h, ?_⟩
  simp [Ipld.wf, Ipld.wfItems_eq_all]

theorem CarHeader.toIpld_injective :
    Function.Injective (CarHeader.toIpld : CarHeader Cid → Ipld Cid) := by
  rintro ⟨version, roots⟩ ⟨version', roots'⟩ h
  simp only [toIpld, Ipld.map.injEq, List.cons.injEq, Prod.mk.injEq, true_and, and_true,
    Ipld.list.injEq, Ipld.integer.injEq, Nat.cast_inj] at h
  obtain ⟨hr, rfl⟩ := h
  have hlink : Function.Injective (Ipld.link : Cid → Ipld Cid) := fun a b hab => Ipld.link.inj hab
  rw [List.map_injective_iff.mpr hlink hr]

namespace DagCbor

/-- Seven bits to a byte, the low ones first, every byte but the last with its high bit set. -/
def varint (n : ℕ) : Bytes :=
  if n < 128 then [byte n] else byte (n % 128 + 128) :: varint (n / 128)

def takeVarint : Bytes → Option (ℕ × Bytes)
  | [] => none
  | b :: rest =>
    if b.val < 128 then some (b.val, rest)
    else (takeVarint rest).map fun p => (p.1 * 128 + (b.val - 128), p.2)

theorem takeVarint_varint (n : ℕ) (rest : Bytes) :
    takeVarint (varint n ++ rest) = some (n, rest) := by
  induction n using Nat.strongRecOn with
  | ind n ih =>
    rw [varint]
    split_ifs with hn
    · have hv : (byte n).val = n := Nat.mod_eq_of_lt (by omega)
      simp [takeVarint, hv, hn]
    · have hv : (byte (n % 128 + 128)).val = n % 128 + 128 := Nat.mod_eq_of_lt (by omega)
      have hdiv : n / 128 * 128 + n % 128 = n := by omega
      simp [takeVarint, hv, ih (n / 128) (by omega), hdiv]

theorem varint_ne_nil (n : ℕ) : varint n ≠ [] := by
  rw [varint]
  split_ifs <;> simp

/-- The bytes a CID over a table's digest starts with. -/
def cidStart : Bytes := [0x01, 0x71, 0x12, 0x20]

/-- A CID of the code's own kind says its own length; any other is written behind its length. -/
def toBytes (cid : RawCid) : Bytes :=
  if cid.bytes.take 4 = cidStart ∧ cid.bytes.length = 36 then cid.bytes
  else 0 :: (varint cid.bytes.length ++ cid.bytes)

def readBytes (bytes : Bytes) : Option (RawCid × Bytes) :=
  if bytes.take 4 = cidStart then some (⟨bytes.take 36⟩, bytes.drop 36)
  else (takeVarint (bytes.drop 1)).map fun p => (⟨p.2.take p.1⟩, p.2.drop p.1)

theorem readBytes_toBytes (cid : RawCid) (rest : Bytes) :
    readBytes (toBytes cid ++ rest) = some (cid, rest) := by
  obtain ⟨bytes⟩ := cid
  by_cases h : bytes.take 4 = cidStart ∧ bytes.length = 36
  · have htake : (bytes ++ rest).take 4 = cidStart := by
      rw [List.take_append_of_le_length (by rw [h.2]; decide), h.1]
    have hbytes : toBytes ⟨bytes⟩ = bytes := if_pos h
    rw [hbytes, readBytes, if_pos htake, List.take_left' h.2, List.drop_left' h.2]
  · have htake : ¬(0 :: (varint bytes.length ++ bytes) ++ rest).take 4 = cidStart := by
      intro hc
      cases congrArg List.head? hc
    have hbytes : toBytes ⟨bytes⟩ = 0 :: (varint bytes.length ++ bytes) := if_neg h
    rw [hbytes, readBytes, if_neg htake]
    simp [takeVarint_varint]

/-- The digests of the table, and a block outside it behind a byte none of them starts with. -/
def blockDigest (b : Bytes) : Bytes :=
  match digests.lookup b with
  | some d => bigEndian 32 d
  | none => 0 :: b

def hashDigest (cid : RawCid) : Bytes :=
  if cid.bytes.take 4 = cidStart then cid.bytes.drop 4 else cid.bytes

theorem hashDigest_append (d : Bytes) : hashDigest ⟨cidStart ++ d⟩ = d := by
  have hlen : cidStart.length = 4 := rfl
  rw [hashDigest, if_pos (List.take_left' hlen), List.drop_left' hlen]

theorem hashDigest_cons (b : Bytes) : hashDigest ⟨0 :: b⟩ = 0 :: b := by
  have hne : ¬(0 :: b).take 4 = cidStart := by
    intro hc
    cases congrArg List.head? hc
  exact if_neg hne

theorem hashDigest_cidFor (b : Bytes) : hashDigest (cidFor b) = blockDigest b := by
  unfold cidFor blockDigest
  cases digests.lookup b with
  | some d => exact hashDigest_append (bigEndian 32 d)
  | none => exact hashDigest_cons b

theorem digests_head : ∀ p ∈ digests, (bigEndian 32 p.2).head? ≠ some 0 := by decide

theorem blockDigest_injective : Function.Injective blockDigest := by
  intro b b' h
  refine cidFor_injective ?_
  unfold blockDigest at h
  unfold cidFor
  cases hb : digests.lookup b with
  | none =>
    cases hb' : digests.lookup b' with
    | none => simpa [hb, hb'] using h
    | some d =>
      simp only [hb, hb'] at h
      have hhead : (bigEndian 32 d).head? = some 0 := by rw [← h, List.head?_cons]
      exact absurd hhead (digests_head (b', d) (mem_of_lookup hb'))
  | some d =>
    cases hb' : digests.lookup b' with
    | none =>
      simp only [hb, hb'] at h
      have hhead : (bigEndian 32 d).head? = some 0 := by rw [h, List.head?_cons]
      exact absurd hhead (digests_head (b, d) (mem_of_lookup hb))
    | some d' =>
      simp only [hb, hb'] at h
      simp only [cidOf, h]

end DagCbor

noncomputable instance : CarCodec RawCid where
  toBytes := DagCbor.toBytes
  readBytes := DagCbor.readBytes
  hashCode _ := sha2256
  hashDigest := DagCbor.hashDigest
  digest := DagCbor.blockDigest
  varint := DagCbor.varint
  takeVarint := DagCbor.takeVarint
  headerFromSlice := DagCbor.decode CarHeader.toIpld

instance : LawfulCarCodec RawCid where
  readBytes_toBytes := DagCbor.readBytes_toBytes
  takeVarint_length chunk := DagCbor.takeVarint_varint chunk.length
  varint_length_ne_nil chunk := DagCbor.varint_ne_nil chunk.length
  headerFromSlice_toVec := by
    intro header b h
    obtain ⟨hp, rfl⟩ := toVec_eq_ok.mp h
    exact DagCbor.decode_enc CarHeader.toIpld_injective CarHeader.wf_toIpld hp
  hashCode_cidFor _ := rfl
  hashDigest_cidFor := DagCbor.hashDigest_cidFor
  digest_injective := DagCbor.blockDigest_injective

end Manapds
