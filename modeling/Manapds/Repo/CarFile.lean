import Manapds.Lib.Table
import Manapds.Repo.Car

/-!
# Files of any bytes

Reading takes one chunk after another off the front, each behind its length, so it comes to an end
on whatever bytes it is given. What it accepts is written out again as a file that reads the same,
and a written file that was cut anywhere but between two chunks is refused.
-/

namespace Manapds

variable {Cid : Type}

/-- What is asked besides of reading bytes that were not written by the code. -/
class ExactFrameCodec (Cid : Type) [Codec Cid] [CarCodec Cid] : Prop extends FrameCodec Cid where
  toVec_header (roots : List Cid) : ∃ b, Codec.toVec (CarHeader.toIpld ⟨1, roots⟩) = .ok b
  /-- A length takes at least a byte, and leaves what follows as it is. -/
  takeVarint_suffix {bytes rest : Bytes} {n : ℕ} :
    CarCodec.takeVarint Cid bytes = some (n, rest) → ∃ lead, lead ≠ [] ∧ bytes = lead ++ rest
  /-- No length is the beginning of another. -/
  takeVarint_cut {chunk start rest : Bytes} : CarCodec.varint Cid chunk.length = start ++ rest →
    rest ≠ [] → CarCodec.takeVarint Cid start = none

namespace Car

/-- A file of some blocks after what it opens with, in this order. -/
def written [CarCodec Cid] (opening : Bytes) (rows : List (Cid × Bytes)) : Bytes :=
  rows.foldl (fun car row => push car row.1 row.2) opening

/-- The blocks of a map in some order. -/
structure Orders [DecidableEq Cid] (rows : List (Cid × Bytes)) (blocks : BlockMap Cid) : Prop where
  nodup : (rows.map Prod.fst).Nodup
  mem : ∀ c b, (c, b) ∈ rows ↔ blocks.lookup c = some b

/-- Every block is what its CID says. -/
def Hashes [CarCodec Cid] [DecidableEq Cid] (blocks : BlockMap Cid) : Prop :=
  ∀ c b, blocks.lookup c = some b → hashesTo c b = true

/-- Bytes that are chunks and nothing else, each behind at least a byte. -/
inductive Framed : Bytes → List Bytes → Prop
  | nil : Framed [] []
  | cons {lead chunk rest : Bytes} {chunks : List Bytes} (hlead : lead ≠ [])
      (h : Framed rest chunks) : Framed (lead ++ (chunk ++ rest)) (chunk :: chunks)

section

variable [DecidableEq Cid] {rows : List (Cid × Bytes)} {blocks : BlockMap Cid}

theorem Orders.lookup (h : Orders rows blocks) (c : Cid) :
    (mapOf rows ∅).lookup c = blocks.lookup c := by
  have hempty : (∅ : BlockMap Cid).lookup c = none := AList.lookup_empty c
  rw [lookup_mapOf h.nodup, hempty, Option.or_none]
  cases hfind : rows.find? fun row => row.1 = c with
  | some row =>
    have hmem := List.mem_of_find?_eq_some hfind
    have hkey : row.1 = c := by simpa using List.find?_some hfind
    subst hkey
    exact ((h.mem row.1 row.2).mp hmem).symm
  | none =>
    cases hb : blocks.lookup c with
    | none => rfl
    | some b =>
      have hrow := List.find?_eq_none.mp hfind (c, b) ((h.mem c b).mpr hb)
      simp at hrow

theorem orders_mapOf (h : (rows.map Prod.fst).Nodup) : Orders rows (mapOf rows ∅) where
  nodup := h
  mem := by
    intro c b
    have hempty : (∅ : BlockMap Cid).lookup c = none := AList.lookup_empty c
    have hfind : ∀ row, rows.find? (fun row => row.1 = c) = some row ↔ row ∈ rows ∧ row.1 = c :=
      fun row => Table.Keyed.find_eq_some h
    rw [lookup_mapOf h, hempty, Option.or_none, Option.map_eq_some_iff]
    constructor
    · intro hrow
      exact ⟨(c, b), (hfind _).mpr ⟨hrow, rfl⟩, rfl⟩
    · rintro ⟨row, hrow, rfl⟩
      obtain ⟨hmem, rfl⟩ := (hfind row).mp hrow
      exact hmem

theorem Orders.reverse (h : Orders rows blocks) : Orders rows.reverse blocks where
  nodup := by
    rw [List.map_reverse, List.nodup_reverse]
    exact h.nodup
  mem := fun c b => List.mem_reverse.trans (h.mem c b)

theorem Orders.mem_keys (h : Orders rows blocks) {c : Cid} (hc : c ∈ blocks) :
    c ∈ rows.map Prod.fst := by
  obtain ⟨b, hb⟩ := Option.isSome_iff_exists.mp (AList.lookup_isSome.mpr hc)
  exact List.mem_map.mpr ⟨(c, b), (h.mem c b).mpr hb, rfl⟩

end

variable [CarCodec Cid]

theorem written_eq (opening : Bytes) (rows : List (Cid × Bytes)) :
    written opening rows = opening ++ rows.flatMap frame := foldl_push opening rows

theorem frame_eq (row : Cid × Bytes) : frame row =
    CarCodec.varint Cid (CarCodec.toBytes row.1 ++ row.2).length ++
      (CarCodec.toBytes row.1 ++ row.2) := by
  rw [frame, List.length_append]

theorem answered_takeChunk (bytes : Bytes) : Answered (takeChunk Cid bytes) := by
  unfold takeChunk
  split
  · exact answered_error trivial
  · split_ifs
    · exact answered_ok _
    · exact answered_error trivial

/-! ## What is accepted -/

section

variable [DecidableEq Cid] {blocks held : BlockMap Cid}

theorem Hashes.insert (h : Hashes blocks) {cid : Cid} {bytes : Bytes}
    (hcid : hashesTo cid bytes = true) : Hashes (AList.insert cid bytes blocks) := by
  intro c b hb
  by_cases hc : c = cid
  · subst hc
    rw [AList.lookup_insert, Option.some_inj] at hb
    rw [← hb]
    exact hcid
  · rw [AList.lookup_insert_ne hc] at hb
    exact h c b hb

/-- One round: a chunk off the front, which holds a block that is what its CID says. -/
theorem readFrom_eq_ok {rounds : ℕ} {rest : Bytes} (hrest : rest ≠ [])
    (h : readFrom rounds rest blocks = .ok held) : ∃ n chunk next cid bytes, rounds = n + 1 ∧
      takeChunk Cid rest = .ok (chunk, next) ∧ CarCodec.readBytes chunk = some (cid, bytes) ∧
      hashesTo cid bytes = true ∧ readFrom n next (blocks.insert cid bytes) = .ok held := by
  cases rest with
  | nil => exact absurd rfl hrest
  | cons b rest =>
    cases rounds with
    | zero =>
      rw [readFrom] at h
      · cases h
      · exact hrest
    | succ n =>
      rw [readFrom] at h
      · cases hchunk : takeChunk Cid (b :: rest) with
        | error e =>
          rw [hchunk] at h
          cases h
        | ok p =>
          obtain ⟨chunk, next⟩ := p
          rw [hchunk] at h
          simp only [bind, Except.bind] at h
          cases hread : (CarCodec.readBytes chunk : Option (Cid × Bytes)) with
          | none =>
            rw [hread] at h
            cases h
          | some p =>
            obtain ⟨cid, bytes⟩ := p
            rw [hread] at h
            dsimp only at h
            split_ifs at h with hhash
            exact ⟨n, chunk, next, cid, bytes, rfl, rfl, hread, hhash, h⟩
      · exact hrest

theorem readFrom_hashes {rounds : ℕ} {rest : Bytes} (hblocks : Hashes blocks)
    (h : readFrom rounds rest blocks = .ok held) : Hashes held := by
  induction rounds generalizing rest blocks with
  | zero =>
    by_cases hrest : rest = []
    · subst hrest
      cases h
      exact hblocks
    · obtain ⟨n, -, -, -, -, hn, -⟩ := readFrom_eq_ok hrest h
      omega
  | succ rounds ih =>
    by_cases hrest : rest = []
    · subst hrest
      cases h
      exact hblocks
    · obtain ⟨n, chunk, next, cid, bytes, hn, -, -, hhash, hnext⟩ := readFrom_eq_ok hrest h
      obtain rfl : rounds = n := by omega
      exact ih (hblocks.insert hhash) hnext

theorem readRoots_eq_ok {car : Bytes} {roots : List Cid}
    (h : readRoots car = .ok (roots, held)) : ∃ opening rest, takeChunk Cid car = .ok (opening, rest) ∧
      readFrom rest.length rest ∅ = .ok held := by
  unfold readRoots at h
  cases hchunk : takeChunk Cid car with
  | error e =>
    rw [hchunk] at h
    cases h
  | ok p =>
    obtain ⟨opening, rest⟩ := p
    rw [hchunk] at h
    simp only [bind, Except.bind] at h
    cases hheader : (CarCodec.headerFromSlice opening : Except String (CarHeader Cid)) with
    | error e =>
      rw [hheader] at h
      cases h
    | ok header =>
      rw [hheader] at h
      simp only [Except.mapError] at h
      split_ifs at h with hversion
      cases hfrom : readFrom rest.length rest (∅ : BlockMap Cid) with
      | error e =>
        rw [hfrom] at h
        cases h
      | ok blocks =>
        rw [hfrom] at h
        cases h
        exact ⟨opening, rest, rfl, hfrom⟩

theorem read_eq_ok {car : Bytes} {root : Cid} (h : read car = .ok (root, held)) :
    readRoots car = .ok ([root], held) ∧ root ∈ held := by
  unfold read at h
  cases hroots : (readRoots car : Except (RepoError Cid) (List Cid × BlockMap Cid)) with
  | error e =>
    rw [hroots] at h
    cases h
  | ok p =>
    obtain ⟨roots, blocks⟩ := p
    rw [hroots] at h
    simp only [bind, Except.bind] at h
    rcases roots with _ | ⟨first, _ | ⟨second, roots⟩⟩
    · cases h
    · dsimp only at h
      split_ifs at h with hmem
      cases h
      exact ⟨rfl, hmem⟩
    · cases h

theorem hashes_of_read {car : Bytes} {root : Cid} (h : read car = .ok (root, held)) :
    Hashes held := by
  obtain ⟨opening, rest, -, hfrom⟩ := readRoots_eq_ok (read_eq_ok h).1
  refine readFrom_hashes ?_ hfrom
  intro c b hb
  simp at hb

end

variable [Codec Cid]

section

variable [FrameCodec Cid] [DecidableEq Cid] {rows : List (Cid × Bytes)} {blocks : BlockMap Cid}
  {root : Cid} {opening : Bytes}

/-- Blocks written in any order are read back. -/
theorem read_written (hopening : header [root] = .ok opening) (hblocks : Hashes blocks)
    (hroot : root ∈ blocks) (hrows : Orders rows blocks) :
    ∃ held, read (written opening rows) = .ok (root, held) ∧
      ∀ c, held.lookup c = blocks.lookup c := by
  refine ⟨mapOf rows ∅, ?_, hrows.lookup⟩
  rw [written_eq]
  apply read_frames hopening
  · intro row hrow
    exact hblocks row.1 row.2 ((hrows.mem row.1 row.2).mp hrow)
  · exact hrows.mem_keys hroot

end

/-! ## Every input -/

section

variable [ExactFrameCodec Cid] {bytes chunk next : Bytes}

/-- A chunk and what follows it are the end of the bytes they were taken from, and not all of
them. -/
theorem takeChunk_suffix (h : takeChunk Cid bytes = .ok (chunk, next)) :
    ∃ lead, lead ≠ [] ∧ bytes = lead ++ (chunk ++ next) := by
  unfold takeChunk at h
  split at h
  · cases h
  · next len rest hlen =>
    split_ifs at h with hle
    obtain ⟨lead, hlead, rfl⟩ := ExactFrameCodec.takeVarint_suffix hlen
    have hsplit : rest.take len = chunk ∧ rest.drop len = next := by
      simpa [List.splitAt_eq] using h
    refine ⟨lead, hlead, ?_⟩
    rw [← hsplit.1, ← hsplit.2, List.take_append_drop]

theorem length_next_lt (h : takeChunk Cid bytes = .ok (chunk, next)) :
    next.length < bytes.length := by
  obtain ⟨lead, hlead, rfl⟩ := takeChunk_suffix h
  have hpos := List.length_pos_iff.mpr hlead
  simp only [List.length_append]
  omega

theorem exists_header (roots : List Cid) :
    ∃ opening, (header roots : Except (RepoError Cid) Bytes) = .ok opening := by
  obtain ⟨b, hb⟩ := ExactFrameCodec.toVec_header roots
  refine ⟨CarCodec.varint Cid b.length ++ b, ?_⟩
  rw [header, encode_eq_ok.mpr hb]
  rfl

theorem takeChunk_cut {start : Bytes} (h : CarCodec.varint Cid chunk.length ++ chunk = start ++ next)
    (hnext : next ≠ []) : ∃ e, takeChunk Cid start = .error e := by
  have hshort : ∀ rest : Bytes, rest.length < chunk.length →
      ∃ e, takeChunk Cid (CarCodec.varint Cid chunk.length ++ rest) = .error e := by
    intro rest hlt
    refine ⟨.malformedCar "a length past the file", ?_⟩
    rw [takeChunk, FrameCodec.takeVarint_length]
    exact if_neg (by omega)
  rcases List.append_eq_append_iff.mp h with ⟨rest, rfl, hchunk⟩ | ⟨rest, hlead, rfl⟩
  · apply hshort
    have hpos := List.length_pos_iff.mpr hnext
    have hlen := congrArg List.length hchunk
    rw [List.length_append] at hlen
    omega
  · by_cases hrest : rest = []
    · subst hrest
      rw [List.append_nil] at hlead
      have hcut := hshort [] (List.length_pos_iff.mpr hnext)
      rwa [List.append_nil, hlead] at hcut
    · refine ⟨.malformedCar "a length that is not a varint", ?_⟩
      rw [takeChunk, ExactFrameCodec.takeVarint_cut hlead hrest]

variable [DecidableEq Cid] {blocks held : BlockMap Cid}

/-- As many rounds as there are bytes are enough. -/
theorem answered_readFrom {rounds : ℕ} {rest : Bytes} (h : rest.length ≤ rounds)
    (blocks : BlockMap Cid) : Answered (readFrom rounds rest blocks) := by
  induction rounds generalizing rest blocks with
  | zero =>
    obtain rfl := List.length_eq_zero_iff.mp (Nat.le_zero.mp h)
    exact answered_ok _
  | succ rounds ih =>
    cases hrest : rest with
    | nil => exact answered_ok _
    | cons b tail =>
      rw [← hrest]
      have hne : rest ≠ [] := by simp [hrest]
      rw [readFrom]
      · cases hchunk : takeChunk Cid rest with
        | error e =>
          have hanswered : Answered (takeChunk Cid rest) := answered_takeChunk rest
          rw [hchunk] at hanswered
          exact hanswered.cast
        | ok p =>
          obtain ⟨chunk, next⟩ := p
          have hlt := length_next_lt hchunk
          simp only [bind, Except.bind]
          cases (CarCodec.readBytes chunk : Option (Cid × Bytes)) with
          | none => exact answered_error trivial
          | some p =>
            dsimp only
            split_ifs
            · exact ih (by omega) _
            · exact answered_error trivial
      · exact hne

theorem answered_readRoots (car : Bytes) :
    Answered (readRoots car : Except (RepoError Cid) (List Cid × BlockMap Cid)) := by
  refine (answered_takeChunk car).bind fun p => ?_
  obtain ⟨opening, rest⟩ := p
  have hheader : Answered ((CarCodec.headerFromSlice opening).mapError
      (RepoError.decode : String → RepoError Cid) : Except _ (CarHeader Cid)) := by
    cases (CarCodec.headerFromSlice opening : Except String (CarHeader Cid)) with
    | ok header => exact answered_ok _
    | error why => exact answered_error trivial
  refine hheader.bind fun header => ?_
  split_ifs
  · exact (answered_readFrom le_rfl ∅).bind fun blocks => answered_ok _
  · exact answered_error trivial

theorem answered_read (car : Bytes) :
    Answered (read car : Except (RepoError Cid) (Cid × BlockMap Cid)) := by
  refine (answered_readRoots car).bind fun p => ?_
  obtain ⟨roots, blocks⟩ := p
  rcases roots with _ | ⟨first, _ | ⟨second, roots⟩⟩
  · exact answered_error trivial
  · dsimp only
    split_ifs
    · exact answered_ok _
    · exact answered_error trivial
  · exact answered_error trivial

theorem framed_of_readFrom {rounds : ℕ} {rest : Bytes}
    (h : readFrom rounds rest blocks = .ok held) : ∃ chunks, Framed rest chunks := by
  induction rounds generalizing rest blocks with
  | zero =>
    by_cases hrest : rest = []
    · exact ⟨[], hrest ▸ .nil⟩
    · obtain ⟨n, -, -, -, -, hn, -⟩ := readFrom_eq_ok hrest h
      omega
  | succ rounds ih =>
    by_cases hrest : rest = []
    · exact ⟨[], hrest ▸ .nil⟩
    · obtain ⟨n, chunk, next, cid, bytes, hn, hchunk, -, -, hnext⟩ := readFrom_eq_ok hrest h
      obtain rfl : rounds = n := by omega
      obtain ⟨chunks, hchunks⟩ := ih hnext
      obtain ⟨lead, hlead, rfl⟩ := takeChunk_suffix hchunk
      exact ⟨chunk :: chunks, .cons hlead hchunks⟩

/-- What is accepted is a header and blocks from its first byte to its last. -/
theorem framed_of_readRoots {car : Bytes} {roots : List Cid}
    (h : readRoots car = .ok (roots, held)) : ∃ chunks, Framed car chunks := by
  obtain ⟨opening, rest, hchunk, hfrom⟩ := readRoots_eq_ok h
  obtain ⟨chunks, hchunks⟩ := framed_of_readFrom hfrom
  obtain ⟨lead, hlead, rfl⟩ := takeChunk_suffix hchunk
  exact ⟨opening :: chunks, .cons hlead hchunks⟩

/-! ## Files that were cut -/

/-- Blocks cut off before the end of one of them. -/
theorem readFrom_cut {rows : List (Cid × Bytes)} {start : Bytes}
    (h : rows.flatMap frame = start ++ next) (hnext : next ≠ [])
    (hstart : ∀ k, start ≠ (rows.take k).flatMap frame) (rounds : ℕ) (blocks : BlockMap Cid) :
    ∃ e, readFrom rounds start blocks = .error e := by
  induction rows generalizing start rounds blocks with
  | nil =>
    have hnil := List.append_eq_nil_iff.mp h.symm
    exact absurd hnil.2 hnext
  | cons row rows ih =>
    have hne : start ≠ [] := hstart 0
    cases rounds with
    | zero =>
      refine ⟨.unfinished, ?_⟩
      rw [readFrom]
      exact hne
    | succ rounds =>
      rw [List.flatMap_cons] at h
      rcases List.append_eq_append_iff.mp h with ⟨rest, rfl, hrest⟩ | ⟨rest, hframe, rfl⟩
      · have hcut := ih hrest fun k hk => hstart (k + 1) (by
          rw [List.take_succ_cons, List.flatMap_cons, hk])
        rw [readFrom, takeChunk_frame]
        · simp only [bind, Except.bind, FrameCodec.readBytes_toBytes]
          split_ifs
          · exact hcut rounds _
          · exact ⟨_, rfl⟩
        · exact hne
      · have hcut : rest ≠ [] := by
          rintro rfl
          apply hstart 1
          rw [List.append_nil] at hframe
          rw [List.take_succ_cons, List.flatMap_cons, List.take_zero, List.flatMap_nil,
            List.append_nil, hframe]
        rw [frame_eq] at hframe
        obtain ⟨e, he⟩ := takeChunk_cut hframe hcut
        refine ⟨e, ?_⟩
        rw [readFrom, he]
        · rfl
        · exact hne

/-- A written file cut off before the end of its header or of one of its blocks is refused. -/
theorem read_cut {root : Cid} {rows : List (Cid × Bytes)} {opening start : Bytes}
    (hopening : header [root] = .ok opening) (h : written opening rows = start ++ next)
    (hnext : next ≠ []) (hstart : ∀ k, start ≠ written opening (rows.take k)) :
    ∃ e, (read start : Except (RepoError Cid) (Cid × BlockMap Cid)) = .error e := by
  obtain ⟨b, hb, rfl⟩ := header_eq_ok hopening
  simp only [written_eq] at h hstart
  have hroots : ∃ e, (readRoots start : Except (RepoError Cid) (List Cid × BlockMap Cid)) =
      .error e := by
    rcases List.append_eq_append_iff.mp h with ⟨rest, rfl, hrest⟩ | ⟨rest, hlead, rfl⟩
    · obtain ⟨e, he⟩ := readFrom_cut hrest hnext
        (fun k hk => hstart k (by rw [hk])) rest.length ∅
      have hheader := FrameCodec.headerFromSlice_toVec (encode_eq_ok.mp hb)
      have hchunk : takeChunk Cid _ = _ := takeChunk_chunk b rest
      refine ⟨e, ?_⟩
      rw [readRoots, List.append_assoc, hchunk]
      simp only [bind, Except.bind, hheader, Except.mapError, if_true, he]
    · have hcut : rest ≠ [] := by
        rintro rfl
        apply hstart 0
        rw [List.append_nil] at hlead
        simp [hlead]
      obtain ⟨e, he⟩ := takeChunk_cut hlead hcut
      refine ⟨e, ?_⟩
      rw [readRoots, he]
      rfl
  obtain ⟨e, he⟩ := hroots
  refine ⟨e, ?_⟩
  rw [read, he]
  rfl

/-- Blocks under a root they hold are read back from a file of them, in whatever order they are
written. What is read from any bytes is such blocks again, and goes through a file once more
unchanged. A file that was cut is refused, and reading ends on every input and within it. -/
theorem car_codec :
    (∀ (root : Cid) (blocks : BlockMap Cid) (rows : List (Cid × Bytes)), Hashes blocks →
      root ∈ blocks → Orders rows blocks → ∃ opening held, header [root] = .ok opening ∧
        read (written opening rows) = .ok (root, held) ∧
          ∀ c, held.lookup c = blocks.lookup c) ∧
    (∀ (car : Bytes) (root : Cid) (blocks : BlockMap Cid), read car = .ok (root, blocks) →
      Hashes blocks ∧ root ∈ blocks ∧ ∀ rows, Orders rows blocks → ∃ opening held,
        header [root] = .ok opening ∧ read (written opening rows) = .ok (root, held) ∧
          ∀ c, held.lookup c = blocks.lookup c) ∧
    (∀ (root : Cid) (rows : List (Cid × Bytes)) (opening start rest : Bytes),
      header [root] = .ok opening → written opening rows = start ++ rest → rest ≠ [] →
        (∀ k, start ≠ written opening (rows.take k)) → ∃ e : RepoError Cid, e.Ordinary ∧
          (read start : Except _ (Cid × BlockMap Cid)) = .error e) ∧
    ∀ car : Bytes, Answered (readRoots car : Except (RepoError Cid) (List Cid × BlockMap Cid)) ∧
      ∀ (roots : List Cid) (blocks : BlockMap Cid), readRoots car = .ok (roots, blocks) →
        ∃ chunks, Framed car chunks := by
  refine ⟨?_, ?_, ?_, fun car => ⟨answered_readRoots car, fun _ _ h => framed_of_readRoots h⟩⟩
  · intro root blocks rows hhashes hroot hrows
    obtain ⟨opening, hopening⟩ := exists_header [root]
    obtain ⟨held, hread, hheld⟩ := read_written hopening hhashes hroot hrows
    exact ⟨opening, held, hopening, hread, hheld⟩
  · intro car root blocks h
    have hhashes := hashes_of_read h
    have hroot := (read_eq_ok h).2
    refine ⟨hhashes, hroot, fun rows hrows => ?_⟩
    obtain ⟨opening, hopening⟩ := exists_header [root]
    obtain ⟨held, hread, hheld⟩ := read_written hopening hhashes hroot hrows
    exact ⟨opening, held, hopening, hread, hheld⟩
  · intro root rows opening start rest hopening hwritten hrest hstart
    obtain ⟨e, he⟩ := read_cut hopening hwritten hrest hstart
    exact ⟨e, answered_read start e he, he⟩

end

end Car

/-! ## Files under CIDs that are bytes -/

namespace DagCbor

theorem takeVarint_suffix {bytes rest : Bytes} {n : ℕ} (h : takeVarint bytes = some (n, rest)) :
    ∃ lead, lead ≠ [] ∧ bytes = lead ++ rest := by
  induction bytes generalizing n with
  | nil => cases h
  | cons b bytes ih =>
    rw [takeVarint] at h
    split_ifs at h with hb
    · obtain rfl : bytes = rest := (Prod.mk.inj (Option.some.inj h)).2
      exact ⟨[b], List.cons_ne_nil b [], rfl⟩
    · obtain ⟨p, hp, hrest⟩ := Option.map_eq_some_iff.mp h
      obtain rfl : p.2 = rest := (Prod.mk.inj hrest).2
      obtain ⟨lead, -, hlead⟩ := ih hp
      refine ⟨b :: lead, List.cons_ne_nil b lead, ?_⟩
      rw [hlead, List.cons_append]

theorem takeVarint_cut {n : ℕ} {start rest : Bytes} (h : varint n = start ++ rest)
    (hrest : rest ≠ []) : takeVarint start = none := by
  induction n using Nat.strongRecOn generalizing start with
  | ind n ih =>
    cases start with
    | nil => rfl
    | cons b start =>
      rw [varint] at h
      split_ifs at h with hn
      · have hnil := (List.cons.inj h).2
        exact absurd (List.append_eq_nil_iff.mp hnil.symm).2 hrest
      · obtain ⟨rfl, htail⟩ := List.cons.inj h
        have hv : (byte (n % 128 + 128)).val = n % 128 + 128 := Nat.mod_eq_of_lt (by omega)
        rw [takeVarint, if_neg (by omega), ih (n / 128) (by omega) htail]
        rfl

end DagCbor

theorem CarHeader.plain_toIpld (roots : List Cid) :
    (CarHeader.toIpld ⟨1, roots⟩).plain = true := by
  have hlinks : (Ipld.list (roots.map Ipld.link)).plain = true := by
    rw [Ipld.plain_list, List.all_map, List.all_eq_true]
    intro root _
    rfl
  have hversion : (Ipld.integer 1 : Ipld Cid).plain = true := rfl
  rw [toIpld, Ipld.plain_map]
  simp [hlinks, hversion]

instance : ExactFrameCodec RawCid where
  toVec_header roots := LawfulCodec.toVec_ok (CarHeader.wf_toIpld _) (CarHeader.plain_toIpld roots)
  takeVarint_suffix := DagCbor.takeVarint_suffix
  takeVarint_cut := DagCbor.takeVarint_cut

namespace Car

open DagCbor in
/-- The blocks of a node and of three records. -/
def fileRows : List (RawCid × Bytes) :=
  [enc (textRecord (text "second")).ipld, enc trivialNode.toIpld,
    enc (textRecord (text "third")).ipld, enc (textRecord (text "first")).ipld].map
    fun b => (DagCbor.cidFor b, b)

/-- One byte short of all blocks is not the end of any of them. -/
theorem length_fileRows (k : ℕ) : ((fileRows.take k).flatMap frame).length + 1 ≠
    (fileRows.flatMap frame).length := by
  rcases k with _ | _ | _ | _ | k
  · decide +kernel
  · decide +kernel
  · decide +kernel
  · decide +kernel
  · have hall : fileRows.take (k + 4) = fileRows := List.take_of_length_le (Nat.le_add_left 4 k)
    rw [hall]
    omega

/-- A file of several blocks is read back whichever end it is written from, and is refused once its
last byte is cut off. -/
theorem car_codec_fourBlocks : ∃ opening held held', header [DagCbor.cidOf DagCbor.trivialDigest] =
      .ok opening ∧
    read (written opening fileRows) = .ok (DagCbor.cidOf DagCbor.trivialDigest, held) ∧
    read (written opening fileRows.reverse) = .ok (DagCbor.cidOf DagCbor.trivialDigest, held') ∧
    (∀ row ∈ fileRows, held.lookup row.1 = some row.2 ∧ held'.lookup row.1 = some row.2) ∧
    ∃ e : RepoError RawCid, (read (written opening fileRows).dropLast :
      Except _ (RawCid × BlockMap RawCid)) = .error e := by
  have hnodup : (fileRows.map Prod.fst).Nodup := by decide +kernel
  have horders := orders_mapOf hnodup
  have hhashes : Hashes (mapOf fileRows ∅) := by
    intro c b hb
    obtain ⟨b', -, he⟩ := List.mem_map.mp ((horders.mem c b).mpr hb)
    obtain ⟨rfl, rfl⟩ := Prod.mk.inj he
    exact hashesTo_cidFor.mpr rfl
  have hroot : DagCbor.cidOf DagCbor.trivialDigest ∈ mapOf fileRows ∅ :=
    mem_mapOf.mpr (Or.inl (by decide +kernel))
  obtain ⟨hwritten, -, hcut, -⟩ := @car_codec RawCid _ _ _ _
  obtain ⟨opening, held, hopening, hread, hheld⟩ := hwritten _ _ fileRows hhashes hroot horders
  obtain ⟨opening', held', hopening', hread', hheld'⟩ := hwritten _ _ fileRows.reverse hhashes hroot
    horders.reverse
  obtain rfl : opening = opening' := Except.ok.inj (hopening.symm.trans hopening')
  refine ⟨opening, held, held', hopening, hread, hread', ?_, ?_⟩
  · rintro ⟨c, b⟩ hrow
    rw [hheld, hheld', (horders.mem c b).mp hrow]
    exact ⟨rfl, rfl⟩
  · have hne : written opening fileRows ≠ [] := by
      rw [written_eq]
      exact List.append_ne_nil_of_right_ne_nil _ (by decide +kernel)
    obtain ⟨e, -, he⟩ := hcut _ fileRows opening _ _ hopening
      (List.dropLast_append_getLast hne).symm (List.cons_ne_nil _ _) (by
        intro k hk
        have hlen := congrArg List.length hk
        rw [List.length_dropLast, written_eq, written_eq, List.length_append,
          List.length_append] at hlen
        have hshort := length_fileRows k
        have hlong : 0 < (fileRows.flatMap frame).length := by decide +kernel
        omega)
    exact ⟨e, he⟩

end Car

end Manapds
