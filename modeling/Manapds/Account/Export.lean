import Manapds.Account.Plan
import Manapds.Lib.Paging
import Manapds.Repo.Car

/-!
# Exporting a repository

A download is the header of a CAR file and then the blocks of the repository, read page by page in
the order of the revision index, each page starting below the row the one before it ended on. The
file does not depend on how many rows a page holds.
-/

namespace Manapds

variable {Cid : Type}

/-- Where a page of blocks ended, which is where the page after it starts. -/
structure Mark (Cid : Type) where
  rev : Str
  cid : Cid

/-- One page of a repository's blocks. -/
structure Page (Cid : Type) where
  blocks : List (Cid × Bytes)
  next : Option (Mark Cid)

section

variable [CidText Cid]

/-- The pair the revision index is on. -/
def Mark.place (mark : Mark Cid) : Str ×ₗ Str := toLex (mark.rev, CidText.toText mark.cid)

def BlockRow.mark (row : BlockRow Cid) : Mark Cid := ⟨row.repoRev.str, row.cid⟩

def BlockRow.block (row : BlockRow Cid) : Cid × Bytes := (row.cid, row.content)

def BlockRow.place (row : BlockRow Cid) : Str ×ₗ Str := row.mark.place

namespace Tables

variable (tables : Tables Cid)

/-- The blocks a revision after `since` wrote. -/
def writtenSince (since : Option Tid) : List (BlockRow Cid) :=
  tables.repoBlock.filter fun row => since.all fun since => decide (since < row.repoRev)

/-- One page of the blocks this repository holds, or only of those a revision after `since` wrote. -/
def blocksSince (since : Option Tid) (start : Option (Mark Cid)) (limit : ℕ) : Page Cid :=
  let rows := Paging.page BlockRow.place (start.map Mark.place) limit (tables.writtenSince since)
  ⟨rows.map BlockRow.block, (Paging.next limit rows).map BlockRow.mark⟩

/-- The blocks of all pages from a mark on, for as many rounds as it is given. -/
def blockPages (since : Option Tid) (limit : ℕ) :
    ℕ → Option (Mark Cid) → Option (List (Cid × Bytes))
  | 0, _ => none
  | rounds + 1, start =>
    let page := tables.blocksSince since start limit
    match page.next with
    | none => some page.blocks
    | some mark => (blockPages since limit rounds (some mark)).map (page.blocks ++ ·)

variable [CarCodec Cid]

/-- The pages of a download from a mark on, written onto the end of a file. -/
def exportFrom (since : Option Tid) (limit : ℕ) :
    ℕ → Option (Mark Cid) → Bytes → Except (AccountError Cid) Bytes
  | 0, _, _ => .error (.repo .unfinished)
  | rounds + 1, start, car =>
    let page := tables.blocksSince since start limit
    let car := page.blocks.foldl (fun car row => Car.push car row.1 row.2) car
    match page.next with
    | none => .ok car
    | some mark => exportFrom since limit rounds (some mark) car

/-- The whole file, from a database that does not move while it is read. -/
def exportCar [Codec Cid] (did : Did) (since : Option Tid) (limit rounds : ℕ) :
    Except (AccountError Cid) Bytes :=
  match tables.repoRoot with
  | none => .error (.noRepo did)
  | some root => do
    let opening ← (Car.header [root.cid]).mapError .repo
    tables.exportFrom since limit rounds none opening

end Tables

end

namespace Tables

variable [CidText Cid] {tables : Tables Cid}

theorem blockPages_eq (since : Option Tid) (limit rounds : ℕ) (start : Option (Mark Cid)) :
    tables.blockPages since limit rounds start =
      (Paging.pages BlockRow.place limit (tables.writtenSince since) rounds
        (start.map Mark.place)).map (List.map BlockRow.block) := by
  induction rounds generalizing start with
  | zero => rfl
  | succ rounds ih =>
    rw [blockPages, Paging.pages]
    simp only [blocksSince]
    generalize Paging.page BlockRow.place (start.map Mark.place) limit (tables.writtenSince since) =
      rows
    cases hn : Paging.next limit rows with
    | none => rfl
    | some last =>
      have hplace : (some last.mark).map Mark.place = some last.place := rfl
      simp only [Option.map_some, ih]
      rw [← Option.map_some, hplace]
      cases Paging.pages BlockRow.place limit (tables.writtenSince since) rounds
        (some last.place) with
      | none => rfl
      | some more => simp

/-- A download is the blocks of its pages, one after another. -/
theorem exportFrom_eq [CarCodec Cid] (since : Option Tid) (limit rounds : ℕ)
    (start : Option (Mark Cid)) (car : Bytes) : tables.exportFrom since limit rounds start car =
      (tables.blockPages since limit rounds start).elim (.error (.repo .unfinished)) fun blocks =>
        .ok (car ++ blocks.flatMap Car.frame) := by
  induction rounds generalizing start car with
  | zero => rfl
  | succ rounds ih =>
    rw [exportFrom, blockPages]
    simp only [Car.foldl_push, ih]
    cases (tables.blocksSince since start limit).next with
    | none => rfl
    | some mark =>
      dsimp only
      cases tables.blockPages since limit rounds (some mark) with
      | none => rfl
      | some more => simp

theorem place_nodup [LawfulCidText Cid] [DecidableEq Cid]
    (hk : Table.Keyed BlockRow.cid tables.repoBlock) (since : Option Tid) :
    ((tables.writtenSince since).map BlockRow.place).Nodup := by
  have hcids : ((tables.writtenSince since).map BlockRow.cid).Nodup := hk.filter _ _
  have hplaces := List.pairwise_map.mp hcids
  rw [List.Nodup, List.pairwise_map]
  refine hplaces.imp fun hne he => hne ?_
  have htext := congrArg (fun p => (ofLex p).2) he
  exact LawfulCidText.toText_injective htext

/-- All pages are the blocks written since, each once, whatever a page holds. -/
theorem blockPages_sorted [LawfulCidText Cid] [DecidableEq Cid]
    (hk : Table.Keyed BlockRow.cid tables.repoBlock) (since : Option Tid) {limit rounds : ℕ}
    (hl : 1 ≤ limit) (hr : tables.repoBlock.length < rounds) :
    tables.blockPages since limit rounds none =
      some ((Paging.sorted BlockRow.place (tables.writtenSince since)).map BlockRow.block) := by
  have hlen : (tables.writtenSince since).length ≤ tables.repoBlock.length :=
    List.length_filter_le _ _
  rw [blockPages_eq, Option.map_none,
    Paging.pages_eq (place_nodup hk since) hl (Nat.lt_of_le_of_lt hlen hr)]
  rfl

end Tables

theorem exists_header [Codec Cid] [LawfulCodec Cid] [CarCodec Cid] (root : Cid) :
    ∃ opening, Car.header [root] = .ok opening := by
  have hplain : (CarHeader.toIpld ⟨1, [root]⟩).plain = true := by
    rw [CarHeader.toIpld, Ipld.plain_map]
    simp [Ipld.plain, Ipld.plainItems, Ipld.fitsEightBytes]
  obtain ⟨b, hb⟩ := exists_encode (CarHeader.wf_toIpld ⟨1, [root]⟩) hplain
  refine ⟨CarCodec.varint Cid b.length ++ b, ?_⟩
  rw [Car.header, hb]
  rfl

variable [Codec Cid] [LawfulCodec Cid] [CarCodec Cid] [LawfulCarCodec Cid] [CidText Cid]
  [LawfulCidText Cid] [DecidableEq Cid]

/-- A download is the header and every row once, whatever a page holds; and what is read back from
one of a whole repository is its root and its blocks. -/
theorem export_whole (did : Did) (tables : Tables Cid) (root : Root Cid)
    (hroot : tables.repoRoot = some root) (hkeyed : Table.Keyed BlockRow.cid tables.repoBlock)
    (hhash : ∀ row ∈ tables.repoBlock, Car.hashesTo row.cid row.content = true)
    (hheld : (tables.stored root.cid).isSome = true) (since : Option Tid) :
    ∃ (opening : Bytes) (rows : List (BlockRow Cid)) (car : Bytes), Car.header [root.cid] = .ok opening ∧
      rows.Perm (tables.repoBlock.filter fun row => since.all fun s => decide (s < row.repoRev)) ∧
      car = opening ++ (rows.map BlockRow.block).flatMap Car.frame ∧
      (∀ limit, 1 ≤ limit → ∀ rounds, tables.repoBlock.length < rounds →
        tables.exportCar did since limit rounds = .ok car) ∧
      (since = none → ∃ blocks : BlockMap Cid, Car.read car = .ok (root.cid, blocks) ∧
        ∀ c, blocks.lookup c = tables.stored c) := by
  obtain ⟨opening, hopening⟩ := exists_header root.cid
  have hperm : (Paging.sorted BlockRow.place (tables.writtenSince since)).Perm
      (tables.writtenSince since) := Paging.sorted_perm
  refine ⟨opening, Paging.sorted BlockRow.place (tables.writtenSince since), _, hopening, hperm,
    rfl, fun limit hl rounds hr => ?_, fun hsince => ?_⟩
  · rw [Tables.exportCar, hroot]
    simp only [hopening, Except.mapError, bind, Except.bind, Tables.exportFrom_eq,
      Tables.blockPages_sorted hkeyed since hl hr]
    rfl
  · subst hsince
    have hall : tables.writtenSince none = tables.repoBlock := List.filter_eq_self.mpr (by simp)
    rw [hall] at hperm ⊢
    have hfst : (((Paging.sorted BlockRow.place tables.repoBlock).map BlockRow.block).map
        Prod.fst).Perm (tables.repoBlock.map BlockRow.cid) := by
      rw [List.map_map]
      exact hperm.map BlockRow.cid
    refine ⟨_, Car.read_frames hopening ?_ ?_, fun c => ?_⟩
    · intro row hm
      obtain ⟨r, hr, rfl⟩ := List.mem_map.mp hm
      exact hhash r (hperm.subset hr)
    · obtain ⟨content, hc⟩ := Option.isSome_iff_exists.mp hheld
      obtain ⟨r, hr, -⟩ := Option.map_eq_some_iff.mp hc
      apply hfst.mem_iff.mpr
      exact List.mem_map.mpr ⟨r, Table.mem_of_find hr, Table.key_of_find hr⟩
    · have hfind : Table.find BlockRow.cid c (Paging.sorted BlockRow.place tables.repoBlock) =
          Table.find BlockRow.cid c tables.repoBlock := by
        have hsorted : Table.Keyed BlockRow.cid (Paging.sorted BlockRow.place tables.repoBlock) :=
          (hperm.map BlockRow.cid).nodup_iff.mpr hkeyed
        ext row
        rw [hsorted.find_eq_some, hkeyed.find_eq_some, hperm.mem_iff]
      rw [Car.lookup_mapOf (hfst.nodup_iff.mpr hkeyed), AList.lookup_empty, Option.or_none,
        List.find?_map, Option.map_map, Tables.stored, ← hfind]
      rfl

section

open DagCbor

theorem exportRev_valid : Tid.validate (text "3jqfcqzm3fo2j") = .ok () := rfl

theorem laterRev_valid : Tid.validate (text "3jqfcqzm3fp2j") = .ok () := rfl

def exportRev : Tid := ⟨text "3jqfcqzm3fo2j", exportRev_valid⟩

def laterRev : Tid := ⟨text "3jqfcqzm3fp2j", laterRev_valid⟩

def blockRow (rev : Tid) (b : Bytes) : BlockRow RawCid := ⟨DagCbor.cidFor b, rev, b⟩

def laterRow : BlockRow RawCid := blockRow laterRev (enc (textRecord (text "third")).ipld)

/-- Three blocks of one revision, the root among them, and one of the revision after it. -/
def exportRows : List (BlockRow RawCid) :=
  [blockRow exportRev (enc (textRecord (text "second")).ipld), laterRow,
    blockRow exportRev (enc trivialNode.toIpld),
    blockRow exportRev (enc (textRecord (text "first")).ipld)]

def exportTables : Tables RawCid :=
  { (Tables.empty : Tables RawCid) with
    repoRoot := some ⟨cidOf trivialDigest, laterRev⟩
    repoBlock := exportRows }

/-- All of a repository is read back, whatever a page holds; and what is left of it since a revision
is the block that was written after. -/
theorem export_fourBlocks : ∃ car opening, (∀ limit, 1 ≤ limit → ∀ rounds, 4 < rounds →
      exportTables.exportCar recordDid none limit rounds = .ok car ∧
      exportTables.exportCar recordDid (some exportRev) limit rounds =
        .ok (opening ++ Car.frame laterRow.block)) ∧
    ∃ blocks : BlockMap RawCid, Car.read car = .ok (cidOf trivialDigest, blocks) ∧
      ∀ row ∈ exportRows, blocks.lookup row.cid = some row.content := by
  have hhash : ∀ row ∈ exportTables.repoBlock, Car.hashesTo row.cid row.content = true := by
    intro row hrow
    obtain ⟨rev, b, rfl⟩ : ∃ rev b, row = blockRow rev b := by
      change row ∈ exportRows at hrow
      simp only [exportRows, List.mem_cons, List.not_mem_nil, or_false] at hrow
      rcases hrow with rfl | rfl | rfl | rfl <;> exact ⟨_, _, rfl⟩
    exact Car.hashesTo_cidFor.mpr rfl
  have hkeyed : Table.Keyed BlockRow.cid exportTables.repoBlock := by
    have hcids : (exportRows.map BlockRow.cid).Nodup := by decide
    exact hcids
  have hheld : (exportTables.stored (cidOf trivialDigest)).isSome = true := by decide
  obtain ⟨-, -, car, -, -, -, hcar, hread⟩ := export_whole recordDid exportTables
    ⟨cidOf trivialDigest, laterRev⟩ rfl hkeyed hhash hheld none
  obtain ⟨opening, rows, car', -, hperm, hcar', hsince, -⟩ := export_whole recordDid exportTables
    ⟨cidOf trivialDigest, laterRev⟩ rfl hkeyed hhash hheld (some exportRev)
  obtain ⟨blocks, hread, hlookup⟩ := hread rfl
  obtain rfl : rows = [laterRow] := List.perm_singleton.mp hperm
  refine ⟨car, opening, fun limit hl rounds hr => ⟨hcar limit hl rounds hr, ?_⟩, blocks, hread, ?_⟩
  · rw [hsince limit hl rounds hr, hcar', List.map_singleton, List.flatMap_singleton]
  · intro row hrow
    rw [hlookup, Tables.stored, hkeyed.find_eq_some.mpr ⟨hrow, rfl⟩]
    rfl

end

end Manapds
