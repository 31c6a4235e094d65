import Manapds.Repo.CarFile

/-!
# Files of a map of blocks

A map is written out in the order of its CIDs, and is read back from a file under one root.
-/

namespace Manapds

variable {Cid : Type}

/-- `Ord` of a CID. -/
class CidOrd (Cid : Type) where
  le : Cid → Cid → Bool

/-- Every block, in CID order. -/
def BlockMap.rows [CidOrd Cid] (blocks : BlockMap Cid) : List (Cid × Bytes) :=
  (blocks.entries.map fun entry => (entry.1, entry.2)).mergeSort fun a b => CidOrd.le a.1 b.1

theorem BlockMap.orders_rows [CidOrd Cid] [DecidableEq Cid] (blocks : BlockMap Cid) :
    Car.Orders blocks.rows blocks where
  nodup := by
    have hkeys : (blocks.entries.map fun entry => (entry.1, entry.2)).map Prod.fst =
        blocks.keys := by
      rw [List.map_map]
      rfl
    apply ((List.mergeSort_perm _ _).map Prod.fst).nodup_iff.mpr
    rw [hkeys]
    exact blocks.keys_nodup
  mem := by
    intro c b
    rw [rows, List.mem_mergeSort, ← Option.mem_def, AList.mem_lookup_iff]
    constructor
    · intro hm
      obtain ⟨⟨c', b'⟩, hentry, he⟩ := List.mem_map.mp hm
      cases he
      exact hentry
    · intro hm
      exact List.mem_map.mpr ⟨⟨c, b⟩, hm, rfl⟩

namespace Car

section

variable [Codec Cid] [CarCodec Cid] [CidOrd Cid]

def rooted (roots : List Cid) (blocks : BlockMap Cid) : Except (RepoError Cid) Bytes := do
  let opening ← header roots
  return written opening blocks.rows

/-- Writes every block under one root. -/
def write (root : Cid) (blocks : BlockMap Cid) : Except (RepoError Cid) Bytes :=
  rooted [root] blocks

end

variable [Codec Cid] [LawfulCodec Cid] [CarCodec Cid] [LawfulCarCodec Cid] [CidOrd Cid]
  [DecidableEq Cid] {blocks : BlockMap Cid}

omit [CidOrd Cid] [DecidableEq Cid] [LawfulCarCodec Cid] in
theorem exists_opening (roots : List Cid) :
    ∃ opening, (header roots : Except (RepoError Cid) Bytes) = .ok opening := by
  obtain ⟨b, hb⟩ := exists_encode (CarHeader.wf_toIpld ⟨1, roots⟩) (CarHeader.plain_toIpld roots)
  refine ⟨CarCodec.varint Cid b.length ++ b, ?_⟩
  rw [header, hb]
  rfl

omit [LawfulCodec Cid] [CidOrd Cid] in
theorem hashes_of_sound (h : blocks.Sound) : Hashes blocks := by
  intro c b hb
  rw [h c b hb]
  exact hashesTo_cidFor.mpr rfl

/-- A repository that travels in a file arrives as it was. -/
theorem read_write {root : Cid} (h : blocks.Sound) (hroot : root ∈ blocks) :
    ∃ car held, write root blocks = .ok car ∧ read car = .ok (root, held) ∧
      ∀ c, held.lookup c = blocks.lookup c := by
  obtain ⟨opening, hopening⟩ := exists_opening [root]
  obtain ⟨held, hread, hheld⟩ :=
    read_written hopening (hashes_of_sound h) hroot blocks.orders_rows
  refine ⟨written opening blocks.rows, held, ?_, hread, hheld⟩
  rw [write, rooted, hopening]
  rfl

end Car

instance : CidOrd RawCid := ⟨fun a b => decide (a.bytes ≤ b.bytes)⟩

end Manapds
