import Mathlib
import Manapds.Lib.KeyedList
import Manapds.Repo.Block

/-!
# A codec

What the other modules ask of a codec is met: this is dag-cbor as it is written, over CIDs that are
byte strings. A length is written as dag-cbor writes it up to eight bytes, and in unary past
anything a machine holds. Encodings are told apart by any prefix of them, so encoding is injective,
and decoding is its inverse.

Digests come from a table, and a block outside the table is its own digest, so no two blocks share
a CID.
-/

namespace Manapds

open KeyedList

/-- A CID as its bytes. -/
structure RawCid where
  bytes : Bytes
deriving DecidableEq

namespace DagCbor

def byte (n : ℕ) : Byte := Fin.ofNat 256 n

/-- A number in so many bytes, the highest first. -/
def bigEndian : ℕ → ℕ → Bytes
  | 0, _ => []
  | k + 1, n => bigEndian k (n / 256) ++ [byte n]

theorem length_bigEndian (k n : ℕ) : (bigEndian k n).length = k := by
  induction k generalizing n with
  | zero => rfl
  | succ k ih => simp [bigEndian, ih]

theorem bigEndian_inj {k n m : ℕ} (hn : n < 256 ^ k) (hm : m < 256 ^ k)
    (h : bigEndian k n = bigEndian k m) : n = m := by
  induction k generalizing n m with
  | zero => simp_all
  | succ k ih =>
    obtain ⟨h1, h2⟩ := List.append_inj' h rfl
    have hd : n / 256 = m / 256 := by
      refine ih ?_ ?_ h1
      · exact Nat.div_lt_of_lt_mul (by rwa [pow_succ, mul_comm] at hn)
      · exact Nat.div_lt_of_lt_mul (by rwa [pow_succ, mul_comm] at hm)
    have hr : n % 256 = m % 256 := by simpa [byte, Fin.ext_iff] using h2
    omega

/-- The bytes a length takes after the first byte of a head, and what the first byte says of it. -/
def width (n : ℕ) : ℕ × Bytes :=
  if n < 24 then (n, [])
  else if n < 256 ^ 1 then (24, bigEndian 1 n)
  else if n < 256 ^ 2 then (25, bigEndian 2 n)
  else if n < 256 ^ 4 then (26, bigEndian 4 n)
  else if n < 256 ^ 8 then (27, bigEndian 8 n)
  else (28, List.replicate n 1 ++ [0])

theorem width_lt (n : ℕ) : (width n).1 < 32 := by
  unfold width
  split_ifs with hn
  · exact hn.trans (by decide)
  all_goals simp

theorem replicate_append_inj {n m : ℕ} {r r' : Bytes}
    (h : List.replicate n (1 : Byte) ++ 0 :: r = List.replicate m 1 ++ 0 :: r') :
    n = m ∧ r = r' := by
  induction n generalizing m with
  | zero =>
    cases m with
    | zero => simpa using h
    | succ m => simp [List.replicate_succ] at h
  | succ n ih =>
    cases m with
    | zero => simp [List.replicate_succ] at h
    | succ m =>
      rw [List.replicate_succ, List.replicate_succ, List.cons_append, List.cons_append,
        List.cons_inj_right] at h
      obtain ⟨rfl, rfl⟩ := ih h
      exact ⟨rfl, rfl⟩

theorem bigEndian_append_inj {k n m : ℕ} {r r' : Bytes} (hn : n < 256 ^ k) (hm : m < 256 ^ k)
    (h : bigEndian k n ++ r = bigEndian k m ++ r') : n = m ∧ r = r' := by
  obtain ⟨h1, h2⟩ := List.append_inj h (by rw [length_bigEndian, length_bigEndian])
  exact ⟨bigEndian_inj hn hm h1, h2⟩

theorem width_inj {n m : ℕ} {r r' : Bytes} (h1 : (width n).1 = (width m).1)
    (h2 : (width n).2 ++ r = (width m).2 ++ r') : n = m ∧ r = r' := by
  unfold width at h1 h2
  split_ifs at h1 h2 <;> simp only [List.append_assoc, List.cons_append, List.nil_append] at h1 h2 <;>
    first
    | exact absurd h1 (by decide)
    | exact ⟨h1, h2⟩
    | exact bigEndian_append_inj ‹_› ‹_› h2
    | exact replicate_append_inj h2
    | omega

/-- The head of an item: its major type and a number. -/
def head (major n : ℕ) : Bytes := byte (major * 32 + (width n).1) :: (width n).2

theorem head_inj {major major' n m : ℕ} {r r' : Bytes} (hm : major < 8) (hm' : major' < 8)
    (h : head major n ++ r = head major' m ++ r') : major = major' ∧ n = m ∧ r = r' := by
  rw [head, head, List.cons_append, List.cons_append, List.cons.injEq] at h
  obtain ⟨hb, hr⟩ := h
  have hn := width_lt n
  have hw := width_lt m
  have hv : major * 32 + (width n).1 = major' * 32 + (width m).1 := by
    have hb' := congrArg Fin.val hb
    simp only [byte, Fin.val_ofNat] at hb'
    omega
  have hmaj : major = major' := by omega
  obtain ⟨h1, h2⟩ := width_inj (by omega : (width n).1 = (width m).1) hr
  exact ⟨hmaj, h1, h2⟩

/-- dag-cbor puts shorter keys first. -/
def keyLe (k k' : Str) : Prop := k.length < k'.length ∨ k.length = k'.length ∧ k ≤ k'

instance (k k' : Str) : Decidable (keyLe k k') :=
  inferInstanceAs (Decidable (k.length < k'.length ∨ k.length = k'.length ∧ k ≤ k'))

mutual

def enc : Ipld RawCid → Bytes
  | .null => [0xf6]
  | .bool b => [if b then 0xf5 else 0xf4]
  | .integer n => if 0 ≤ n then head 0 n.toNat else head 1 (-1 - n).toNat
  | .float bits => 0xfb :: bigEndian 8 bits.toNat
  | .string s => head 3 s.length ++ s
  | .bytes b => head 2 b.length ++ b
  | .list items => head 4 items.length ++ (encItems items).flatten
  | .map fields => head 5 fields.length ++
      ((encFields fields).insertionSort fun f g => keyLe f.1 g.1).flatMap fun f =>
        head 3 f.1.length ++ (f.1 ++ f.2)
  | .link cid => 0xd8 :: 0x2a :: (head 2 (cid.bytes.length + 1) ++ 0 :: cid.bytes)

def encItems : List (Ipld RawCid) → List Bytes
  | [] => []
  | v :: rest => enc v :: encItems rest

def encFields : List (Str × Ipld RawCid) → List (Str × Bytes)
  | [] => []
  | (k, v) :: rest => (k, enc v) :: encFields rest

end

theorem encItems_eq (items : List (Ipld RawCid)) : encItems items = items.map enc := by
  induction items with
  | nil => rfl
  | cons v rest ih => rw [encItems, ih, List.map_cons]

theorem encFields_eq (fields : List (Str × Ipld RawCid)) :
    encFields fields = fields.map fun f => (f.1, enc f.2) := by
  induction fields with
  | nil => rfl
  | cons f rest ih => rw [encFields, ih, List.map_cons]

/-- An encoding says where it ends, and what it is of. -/
def Delimits (v : Ipld RawCid) : Prop :=
  ∀ w r r', w.wf = true → enc v ++ r = enc w ++ r' → v = w ∧ r = r'

theorem enc_items_inj {items items' : List (Ipld RawCid)} {r r' : Bytes}
    (hd : ∀ v ∈ items, Delimits v) (hw : ∀ v ∈ items', v.wf = true)
    (hl : items.length = items'.length)
    (h : (items.map enc).flatten ++ r = (items'.map enc).flatten ++ r') :
    items = items' ∧ r = r' := by
  induction items generalizing items' with
  | nil =>
    obtain rfl := List.length_eq_zero_iff.mp hl.symm
    exact ⟨rfl, h⟩
  | cons v items ih =>
    cases items' with
    | nil => cases hl
    | cons w items' =>
      simp only [List.map_cons, List.flatten_cons, List.append_assoc] at h
      obtain ⟨rfl, h'⟩ := hd v List.mem_cons_self w _ _ (hw w List.mem_cons_self) h
      obtain ⟨rfl, rfl⟩ := ih (fun x hx => hd x (List.mem_cons_of_mem v hx))
        (fun x hx => hw x (List.mem_cons_of_mem v hx)) (Nat.succ.inj hl) h'
      exact ⟨rfl, rfl⟩

theorem enc_fields_inj {fs gs : List (Str × Bytes)} {r r' : Bytes}
    (hf : ∀ f ∈ fs, ∃ v, f.2 = enc v ∧ Delimits v)
    (hg : ∀ g ∈ gs, ∃ w : Ipld RawCid, g.2 = enc w ∧ w.wf = true) (hl : fs.length = gs.length)
    (h : (fs.flatMap fun f => head 3 f.1.length ++ (f.1 ++ f.2)) ++ r =
      (gs.flatMap fun f => head 3 f.1.length ++ (f.1 ++ f.2)) ++ r') : fs = gs ∧ r = r' := by
  induction fs generalizing gs with
  | nil =>
    obtain rfl := List.length_eq_zero_iff.mp hl.symm
    exact ⟨rfl, h⟩
  | cons f fs ih =>
    cases gs with
    | nil => cases hl
    | cons g gs =>
      simp only [List.flatMap_cons, List.append_assoc] at h
      obtain ⟨-, hlen, h⟩ := head_inj (by decide) (by decide) h
      obtain ⟨hkey, h⟩ := List.append_inj h hlen
      obtain ⟨v, hv, hd⟩ := hf f List.mem_cons_self
      obtain ⟨w, hw, hwf⟩ := hg g List.mem_cons_self
      rw [hv, hw] at h
      obtain ⟨rfl, h'⟩ := hd w _ _ hwf h
      obtain ⟨rfl, rfl⟩ := ih (fun x hx => hf x (List.mem_cons_of_mem f hx))
        (fun x hx => hg x (List.mem_cons_of_mem g hx)) (Nat.succ.inj hl) h'
      exact ⟨by rw [Prod.ext hkey (hv.trans hw.symm)], rfl⟩

/-- The fields of a map are the same whichever order they are written in. -/
theorem fields_eq_of_sorted {fields fields' : List (Str × Ipld RawCid)}
    (hw : (Ipld.map fields).wf = true) (hw' : (Ipld.map fields').wf = true)
    (hd : ∀ f ∈ fields, Delimits f.2)
    (h : ((encFields fields).insertionSort fun f g => keyLe f.1 g.1) =
      (encFields fields').insertionSort fun f g => keyLe f.1 g.1) : fields = fields' := by
  rw [encFields_eq, encFields_eq] at h
  have hp : (fields.map fun f => (f.1, enc f.2)).Perm (fields'.map fun f => (f.1, enc f.2)) := by
    have h1 := List.perm_insertionSort (fun f g : Str × Bytes => keyLe f.1 g.1)
      (fields.map fun f => (f.1, enc f.2))
    rw [h] at h1
    exact h1.symm.trans (List.perm_insertionSort _ _)
  rw [Ipld.wf_map, Bool.and_eq_true, decide_eq_true_eq, List.all_eq_true] at hw hw'
  have ho : ∀ fs : List (Str × Ipld RawCid), (fs.map Prod.fst).Pairwise (· < ·) →
      Ordered Prod.fst (fs.map fun f => (f.1, enc f.2)) := by
    intro fs hfs
    exact List.pairwise_map.mpr (List.pairwise_map.mp hfs)
  have he := (ho fields hw.1).ext (ho fields' hw'.1) fun x => hp.mem_iff
  clear h hp
  induction fields generalizing fields' with
  | nil => exact (List.map_eq_nil_iff.mp he.symm).symm
  | cons f fields ih =>
    cases fields' with
    | nil => simp at he
    | cons g fields' =>
      simp only [List.map_cons, List.cons.injEq, Prod.mk.injEq] at he
      obtain ⟨⟨hk, hv⟩, he⟩ := he
      have hfg : f.2 = g.2 := (hd f List.mem_cons_self g.2 [] []
        (hw'.2 g List.mem_cons_self) (by rw [hv])).1
      rw [Prod.ext hk hfg, ih
        ⟨(List.pairwise_cons.mp hw.1).2, fun x hx => hw.2 x (List.mem_cons_of_mem f hx)⟩
        ⟨(List.pairwise_cons.mp hw'.1).2, fun x hx => hw'.2 x (List.mem_cons_of_mem g hx)⟩
        (fun x hx => hd x (List.mem_cons_of_mem f hx)) he]

/-- The major type every encoding starts with. -/
def major : Ipld RawCid → ℕ
  | .null => 7
  | .bool _ => 7
  | .integer n => if 0 ≤ n then 0 else 1
  | .float _ => 7
  | .string _ => 3
  | .bytes _ => 2
  | .list _ => 4
  | .map _ => 5
  | .link _ => 6

theorem major_integer_le (n : ℤ) : major (.integer n) ≤ 1 := by
  simp only [major]
  split_ifs <;> decide

theorem major_lt (v : Ipld RawCid) : major v < 8 := by
  cases v with
  | integer n => exact (major_integer_le n).trans_lt (by decide)
  | _ => simp [major]

theorem enc_first (v : Ipld RawCid) :
    ∃ x rest, enc v = byte (major v * 32 + x) :: rest ∧ x < 32 := by
  cases v with
  | null => exact ⟨22, [], rfl, by decide⟩
  | bool b =>
    cases b with
    | false => exact ⟨20, [], rfl, by decide⟩
    | true => exact ⟨21, [], rfl, by decide⟩
  | integer n =>
    by_cases hn : 0 ≤ n
    · exact ⟨_, _, by rw [enc, if_pos hn, major, if_pos hn, head], width_lt _⟩
    · exact ⟨_, _, by rw [enc, if_neg hn, major, if_neg hn, head], width_lt _⟩
  | float bits => exact ⟨27, _, rfl, by decide⟩
  | string s => exact ⟨_, _, rfl, width_lt _⟩
  | bytes b => exact ⟨_, _, rfl, width_lt _⟩
  | list items => exact ⟨_, _, by rw [enc]; rfl, width_lt _⟩
  | map fields => exact ⟨_, _, by rw [enc]; rfl, width_lt _⟩
  | link cid => exact ⟨24, _, rfl, by decide⟩

theorem major_eq {v w : Ipld RawCid} {r r' : Bytes} (h : enc v ++ r = enc w ++ r') :
    major v = major w := by
  obtain ⟨x, rest, hv, hx⟩ := enc_first v
  obtain ⟨y, rest', hw, hy⟩ := enc_first w
  have hm := major_lt v
  have hm' := major_lt w
  rw [hv, hw, List.cons_append, List.cons_append, List.cons.injEq] at h
  have hb := congrArg Fin.val h.1
  simp only [byte, Fin.val_ofNat] at hb
  omega

theorem toNat_inj_of_nonneg {n m : ℤ} (hn : 0 ≤ n) (hm : 0 ≤ m) (h : n.toNat = m.toNat) :
    n = m := by
  omega

theorem delimits_integer (n : ℤ) : Delimits (.integer n) := by
  intro w r r' hw h
  have hm := major_eq h
  have hle := major_integer_le n
  cases w with
  | integer m =>
    by_cases hn : 0 ≤ n
    · by_cases hn' : 0 ≤ m
      · rw [enc, if_pos hn, enc, if_pos hn'] at h
        obtain ⟨-, hv, hr⟩ := head_inj (by decide) (by decide) h
        exact ⟨by rw [toNat_inj_of_nonneg hn hn' hv], hr⟩
      · simp [major, hn, hn'] at hm
    · by_cases hn' : 0 ≤ m
      · simp [major, hn, hn'] at hm
      · rw [enc, if_neg hn, enc, if_neg hn'] at h
        obtain ⟨-, hv, hr⟩ := head_inj (by decide) (by decide) h
        exact ⟨by rw [show n = m by omega], hr⟩
  | _ =>
    simp only [major] at hm hle
    split_ifs at hm hle
    all_goals omega

theorem simple_of_major {w : Ipld RawCid} (h : major w = 7) :
    w = .null ∨ (∃ b, w = .bool b) ∨ ∃ bits, w = .float bits := by
  cases w with
  | null => exact Or.inl rfl
  | bool b => exact Or.inr (Or.inl ⟨b, rfl⟩)
  | float bits => exact Or.inr (Or.inr ⟨bits, rfl⟩)
  | integer n => exact absurd h (by have := major_integer_le n; omega)
  | _ => simp [major] at h

/-- Of the major type that says what it is in the rest of the first byte. -/
theorem delimits_simple {v : Ipld RawCid} (hv : major v = 7) : Delimits v := by
  intro w r r' hw h
  have hw7 := (major_eq h).symm.trans hv
  rcases simple_of_major hv with rfl | ⟨b, rfl⟩ | ⟨bits, rfl⟩ <;>
    rcases simple_of_major hw7 with rfl | ⟨b', rfl⟩ | ⟨bits', rfl⟩ <;>
    simp only [enc, List.cons_append, List.nil_append, List.cons.injEq] at h
  · exact ⟨rfl, h.2⟩
  · cases b' <;> exact absurd h.1 (by decide)
  · exact absurd h.1 (by decide)
  · cases b <;> exact absurd h.1 (by decide)
  · cases b <;> cases b' <;> first | exact ⟨rfl, h.2⟩ | exact absurd h.1 (by decide)
  · cases b <;> exact absurd h.1 (by decide)
  · exact absurd h.1 (by decide)
  · cases b' <;> exact absurd h.1 (by decide)
  · obtain ⟨hb, hr⟩ := bigEndian_append_inj bits.toNat_lt bits'.toNat_lt h.2
    rw [UInt64.toNat_inj.mp hb]
    exact ⟨rfl, hr⟩

theorem string_of_major {w : Ipld RawCid} (h : major w = 3) : ∃ s, w = .string s := by
  cases w with
  | string s => exact ⟨s, rfl⟩
  | integer n => exact absurd h (by have := major_integer_le n; omega)
  | _ => simp [major] at h

theorem bytes_of_major {w : Ipld RawCid} (h : major w = 2) : ∃ b, w = .bytes b := by
  cases w with
  | bytes b => exact ⟨b, rfl⟩
  | integer n => exact absurd h (by have := major_integer_le n; omega)
  | _ => simp [major] at h

theorem list_of_major {w : Ipld RawCid} (h : major w = 4) : ∃ items, w = .list items := by
  cases w with
  | list items => exact ⟨items, rfl⟩
  | integer n => exact absurd h (by have := major_integer_le n; omega)
  | _ => simp [major] at h

theorem map_of_major {w : Ipld RawCid} (h : major w = 5) : ∃ fields, w = .map fields := by
  cases w with
  | map fields => exact ⟨fields, rfl⟩
  | integer n => exact absurd h (by have := major_integer_le n; omega)
  | _ => simp [major] at h

theorem link_of_major {w : Ipld RawCid} (h : major w = 6) : ∃ cid, w = .link cid := by
  cases w with
  | link cid => exact ⟨cid, rfl⟩
  | integer n => exact absurd h (by have := major_integer_le n; omega)
  | _ => simp [major] at h

theorem delimits {v : Ipld RawCid} (hv : v.wf = true) : Delimits v := by
  suffices hs : ∀ n, ∀ v : Ipld RawCid, sizeOf v ≤ n → v.wf = true → Delimits v from
    hs (sizeOf v) v (Nat.le_refl _) hv
  clear hv
  intro n
  induction n with
  | zero =>
    intro v hv
    cases v <;> simp at hv
  | succ n ih =>
    intro v hn hv
    cases v with
    | null => exact delimits_simple rfl
    | bool b => exact delimits_simple rfl
    | integer n => exact delimits_integer n
    | float bits => exact delimits_simple rfl
    | string s =>
      intro w r r' hw h
      obtain ⟨s', rfl⟩ := string_of_major (major_eq h).symm
      simp only [enc, List.append_assoc] at h
      obtain ⟨-, hl, h⟩ := head_inj (by decide) (by decide) h
      obtain ⟨rfl, rfl⟩ := List.append_inj h hl
      exact ⟨rfl, rfl⟩
    | bytes b =>
      intro w r r' hw h
      obtain ⟨b', rfl⟩ := bytes_of_major (major_eq h).symm
      simp only [enc, List.append_assoc] at h
      obtain ⟨-, hl, h⟩ := head_inj (by decide) (by decide) h
      obtain ⟨rfl, rfl⟩ := List.append_inj h hl
      exact ⟨rfl, rfl⟩
    | list items =>
      intro w r r' hw h
      obtain ⟨items', rfl⟩ := list_of_major (major_eq h).symm
      rw [Ipld.wf_list, List.all_eq_true] at hv hw
      simp only [enc, List.append_assoc, encItems_eq] at h
      obtain ⟨-, hl, h⟩ := head_inj (by decide) (by decide) h
      have hd : ∀ v ∈ items, Delimits v := by
        intro v hm
        have hs := List.sizeOf_lt_of_mem hm
        simp only [Ipld.list.sizeOf_spec] at hn
        exact ih v (by omega) (hv v hm)
      obtain ⟨rfl, rfl⟩ := enc_items_inj hd hw hl h
      exact ⟨rfl, rfl⟩
    | map fields =>
      intro w r r' hw h
      obtain ⟨fields', rfl⟩ := map_of_major (major_eq h).symm
      have hv' := hv
      have hw' := hw
      rw [Ipld.wf_map, Bool.and_eq_true, decide_eq_true_eq, List.all_eq_true] at hv' hw'
      simp only [enc, List.append_assoc] at h
      obtain ⟨-, hl, h⟩ := head_inj (by decide) (by decide) h
      have hd : ∀ f ∈ fields, Delimits f.2 := by
        intro f hm
        have hs := List.sizeOf_lt_of_mem hm
        obtain ⟨k, v⟩ := f
        simp only [Ipld.map.sizeOf_spec, Prod.mk.sizeOf_spec] at hn hs
        exact ih v (by omega) (hv'.2 (k, v) hm)
      have hf : ∀ f ∈ (encFields fields).insertionSort fun f g => keyLe f.1 g.1,
          ∃ v, f.2 = enc v ∧ Delimits v := by
        intro f hf
        rw [List.mem_insertionSort, encFields_eq] at hf
        obtain ⟨g, hg, rfl⟩ := List.mem_map.mp hf
        exact ⟨g.2, rfl, hd g hg⟩
      have hg : ∀ f ∈ (encFields fields').insertionSort fun f g => keyLe f.1 g.1,
          ∃ v : Ipld RawCid, f.2 = enc v ∧ v.wf = true := by
        intro f hf
        rw [List.mem_insertionSort, encFields_eq] at hf
        obtain ⟨g, hg, rfl⟩ := List.mem_map.mp hf
        exact ⟨g.2, rfl, hw'.2 g hg⟩
      have hlen : ((encFields fields).insertionSort fun f g => keyLe f.1 g.1).length =
          ((encFields fields').insertionSort fun f g => keyLe f.1 g.1).length := by
        rw [List.length_insertionSort, List.length_insertionSort, encFields_eq, encFields_eq,
          List.length_map, List.length_map]
        exact hl
      obtain ⟨hs, rfl⟩ := enc_fields_inj hf hg hlen h
      rw [fields_eq_of_sorted hv hw hd hs]
      exact ⟨rfl, rfl⟩
    | link cid =>
      intro w r r' hw h
      obtain ⟨cid', rfl⟩ := link_of_major (major_eq h).symm
      simp only [enc, List.cons_append, List.append_assoc, List.cons.injEq, true_and] at h
      obtain ⟨-, hl, h⟩ := head_inj (by decide) (by decide) h
      obtain ⟨hb, rfl⟩ := List.append_inj (List.cons.inj h).2 (Nat.succ.inj hl)
      cases cid; cases cid'
      cases hb
      exact ⟨rfl, rfl⟩

/-! ## Digests -/

/-- A CID of the code's own kind, over a digest. -/
def cidOf (digest : ℕ) : RawCid := ⟨[0x01, 0x71, 0x12, 0x20] ++ bigEndian 32 digest⟩

/-- The record the tests of the tree point every key at. -/
def someRecord : RawCid :=
  cidOf 0x9d156bc3f3a520066252c708a9361fd3d089223842500e3713d404fdccb33cef

/-- A key of layer 0, and one of layer 2. -/
def lowKey : Str := text "com.example.record/3jqfcqzm3fo2j"

def highKey : Str := text "com.example.record/3jqfcqzm3fx2j"

def trivialDigest : ℕ :=
  0x29e2e42d820d8d5e77f6ec8b4ae746b1a72d86cfcbb20700b35ed6c1e982791d

def pointerDigest : ℕ :=
  0xac939d53ca25d1394e9bfff894402a15e16fdd9c113c8837f8249844d54a5f8f

/-- The one-record tree of the tests, and the lone pointers over it. -/
def trivialNode : NodeData RawCid := ⟨none, [⟨0, lowKey, someRecord, none⟩]⟩

def pointerNode (digest : ℕ) : NodeData RawCid := ⟨some (cidOf digest), []⟩

/-- The sha-256 of a few byte strings. -/
def digests : List (Bytes × ℕ) :=
  [(lowKey, 0x4762758ec6520f38c4efa1df20a3dae0b4a68c01a9fa5daf1174f4c0d4566919),
    (highKey, 0x048a99084560770d4c2e16585dc479a50dbb0cd8b36c3e9779e084f782385ef5),
    (enc trivialNode.toIpld, trivialDigest),
    (enc (pointerNode trivialDigest).toIpld, pointerDigest),
    (enc (pointerNode pointerDigest).toIpld,
      0x0cc8aa299ff256e6ae3685187de144ca3e31b6c01d5f4df79b053d507d6654f5)]

theorem digests_nodup : (digests.map Prod.snd).Nodup := by decide

theorem digests_lt : ∀ p ∈ digests, p.2 < 256 ^ 32 := by
  simp [digests, trivialDigest, pointerDigest]

def digest (b : Bytes) : Vector Byte 32 :=
  ⟨(bigEndian 32 ((digests.lookup b).getD (256 ^ 32 - 1))).toArray,
    by rw [List.size_toArray, length_bigEndian]⟩

def cidFor (b : Bytes) : RawCid :=
  match digests.lookup b with
  | some d => cidOf d
  | none => ⟨0 :: b⟩

theorem mem_of_lookup {l : List (Bytes × ℕ)} {b : Bytes} {d : ℕ} (h : l.lookup b = some d) :
    (b, d) ∈ l := by
  induction l with
  | nil => cases h
  | cons p l ih =>
    obtain ⟨b', d'⟩ := p
    by_cases hb : b = b'
    · subst hb
      simp only [List.lookup, beq_self_eq_true, Option.some_inj] at h
      subst h
      exact List.mem_cons_self
    · have hne : (b == b') = false := by simpa using hb
      simp only [List.lookup, hne] at h
      exact List.mem_cons_of_mem _ (ih h)

theorem cidFor_injective : Function.Injective cidFor := by
  intro b b' h
  unfold cidFor at h
  cases hb : digests.lookup b with
  | none =>
    cases hb' : digests.lookup b' with
    | none => simpa [hb, hb'] using h
    | some d => simp [hb, hb', cidOf] at h
  | some d =>
    cases hb' : digests.lookup b' with
    | none => simp [hb, hb', cidOf] at h
    | some d' =>
      have hm := mem_of_lookup hb
      have hm' := mem_of_lookup hb'
      simp only [hb, hb', cidOf, RawCid.mk.injEq, List.append_cancel_left_eq] at h
      have hd : d = d' := bigEndian_inj (digests_lt _ hm) (digests_lt _ hm') h
      exact congrArg Prod.fst (List.inj_on_of_nodup_map digests_nodup hm hm' hd)

/-- What an encoding is of. -/
noncomputable def decode {α : Type} (toIpld : α → Ipld RawCid) (b : Bytes) : Except String α :=
  open Classical in
  if h : ∃ a, (toIpld a).plain = true ∧ enc (toIpld a) = b then .ok h.choose
  else .error "not an encoding"

theorem decode_enc {α : Type} {toIpld : α → Ipld RawCid} (hi : Function.Injective toIpld)
    (hw : ∀ a, (toIpld a).wf = true) {a : α} (hp : (toIpld a).plain = true) :
    decode toIpld (enc (toIpld a)) = .ok a := by
  have h : ∃ a', (toIpld a').plain = true ∧ enc (toIpld a') = enc (toIpld a) := ⟨a, hp, rfl⟩
  rw [decode, dif_pos h]
  have he := h.choose_spec.2
  exact congrArg _ (hi (delimits (hw _) _ [] [] (hw a) (congrArg (· ++ []) he)).1)

/-! ## Records under these CIDs -/

theorem recordDid_valid : Did.validate (text "did:plc:4cjoyc3cgpal7gnrpzyjhnv3") = .ok () := rfl

def recordDid : Did := ⟨text "did:plc:4cjoyc3cgpal7gnrpzyjhnv3", recordDid_valid⟩

theorem recordCollection_valid : Nsid.validate (text "com.example.record") = .ok () := rfl

def recordCollection : Nsid := ⟨text "com.example.record", recordCollection_valid⟩

theorem recordKey_valid : RecordKey.validate (text "3jqfcqzm3fo2j") = .ok () := rfl

/-- With its collection, `lowKey`. -/
def recordKey : RecordKey := ⟨text "3jqfcqzm3fo2j", recordKey_valid⟩

theorem textRecord_wf (words : Str) : (Ipld.map [(text "$type", .string recordCollection.str),
    (text "text", .string words)] : Ipld RawCid).wf = true := by
  have h : ([text "$type", text "text"]).Pairwise (· < ·) := by decide
  rw [Ipld.wf_map, Bool.and_eq_true, decide_eq_true_eq]
  exact ⟨h, by simp [Ipld.wf]⟩

/-- A record that says something. -/
def textRecord (words : Str) : Value RawCid := ⟨_, textRecord_wf words⟩

end DagCbor

noncomputable instance : Codec RawCid where
  sha256 := DagCbor.digest
  cidFor := DagCbor.cidFor
  toVec v := if v.plain then .ok (DagCbor.enc v) else .error "not a number dag-cbor writes"
  nodeFromSlice := DagCbor.decode NodeData.toIpld
  commitFromSlice := DagCbor.decode Commit.toIpld

theorem toVec_eq_ok {v : Ipld RawCid} {b : Bytes} :
    Codec.toVec v = .ok b ↔ v.plain = true ∧ DagCbor.enc v = b := by
  change (if v.plain then Except.ok (DagCbor.enc v) else _) = _ ↔ _
  split_ifs with h <;> simp [h]

instance : LawfulCodec RawCid where
  cidFor_injective := DagCbor.cidFor_injective
  toVec_injective := by
    intro v w b hv hw h h'
    obtain ⟨-, rfl⟩ := toVec_eq_ok.mp h
    obtain ⟨-, he⟩ := toVec_eq_ok.mp h'
    exact (DagCbor.delimits hv w [] [] hw (by rw [he])).1
  toVec_ok := fun _ hp => ⟨_, toVec_eq_ok.mpr ⟨hp, rfl⟩⟩
  nodeFromSlice_toVec := by
    intro node b h
    obtain ⟨hp, rfl⟩ := toVec_eq_ok.mp h
    exact DagCbor.decode_enc NodeData.toIpld_injective NodeData.wf_toIpld hp
  commitFromSlice_toVec := by
    intro commit b h
    obtain ⟨hp, rfl⟩ := toVec_eq_ok.mp h
    exact DagCbor.decode_enc Commit.toIpld_injective Commit.wf_toIpld hp

section

open DagCbor

/-- The text of the one CID that is written out here; any other is told apart by a byte no text has. -/
def cidText (cid : RawCid) : Str :=
  if cid = cidOf trivialDigest then
    text "bafyreibj4lsc3aqnrvphp5xmrnfoorvru4wynt6lwidqbm2623a6tatzdu"
  else 0 :: cid.bytes

theorem cidText_injective : Function.Injective cidText := by
  have hhead : (text "bafyreibj4lsc3aqnrvphp5xmrnfoorvru4wynt6lwidqbm2623a6tatzdu").head? ≠
      some 0 := by decide
  intro a b h
  unfold cidText at h
  split_ifs at h with ha hb hb
  · rw [ha, hb]
  · rw [h] at hhead
    exact absurd rfl hhead
  · rw [← h] at hhead
    exact absurd rfl hhead
  · exact congrArg RawCid.mk (List.cons.inj h).2

instance : CidText RawCid := ⟨cidText⟩

instance : LawfulCidText RawCid := ⟨cidText_injective⟩

end

end Manapds
