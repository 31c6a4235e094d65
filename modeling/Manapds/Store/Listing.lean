import Manapds.Lib.Paging
import Manapds.Repo.Json
import Manapds.Store.Address

/-!
# Listing a collection

A page of a collection is a range of the index, which is kept by uri: one bound is where the
collection starts or ends, and a cursor takes the place of the other. Whatever string it is, a
cursor leaves the range inside its collection, so a page is of the records there whose keys are
past the cursor.
-/

namespace Manapds

variable {Cid : Type}

/-- One record, as a page of a collection has it. -/
structure Record (Cid : Type) where
  uri : Str
  cid : Cid
  value : Bytes

section

/-- The range of the index a page is read from. -/
def recordsBounds (start : Str) (cursor : Option Str) (reverse : Bool) : Str × Str :=
  match cursor.map (start ++ ·), reverse with
  | some at_, true => (at_, start ++ [del])
  | some at_, false => (start, at_)
  | none, _ => (start, start ++ [del])

/-- The condition of the query. -/
def recordsWithin (start : Str) (cursor : Option Str) (reverse : Bool) (at_ : Str) : Bool :=
  (if cursor.isSome && reverse then decide ((recordsBounds start cursor reverse).1 < at_)
    else decide ((recordsBounds start cursor reverse).1 ≤ at_)) &&
    decide (at_ < (recordsBounds start cursor reverse).2)

/-- `asc` where `reverse` is asked for, else `desc`. -/
def inOrder (reverse : Bool) (rows : List (Record Cid)) : List (Record Cid) :=
  if reverse then Paging.sorted (fun row => OrderDual.toDual row.uri) rows
  else Paging.sorted Record.uri rows

variable [DecidableEq Cid]

/-- A row of `record` joined with the row of `repo_block` that has its content. -/
def Tables.joined (tables : Tables Cid) (row : RecordRow Cid) : Option (Record Cid) :=
  (tables.stored row.cid).map fun value => ⟨row.uri, row.cid, value⟩

/-- One page of a collection, newest key first unless `reverse` asks for the other end. -/
def Tables.records (tables : Tables Cid) (did : Did) (collection : Nsid) (limit : ℕ)
    (cursor : Option Str) (reverse : Bool) : List (Record Cid) :=
  (inOrder reverse ((tables.record.filterMap tables.joined).filter fun row =>
    recordsWithin (uriPrefix did collection) cursor reverse row.uri)).take limit

end

/-! ## What a range holds -/

/-- Past a cursor, in the direction of a listing. -/
def past (cursor : Option Str) (reverse : Bool) (key : Str) : Bool :=
  cursor.all fun mark => if reverse then decide (mark < key) else decide (key < mark)

theorem recordsWithin_none {start at_ : Str} {reverse : Bool} :
    recordsWithin start none reverse at_ = true ↔ start ≤ at_ ∧ at_ < start ++ [del] := by
  change (decide (start ≤ at_) && decide (at_ < start ++ [del])) = true ↔ _
  rw [Bool.and_eq_true, decide_eq_true_iff, decide_eq_true_iff]

theorem recordsWithin_down {start at_ mark : Str} :
    recordsWithin start (some mark) false at_ = true ↔ start ≤ at_ ∧ at_ < start ++ mark := by
  change (decide (start ≤ at_) && decide (at_ < start ++ mark)) = true ↔ _
  rw [Bool.and_eq_true, decide_eq_true_iff, decide_eq_true_iff]

theorem recordsWithin_up {start at_ mark : Str} :
    recordsWithin start (some mark) true at_ = true ↔
      start ++ mark < at_ ∧ at_ < start ++ [del] := by
  change (decide (start ++ mark < at_) && decide (at_ < start ++ [del])) = true ↔ _
  rw [Bool.and_eq_true, decide_eq_true_iff, decide_eq_true_iff]

theorem recordsWithin_iff {did : Did} {collection collection' : Nsid} {rkey : RecordKey}
    {cursor : Option Str} {reverse : Bool} :
    recordsWithin (uriPrefix did collection) cursor reverse (uri did collection' rkey) = true ↔
      collection' = collection ∧ past cursor reverse rkey.str = true := by
  have hcut : ∀ a, uri did collection' rkey = uriPrefix did collection ++ a ↔
      collection' = collection ∧ rkey.str = a := by
    intro a
    constructor
    · intro h
      exact (uriPrefix_append_inj h).2
    · rintro ⟨rfl, rfl⟩
      rfl
  have hbelow : ∀ t, (uriPrefix did collection ≤ uri did collection' rkey ∧
      uri did collection' rkey < uriPrefix did collection ++ t) ↔
        collection' = collection ∧ rkey.str < t := by
    intro t
    rw [Words.between_append_iff]
    simp only [hcut]
    constructor
    · rintro ⟨a, ⟨hc, rfl⟩, ha⟩
      exact ⟨hc, ha⟩
    · rintro ⟨hc, ha⟩
      exact ⟨_, ⟨hc, rfl⟩, ha⟩
  have habove : ∀ t, (uriPrefix did collection ++ t < uri did collection' rkey ∧
      uri did collection' rkey < uriPrefix did collection ++ [del]) ↔
        collection' = collection ∧ t < rkey.str := by
    intro t
    rw [Words.above_append_iff]
    simp only [hcut]
    constructor
    · rintro ⟨a, ⟨hc, rfl⟩, ha, -⟩
      exact ⟨hc, ha⟩
    · rintro ⟨hc, ha⟩
      exact ⟨_, ⟨hc, rfl⟩, ha, rkey.str_lt_del⟩
  cases cursor with
  | none =>
    have h := hbelow [del]
    simp only [rkey.str_lt_del, and_true] at h
    rw [recordsWithin_none, h]
    simp [past]
  | some mark =>
    cases reverse with
    | false =>
      rw [recordsWithin_down, hbelow]
      simp [past]
    | true =>
      rw [recordsWithin_up, habove]
      simp [past]

/-! ## A collection in order -/

/-- The record key an address ends in. -/
def keyOf (uri : Str) : Str := (uri.split (ascii '/')).getLast?.getD uri

theorem keyOf_uri (did : Did) (collection : Nsid) (rkey : RecordKey) :
    keyOf (uri did collection rkey) = rkey.str := by
  have hrkey : ascii '/' ∉ rkey.str :=
    not_mem_of_isIdentifierByte (by decide) rkey.isIdentifierByte
  have hjoined : uri did collection rkey = [ascii '/'].intercalate
      [text "at:", [], did.str, collection.str, rkey.str] := by
    have hstart : text "at://" = text "at:" ++ [ascii '/', ascii '/'] := by decide
    simp [uri, uriPrefix, hstart, List.intercalate_cons_cons]
  have hsplit : (uri did collection rkey).split (ascii '/') =
      [text "at:", [], did.str, collection.str, rkey.str] := by
    rw [hjoined]
    apply List.splitOn_intercalate
    · have hstart : ascii '/' ∉ text "at:" := by decide
      simp [hstart, did.slash_not_mem, collection.slash_not_mem, hrkey]
    · exact List.cons_ne_nil _ _
  rw [keyOf, hsplit]
  rfl

/-- Before another, in the direction of a listing. -/
def Record.Before (reverse : Bool) (a b : Record Cid) : Prop :=
  if reverse then keyOf a.uri < keyOf b.uri else keyOf b.uri < keyOf a.uri

theorem Record.Before.asymm {reverse : Bool} {a b : Record Cid} (h : a.Before reverse b) :
    ¬b.Before reverse a := by
  cases reverse with
  | true => exact lt_asymm (h : keyOf a.uri < keyOf b.uri)
  | false => exact lt_asymm (h : keyOf b.uri < keyOf a.uri)

theorem past_iff_before {reverse : Bool} {a b : Record Cid} :
    past (some (keyOf a.uri)) reverse (keyOf b.uri) = true ↔ a.Before reverse b := by
  cases reverse with
  | true =>
    change decide (keyOf a.uri < keyOf b.uri) = true ↔ keyOf a.uri < keyOf b.uri
    rw [decide_eq_true_iff]
  | false =>
    change decide (keyOf b.uri < keyOf a.uri) = true ↔ keyOf b.uri < keyOf a.uri
    rw [decide_eq_true_iff]

section

variable {rows : List (Record Cid)} {reverse : Bool}

theorem inOrder_perm : (inOrder reverse rows).Perm rows := by
  cases reverse with
  | true => exact Paging.sorted_perm
  | false => exact Paging.sorted_perm

theorem mem_inOrder {row : Record Cid} : row ∈ inOrder reverse rows ↔ row ∈ rows :=
  inOrder_perm.mem_iff

theorem inOrder_filter (hk : (rows.map Record.uri).Nodup) (p : Record Cid → Bool) :
    inOrder reverse (rows.filter p) = (inOrder reverse rows).filter p := by
  cases reverse with
  | true =>
    have hdual : (rows.map fun row => OrderDual.toDual row.uri).Nodup := hk
    exact Paging.sorted_filter_eq hdual p
  | false => exact Paging.sorted_filter_eq hk p

theorem pairwise_inOrder (hk : (rows.map Record.uri).Nodup) :
    (inOrder reverse rows).Pairwise fun a b => if reverse then a.uri < b.uri else b.uri < a.uri := by
  cases reverse with
  | true =>
    have hdual : (rows.map fun row => OrderDual.toDual row.uri).Nodup := hk
    exact Paging.pairwise_sorted_lt hdual
  | false => exact Paging.pairwise_sorted_lt hk

end

variable [DecidableEq Cid]

/-- What a listing of a collection goes through: its records in order. -/
structure Tables.Lists (tables : Tables Cid) (did : Did) (collection : Nsid) (reverse : Bool)
    (all : List (Record Cid)) : Prop where
  mem : ∀ r, r ∈ all ↔ ∃ row ∈ tables.record, row.collection = collection ∧
    r.uri = uri did collection row.rkey ∧ r.cid = row.cid ∧ tables.stored row.cid = some r.value
  complete : ∀ row ∈ tables.record, row.collection = collection → ∃ r ∈ all, r.uri = row.uri
  ordered : all.Pairwise (Record.Before reverse)

/-- What an index has to be for its listings to be of it: a row for each uri, which is that of its
record, and the content of every record. -/
structure Tables.Indexed (tables : Tables Cid) (did : Did) : Prop where
  keyed : Table.Keyed RecordRow.uri tables.record
  named : ∀ row ∈ tables.record, row.uri = uri did row.collection row.rkey
  held : ∀ row ∈ tables.record, (tables.stored row.cid).isSome = true

section

variable {tables : Tables Cid} {did : Did} {collection : Nsid} {reverse : Bool}

/-- The records of a collection in order. -/
def Tables.collected (tables : Tables Cid) (collection : Nsid) (reverse : Bool) :
    List (Record Cid) :=
  inOrder reverse ((tables.record.filter fun row => row.collection = collection).filterMap
    tables.joined)

theorem Tables.mem_collected {r : Record Cid} : r ∈ tables.collected collection reverse ↔
    ∃ row ∈ tables.record, row.collection = collection ∧ r.uri = row.uri ∧ r.cid = row.cid ∧
      tables.stored row.cid = some r.value := by
  rw [collected, mem_inOrder, List.mem_filterMap]
  constructor
  · rintro ⟨row, hrow, hjoined⟩
    obtain ⟨hm, hc⟩ := List.mem_filter.mp hrow
    obtain ⟨value, hvalue, rfl⟩ := Option.map_eq_some_iff.mp hjoined
    exact ⟨row, hm, of_decide_eq_true hc, rfl, rfl, hvalue⟩
  · rintro ⟨row, hm, hc, huri, hcid, hvalue⟩
    refine ⟨row, List.mem_filter.mpr ⟨hm, decide_eq_true hc⟩, ?_⟩
    obtain ⟨at_, cid, value⟩ := r
    obtain rfl := huri
    obtain rfl := hcid
    rw [joined, hvalue]
    rfl

theorem Tables.joined_uri {row : RecordRow Cid} {r : Record Cid} (h : tables.joined row = some r) :
    r.uri = row.uri := by
  obtain ⟨value, -, rfl⟩ := Option.map_eq_some_iff.mp h
  rfl

variable (h : tables.Indexed did)

include h

theorem Tables.Indexed.nodup_joined (collection : Nsid) : Table.Keyed Record.uri
    ((tables.record.filter fun row => row.collection = collection).filterMap tables.joined) :=
  (h.keyed.filter _ _).filterMap _ fun _ _ => joined_uri

theorem Tables.Indexed.exists_uri {r : Record Cid} (hr : r ∈ tables.collected collection reverse) :
    ∃ rkey, r.uri = uri did collection rkey := by
  obtain ⟨row, hm, hc, huri, -⟩ := mem_collected.mp hr
  exact ⟨row.rkey, by rw [huri, h.named row hm, hc]⟩

theorem Tables.Indexed.lists : tables.Lists did collection reverse
    (tables.collected collection reverse) where
  mem := by
    intro r
    rw [mem_collected]
    constructor
    · rintro ⟨row, hm, hc, huri, hrest⟩
      exact ⟨row, hm, hc, by rw [huri, h.named row hm, hc], hrest⟩
    · rintro ⟨row, hm, hc, huri, hrest⟩
      exact ⟨row, hm, hc, by rw [huri, h.named row hm, hc], hrest⟩
  complete := by
    intro row hm hc
    obtain ⟨value, hvalue⟩ := Option.isSome_iff_exists.mp (h.held row hm)
    exact ⟨⟨row.uri, row.cid, value⟩, mem_collected.mpr ⟨row, hm, hc, rfl, rfl, hvalue⟩, rfl⟩
  ordered := by
    have hk := h.nodup_joined collection
    have hpairwise : (tables.collected collection reverse).Pairwise _ := pairwise_inOrder hk
    refine hpairwise.imp_of_mem fun {a b} ha hb hab => ?_
    obtain ⟨rkey, hrkey⟩ := h.exists_uri ha
    obtain ⟨rkey', hrkey'⟩ := h.exists_uri hb
    unfold Record.Before
    rw [hrkey, hrkey'] at hab ⊢
    rw [keyOf_uri, keyOf_uri]
    cases reverse with
    | true => exact (Words.append_lt_append_iff _).mp hab
    | false => exact (Words.append_lt_append_iff _).mp hab

/-- A page is what is past its cursor, from there on. -/
theorem Tables.Indexed.records_eq (limit : ℕ) (cursor : Option Str) :
    tables.records did collection limit cursor reverse =
      ((tables.collected collection reverse).filter fun r =>
        past cursor reverse (keyOf r.uri)).take limit := by
  have hk := h.nodup_joined collection
  rw [records, collected, ← inOrder_filter hk]
  congr 2
  rw [List.filter_filterMap, List.filter_filterMap, List.filterMap_filter]
  apply List.filterMap_congr
  intro row hm
  cases hr : tables.joined row with
  | none => simp
  | some r =>
    have huri : r.uri = uri did row.collection row.rkey := by
      rw [joined_uri hr, h.named row hm]
    have hwithin : recordsWithin (uriPrefix did collection) cursor reverse r.uri = true ↔
        row.collection = collection ∧ past cursor reverse (keyOf r.uri) = true := by
      rw [huri, keyOf_uri]
      exact recordsWithin_iff
    by_cases hc : row.collection = collection
    · have hsame : recordsWithin (uriPrefix did collection) cursor reverse r.uri =
          past cursor reverse (keyOf r.uri) := by
        rw [Bool.eq_iff_iff, hwithin]
        exact and_iff_right hc
      simp [hc, Option.filter_some, hsame]
    · have hnot : recordsWithin (uriPrefix did collection) cursor reverse r.uri = false := by
        rw [← Bool.not_eq_true, hwithin]
        exact fun hand => hc hand.1
      simp [hc, Option.filter_some, hnot]

end

end Manapds
