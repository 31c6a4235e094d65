import Manapds.Account.Linear
import Manapds.Lib.Numeral
import Manapds.Store.Hosting
import Manapds.Store.Listing

/-!
# Pages and cursors

A full page names its last row as where the next one starts, in text a client hands back as it is.
Whoever follows the cursors goes through every row once and in order. A record is named by its key;
an account by the moment it was made, in decimal milliseconds, and its DID.
-/

namespace Manapds

variable {Cid : Type}

/-- `unwrap_or(page).clamp(1, longest)`. -/
def clamp (page longest : ℕ) (limit : Option ℕ) : ℕ := max 1 (min (limit.getD page) longest)

theorem one_le_clamp {page longest : ℕ} {limit : Option ℕ} : 1 ≤ clamp page longest limit :=
  le_max_left 1 _

/-! ## Numbers as text -/

def digitByte (i : ℕ) : Byte := Fin.ofNat 256 (48 + i)

def digitOf (b : Byte) : ℕ := b.val - 48

theorem digitOf_digitByte {i : ℕ} (h : i < 10) : digitOf (digitByte i) = i := by
  have hval : (digitByte i).val = 48 + i := Nat.mod_eq_of_lt (by omega)
  rw [digitOf, hval]
  omega

theorem isAsciiDigit_digitByte {i : ℕ} (h : i < 10) : (digitByte i).isAsciiDigit = true := by
  interval_cases i <;> decide

/-- `Display` of an `i64`. -/
def printI64 (n : ℤ) : Str :=
  if n < 0 then ascii '-' :: Numeral.digits 10 digitByte n.natAbs
  else Numeral.digits 10 digitByte n.natAbs

/-- `FromStr` of an `i64`. -/
def parseI64 (s : Str) : Option Int64 :=
  let signed := s.head? = some (ascii '-') ∨ s.head? = some (ascii '+')
  let digits := if signed then s.tail else s
  if digits = [] ∨ digits.all Byte.isAsciiDigit = false then none
  else i64TryFrom (if s.head? = some (ascii '-') then -(Numeral.value 10 digitOf digits : ℤ)
    else Numeral.value 10 digitOf digits)

theorem mem_digits_isAsciiDigit {n : ℕ} : ∀ b ∈ Numeral.digits 10 digitByte n,
    b.isAsciiDigit = true := by
  intro b hb
  obtain ⟨i, hi, rfl⟩ := Numeral.mem_digits (by decide) hb
  exact isAsciiDigit_digitByte hi

theorem parseI64_dash {digits : Str} (hne : digits ≠ [])
    (hall : ∀ b ∈ digits, b.isAsciiDigit = true) :
    parseI64 (ascii '-' :: digits) = i64TryFrom (-(Numeral.value 10 digitOf digits : ℤ)) := by
  have hall : digits.all Byte.isAsciiDigit = true := List.all_eq_true.mpr hall
  simp [parseI64, hne, hall]

theorem parseI64_digits {digits : Str} (hne : digits ≠ [])
    (hall : ∀ b ∈ digits, b.isAsciiDigit = true) :
    parseI64 digits = i64TryFrom (Numeral.value 10 digitOf digits) := by
  have hsign : ∀ c, c.isAsciiDigit = false → digits.head? ≠ some c := by
    intro c hc hhead
    rw [hall c (List.mem_of_head? hhead)] at hc
    cases hc
  have hminus := hsign (ascii '-') (by decide)
  have hplus := hsign (ascii '+') (by decide)
  have hall : digits.all Byte.isAsciiDigit = true := List.all_eq_true.mpr hall
  simp [parseI64, hne, hall, hminus, hplus]

theorem parseI64_printI64 (m : Int64) : parseI64 (printI64 m.toInt) = some m := by
  have hm := i64TryFrom_toInt m
  generalize m.toInt = n at hm
  have hvalue : Numeral.value 10 digitOf (Numeral.digits 10 digitByte n.natAbs) = n.natAbs :=
    Numeral.value_digits (by decide) (fun _ => digitOf_digitByte) _
  have hne : Numeral.digits 10 digitByte n.natAbs ≠ [] := Numeral.digits_ne_nil digitByte _
  unfold printI64
  split_ifs with hneg
  · have hn : -(n.natAbs : ℤ) = n := by omega
    rw [parseI64_dash hne mem_digits_isAsciiDigit, hvalue, hn, hm]
  · have hn : (n.natAbs : ℤ) = n := by omega
    rw [parseI64_digits hne mem_digits_isAsciiDigit, hvalue, hn, hm]

theorem colon_not_mem_printI64 (n : ℤ) : ascii ':' ∉ printI64 n := by
  have hcolon : (ascii ':').isAsciiDigit = false := by decide
  have hdigits : ascii ':' ∉ Numeral.digits 10 digitByte n.natAbs := by
    intro hm
    rw [mem_digits_isAsciiDigit _ hm] at hcolon
    cases hcolon
  have hdash : ascii ':' ≠ ascii '-' := by decide
  unfold printI64
  split_ifs
  · simp [hdash, hdigits]
  · exact hdigits

/-- `split_once` on a string. -/
def Str.splitOnceAt (sep : Str) : Str → Option (Str × Str)
  | [] => if sep = [] then some ([], []) else none
  | b :: rest =>
    if sep <+: b :: rest then some ([], (b :: rest).drop sep.length)
    else (splitOnceAt sep rest).map fun p => (b :: p.1, p.2)

theorem Str.splitOnceAt_append {a : Byte} {sep s : Str} (hs : a ∉ s) (rest : Str) :
    splitOnceAt (a :: sep) (s ++ (a :: sep ++ rest)) = some (s, rest) := by
  induction s with
  | nil =>
    rw [List.nil_append, List.cons_append, splitOnceAt, if_pos ⟨rest, rfl⟩, ← List.cons_append,
      List.drop_left]
  | cons b s ih =>
    obtain ⟨hb, hs⟩ := not_or.mp (mt List.mem_cons.mpr hs)
    have hno : ¬a :: sep <+: b :: (s ++ (a :: sep ++ rest)) := by
      rintro ⟨t, ht⟩
      exact hb (List.cons.inj ht).1
    rw [List.cons_append, splitOnceAt, if_neg hno, ih hs]
    rfl

/-! ## Repositories -/

/-- `jiff`, where it reads the times of a cursor. -/
structure Timestamps where
  /-- `Timestamp::from_millisecond`, in the milliseconds of that. -/
  fromMillisecond : Int64 → Option ℤ

structure Timestamps.Lawful (jiff : Timestamps) : Prop where
  fromMillisecond_eq_some {millis : Int64} {at_ : ℤ} : jiff.fromMillisecond millis = some at_ ↔
    millis.toInt = at_ ∧ -377705023201000 ≤ at_ ∧ at_ ≤ 253402207200999

/-- The cursor that carries on after an account. -/
def after (hosted : Hosted Cid) : Str :=
  printI64 hosted.createdAt.millis ++ (text "::" ++ hosted.did.str)

/-- Where a cursor says to pick up. -/
def starting (jiff : Timestamps) (cursor : Str) : Except String Hosted.Cursor :=
  match Str.splitOnceAt (text "::") cursor with
  | none => .error "Malformed cursor"
  | some (at_, did) => match (parseI64 at_).bind jiff.fromMillisecond with
    | none => .error "Malformed cursor"
    | some createdAt => .ok ⟨createdAt, did⟩

theorem starting_after {jiff : Timestamps} (hjiff : jiff.Lawful) (hosted : Hosted Cid) :
    starting jiff (after hosted) = .ok ⟨hosted.createdAt.millis, hosted.did.str⟩ := by
  have hfrom := hosted.createdAt.from_
  have huntil := hosted.createdAt.until_
  have hmin : Int64.minValue.toInt = -9223372036854775808 := rfl
  have hmax : Int64.maxValue.toInt = 9223372036854775807 := rfl
  obtain ⟨m, hm⟩ : ∃ m : Int64, m.toInt = hosted.createdAt.millis :=
    ⟨Int64.ofInt hosted.createdAt.millis, Int64.toInt_ofInt_of_le (by omega) (by omega)⟩
  have hcut : Str.splitOnceAt (text "::") (after hosted) =
      some (printI64 hosted.createdAt.millis, hosted.did.str) :=
    Str.splitOnceAt_append (colon_not_mem_printI64 _) _
  have hrange : jiff.fromMillisecond m = some m.toInt :=
    hjiff.fromMillisecond_eq_some.mpr ⟨rfl, by omega, by omega⟩
  rw [starting, hcut]
  simp only [← hm, parseI64_printI64, Option.bind_some, hrange]

/-- One repository, in the shape a page carries it. -/
structure HeldRepo where
  did : Str
  head : Str
  rev : Str
  active : Bool

def shownRepo [CidText Cid] (hosted : Hosted Cid) : HeldRepo :=
  ⟨hosted.did.str, CidText.toText hosted.root.cid, hosted.root.rev.str, true⟩

/-- `com.atproto.sync.listRepos`. -/
def listRepos [CidText Cid] (jiff : Timestamps) (db : Registry Cid) (limit : Option ℕ)
    (cursor : Option Str) : Except String (Paging.Answer Str HeldRepo) := do
  let limit := clamp 500 1000 limit
  let from_ ← match cursor with
    | none => .ok none
    | some cursor => (starting jiff cursor).map some
  Paging.answer after (fun hosted => .ok (shownRepo hosted)) limit (db.hosted limit from_)

section

variable [CidText Cid] {jiff : Timestamps} {db : Registry Cid} {limit : Option ℕ}

theorem listRepos_none : listRepos jiff db limit none = Paging.answer after
    (fun hosted => .ok (shownRepo hosted)) (clamp 500 1000 limit)
      (db.hosted (clamp 500 1000 limit) none) := rfl

theorem listRepos_after (hjiff : jiff.Lawful) (hosted : Hosted Cid) :
    listRepos jiff db limit (some (after hosted)) =
      Paging.answer after (fun hosted => .ok (shownRepo hosted)) (clamp 500 1000 limit)
        (db.hosted (clamp 500 1000 limit) (some ⟨hosted.createdAt.millis, hosted.did.str⟩)) := by
  rw [listRepos, starting_after hjiff]
  rfl

/-- Past where a cursor says. -/
def pastCursor (jiff : Timestamps) (cursor : Str) (hosted : Hosted Cid) : Bool :=
  (starting jiff cursor).toOption.any fun from_ => decide (from_.place < hosted.place)

omit [CidText Cid] in
theorem pastCursor_after (hjiff : jiff.Lawful) (a b : Hosted Cid) :
    pastCursor jiff (after a) b = decide (a.place < b.place) := by
  rw [pastCursor, starting_after hjiff]
  rfl

theorem lists_repos (hjiff : jiff.Lawful) (h : db.Rooted) :
    Paging.Lists db.inOrder (clamp 500 1000 limit) after
      (fun hosted => .ok (shownRepo hosted)) (listRepos jiff db limit) := by
  have hall : db.inOrder.Pairwise fun a b => a.place < b.place := by
    have hpairwise : db.inOrder.Pairwise _ := Paging.pairwise_sorted_lt h.nodup_place
    exact hpairwise.imp fun hab => OrderDual.toDual_lt_toDual.mp hab
  have hpast : ∀ a ∈ db.inOrder, ∀ b ∈ db.inOrder,
      pastCursor jiff (after a) b = true ↔ a.place < b.place := by
    intro a _ b _
    rw [pastCursor_after hjiff, decide_eq_true_iff]
  apply Paging.lists_of_pairwise hall (fun a b => lt_asymm) hpast
  · rw [listRepos_none, h.hosted_eq]
    simp
  · intro a _
    have hfun : pastCursor jiff (after a) = fun b : Hosted Cid => decide (a.place < b.place) :=
      funext fun b => pastCursor_after hjiff a b
    rw [listRepos_after hjiff, h.hosted_eq, hfun]
    rfl

end

/-! ## Records -/

/-- `serde_ipld_dagcbor::from_slice`, at the type of a record. -/
class ValueCodec (Cid : Type) where
  fromSlice : Bytes → Except String (Ipld Cid)

/-- One record, in the shape a page carries it. -/
structure Held where
  uri : Str
  cid : Str
  value : Json

def shown [JsonCodec Cid] [ValueCodec Cid] (held : Record Cid) : Except (RepoError Cid) Held := do
  let value ← (ValueCodec.fromSlice held.value).mapError .decode
  let value ← toJson value
  return ⟨held.uri, CidText.toText held.cid, value⟩

/-- `com.atproto.repo.listRecords`. -/
def listRecords [DecidableEq Cid] [JsonCodec Cid] [ValueCodec Cid] (tables : Tables Cid)
    (did : Did) (collection : Nsid) (limit : Option ℕ) (reverse : Bool) (cursor : Option Str) :
    Except (RepoError Cid) (Paging.Answer Str Held) :=
  let limit := clamp 50 100 limit
  Paging.answer (fun held => keyOf held.uri) shown limit
    (tables.records did collection limit cursor reverse)

section

variable [DecidableEq Cid] [JsonCodec Cid] [ValueCodec Cid] {tables : Tables Cid} {did : Did}
  {collection : Nsid} {limit : Option ℕ} {reverse : Bool}

theorem Tables.Indexed.listRecords_eq (h : tables.Indexed did) (cursor : Option Str) :
    listRecords tables did collection limit reverse cursor =
      Paging.answer (fun held => keyOf held.uri) shown (clamp 50 100 limit)
        (((tables.collected collection reverse).filter fun r =>
          past cursor reverse (keyOf r.uri)).take (clamp 50 100 limit)) := by
  rw [listRecords, h.records_eq]

/-- Past a record of this key. -/
def pastKey (reverse : Bool) (key : Str) (r : Record Cid) : Bool :=
  past (some key) reverse (keyOf r.uri)

theorem Tables.Indexed.lists_records (h : tables.Indexed did) :
    Paging.Lists (tables.collected collection reverse) (clamp 50 100 limit)
      (fun held => keyOf held.uri) shown (listRecords tables did collection limit reverse) := by
  have hlists : tables.Lists did collection reverse _ := h.lists
  have hpast : ∀ a ∈ tables.collected collection reverse,
      ∀ b ∈ tables.collected collection reverse,
        pastKey reverse (keyOf a.uri) b = true ↔ a.Before reverse b :=
    fun a _ b _ => past_iff_before
  apply Paging.lists_of_pairwise hlists.ordered (fun a b hab => hab.asymm) hpast
  · rw [h.listRecords_eq]
    simp [past]
  · intro a _
    rw [h.listRecords_eq]
    rfl

end

/-- The index of an account is what its listings need. -/
theorem Tables.Carries.indexed [Codec Cid] [LawfulCodec Cid] [DecidableEq Cid]
    {tables : Tables Cid} {did : Did} {repo : Repo Cid} {ℓ : ℕ} {xs : List (Leaf Cid)}
    (h : tables.Carries did repo ℓ xs) : tables.Indexed did where
  keyed := h.mirrors.keyed
  named := h.mirrors.named
  held := by
    intro row hm
    obtain ⟨x, hx, -, hvalue⟩ := (h.exact_rows.2 row.uri row.cid).mp ⟨row, hm, rfl, rfl⟩
    rw [h.exact.mem, Shape.mem_preorder h.stands.data.fits]
    exact Or.inr (Or.inr ⟨x, hx, hvalue⟩)

/-- The keys a listing goes through are those of the leaves in its collection. -/
theorem Tables.Carries.mem_keys [Codec Cid] [LawfulCodec Cid] [DecidableEq Cid]
    {tables : Tables Cid} {did : Did} {repo : Repo Cid} {ℓ : ℕ} {xs : List (Leaf Cid)}
    (h : tables.Carries did repo ℓ xs) {collection : Nsid} {reverse : Bool} {all : List (Record Cid)}
    (hall : tables.Lists did collection reverse all) (key : Str) :
    key ∈ all.map (fun r => keyOf r.uri) ↔
      ∃ rkey : RecordKey, key = rkey.str ∧ ∃ x ∈ xs, x.key = recordPath collection rkey := by
  constructor
  · intro hm
    obtain ⟨r, hr, rfl⟩ := List.mem_map.mp hm
    obtain ⟨row, hrow, rfl, huri, -, -⟩ := (hall.mem r).mp hr
    refine ⟨row.rkey, by rw [huri, keyOf_uri], ?_⟩
    obtain ⟨x, hx, hat, -⟩ := (h.exact_rows.2 row.uri row.cid).mp ⟨row, hrow, rfl, rfl⟩
    rw [h.mirrors.named row hrow, uri_eq_uriAt, uriAt_inj] at hat
    exact ⟨x, hx, hat.symm⟩
  · rintro ⟨rkey, rfl, x, hx, hkey⟩
    obtain ⟨row, hrow, hat, -⟩ := (h.exact_rows.2 _ x.value).mpr ⟨x, hx, rfl, rfl⟩
    rw [hkey, ← uri_eq_uriAt] at hat
    have hnamed := (h.mirrors.named row hrow).symm.trans hat
    obtain ⟨r, hr, huri⟩ := hall.complete row hrow (uri_eq_iff.mp hnamed).2.1
    exact List.mem_map.mpr ⟨r, hr, by rw [huri, hat, keyOf_uri]⟩

theorem exists_shown [JsonCodec Cid] [LawfulJsonCodec Cid] [ValueCodec Cid]
    {all : List (Record Cid)} (h : ∀ r ∈ all, ∃ v : Ipld Cid, v.isRecordData = true ∧
      ValueCodec.fromSlice r.value = .ok v) : ∃ shown_, all.mapM shown = .ok shown_ := by
  induction all with
  | nil => exact ⟨[], rfl⟩
  | cons r all ih =>
    obtain ⟨v, hv, hr⟩ := h r List.mem_cons_self
    obtain ⟨rest, hrest⟩ := ih fun r hr => h r (List.mem_cons_of_mem _ hr)
    obtain ⟨J, hJ, -⟩ := exists_toJson hv
    refine ⟨⟨r.uri, CidText.toText r.cid, J⟩ :: rest, ?_⟩
    rw [List.mapM_cons, hrest, shown, hr]
    simp only [Except.mapError, bind, Except.bind, hJ, pure, Except.pure]

/-- A page of a collection is of the records there past its cursor, whatever string that is, and
following the cursors goes through the collection in order, each record once; records that were
written as JSON are all shown. Following those of the other listing goes through every account
once, by the millisecond it was made and then its DID. -/
theorem listings_exact [Codec Cid] [LawfulCodec Cid] [DecidableEq Cid] [JsonCodec Cid]
    [LawfulJsonCodec Cid] [ValueCodec Cid] (jiff : Timestamps) (hjiff : jiff.Lawful) :
    (∀ (did : Did) (w : World Cid), World.Reachable did w → ∀ (collection : Nsid) (reverse : Bool),
      ∃ all : List (Record Cid), w.actor.tables.Lists did collection reverse all ∧
        (∀ (limit : Option ℕ) (cursor : Option Str),
          listRecords w.actor.tables did collection limit reverse cursor =
            Paging.answer (fun held => keyOf held.uri) shown (clamp 50 100 limit)
              ((all.filter fun r => past cursor reverse (keyOf r.uri)).take
                (clamp 50 100 limit))) ∧
        (∀ (limit : Option ℕ) (rounds : ℕ), all.length < rounds →
          Paging.follow (listRecords w.actor.tables did collection limit reverse) rounds none =
            some (all.mapM shown)) ∧
        ((∀ r ∈ all, ∃ v : Ipld Cid, v.isRecordData = true ∧
          ValueCodec.fromSlice r.value = .ok v) → ∃ shown_, all.mapM shown = .ok shown_)) ∧
    ∀ db : Registry Cid, db.Reachable → ∃ all : List (Hosted Cid), db.Lists all ∧
      ∀ (limit : Option ℕ) (rounds : ℕ), all.length < rounds →
        Paging.follow (listRepos jiff db limit) rounds none = some (.ok (all.map shownRepo)) := by
  constructor
  · intro did w h collection reverse
    obtain ⟨⟨repo, ℓ, xs, hc, -⟩, -, -, -, -⟩ := h.sound
    have hindexed := hc.indexed
    refine ⟨w.actor.tables.collected collection reverse, hindexed.lists, ?_, ?_, exists_shown⟩
    · intro limit cursor
      exact hindexed.listRecords_eq cursor
    · intro limit rounds hr
      exact hindexed.lists_records.follow_eq one_le_clamp hr
  · intro db h
    refine ⟨db.inOrder, h.rooted.lists, fun limit rounds hr => ?_⟩
    rw [(lists_repos hjiff h.rooted).follow_eq one_le_clamp hr]
    exact congrArg some (List.mapM_pure ..)

section

open DagCbor

noncomputable instance : ValueCodec RawCid where
  fromSlice := DagCbor.decode id

theorem signedUp_inRange : (-62167219200000 : ℤ) ≤ 1700000000000 ∧
    (1700000000000 : ℤ) ≤ 253402207200999 := by decide

def signedUp : Instant := ⟨1700000000000, signedUp_inRange.1, signedUp_inRange.2⟩

theorem laterUp_inRange : (-62167219200000 : ℤ) ≤ 1700000000001 ∧
    (1700000000001 : ℤ) ≤ 253402207200999 := by decide

/-- A millisecond later. -/
def laterUp : Instant := ⟨1700000000001, laterUp_inRange.1, laterUp_inRange.2⟩

def millisTimestamps : Timestamps where
  fromMillisecond millis :=
    if -377705023201000 ≤ millis.toInt ∧ millis.toInt ≤ 253402207200999 then some millis.toInt
    else none

theorem millisTimestamps_lawful : millisTimestamps.Lawful where
  fromMillisecond_eq_some := by
    intro millis at_
    change (if _ then _ else _) = _ ↔ _
    rw [Option.ite_none_right_eq_some, Option.some_inj]
    constructor
    · rintro ⟨hrange, rfl⟩
      exact ⟨rfl, hrange⟩
    · rintro ⟨rfl, hrange⟩
      exact ⟨hrange, rfl⟩

theorem tiedDid_valid : Did.validate (text "did:web:tied.example") = .ok () := rfl

def tiedDid : Did := ⟨text "did:web:tied.example", tiedDid_valid⟩

theorem otherDid_valid : Did.validate (text "did:web:other.example") = .ok () := rfl

def otherDid : Did := ⟨text "did:web:other.example", otherDid_valid⟩

/-- Three accounts, two of one moment. -/
def hostedThree : Registry RawCid :=
  ⟨[⟨tiedDid, signedUp⟩, ⟨recordDid, laterUp⟩, ⟨otherDid, signedUp⟩],
    [⟨tiedDid, pictureRoot⟩, ⟨recordDid, pictureRoot⟩, ⟨otherDid, pictureRoot⟩]⟩

theorem hostedThree_reachable : hostedThree.Reachable := by
  have hfirst : (Registry.mk [] [] : Registry RawCid).create tiedDid pictureRoot signedUp =
    some _ := rfl
  have hsecond : Registry.create ⟨[⟨tiedDid, signedUp⟩], [⟨tiedDid, pictureRoot⟩]⟩ recordDid
    pictureRoot laterUp = some _ := rfl
  have hthird : Registry.create ⟨[⟨tiedDid, signedUp⟩, ⟨recordDid, laterUp⟩],
    [⟨tiedDid, pictureRoot⟩, ⟨recordDid, pictureRoot⟩]⟩ otherDid pictureRoot signedUp =
      some hostedThree := rfl
  exact .create (.create (.create .empty hfirst) hsecond) hthird

/-- The two of one moment come first, by their DIDs. -/
theorem hostedThree_lists {all : List (Hosted RawCid)} (h : hostedThree.Lists all) :
    all = [⟨otherDid, pictureRoot, signedUp⟩, ⟨tiedDid, pictureRoot, signedUp⟩,
      ⟨recordDid, pictureRoot, laterUp⟩] := by
  have hjoined : hostedThree.actor.filterMap hostedThree.joined =
    [⟨tiedDid, pictureRoot, signedUp⟩, ⟨recordDid, pictureRoot, laterUp⟩,
      ⟨otherDid, pictureRoot, signedUp⟩] := rfl
  have hperm : [⟨otherDid, pictureRoot, signedUp⟩, ⟨tiedDid, pictureRoot, signedUp⟩,
      ⟨recordDid, pictureRoot, laterUp⟩].Perm (hostedThree.actor.filterMap hostedThree.joined) :=
    hjoined ▸ (List.perm_append_singleton _ [_, _]).symm
  have hdids : otherDid.str < tiedDid.str := by decide
  apply h.eq
  · intro hosted
    rw [hperm.mem_iff, h.mem, ← hostedThree_reachable.rooted.lists.mem, Registry.inOrder,
      Paging.sorted_perm.mem_iff]
  · simp [Hosted.place, Prod.Lex.toLex_lt_toLex, hdids, signedUp, laterUp]

theorem keys_second {w : World RawCid} {repo : Repo RawCid} {ℓ : ℕ}
    (hc : w.actor.tables.Carries recordDid repo ℓ [firstLeaf, secondLeaf]) {reverse : Bool}
    {all : List (Record RawCid)}
    (hall : w.actor.tables.Lists recordDid recordCollection reverse all) :
    all.map (fun r => keyOf r.uri) =
      if reverse then [recordKey.str, otherKey.str] else [otherKey.str, recordKey.str] := by
  have hmem : ∀ key, key ∈ all.map (fun r => keyOf r.uri) ↔
      key = recordKey.str ∨ key = otherKey.str := by
    intro key
    rw [hc.mem_keys hall]
    constructor
    · rintro ⟨rkey, rfl, x, hx, hkey⟩
      have hinj : ∀ rkey', recordPath recordCollection rkey' = recordPath recordCollection rkey →
          rkey = rkey' := by
        intro rkey' hpath
        have huri := congrArg (uriAt recordDid) hpath
        rw [← uri_eq_uriAt, ← uri_eq_uriAt] at huri
        exact (uri_eq_iff.mp huri).2.2.symm
      rcases List.mem_pair.mp hx with rfl | rfl
      · exact Or.inl (congrArg RecordKey.str (hinj recordKey hkey))
      · exact Or.inr (congrArg RecordKey.str (hinj otherKey hkey))
    · rintro (rfl | rfl)
      · exact ⟨recordKey, rfl, firstLeaf, List.mem_cons_self, rfl⟩
      · exact ⟨otherKey, rfl, secondLeaf, List.mem_cons_of_mem _ List.mem_cons_self, rfl⟩
  cases reverse with
  | true =>
    have hordered : (all.map fun r => keyOf r.uri).Pairwise (· < ·) :=
      List.pairwise_map.mpr (hall.ordered.imp fun hab => hab)
    have hexpected : [recordKey.str, otherKey.str].SortedLT := by decide
    apply hordered.eq_of_mem_iff hexpected.pairwise
    intro key
    rw [hmem, List.mem_pair]
  | false =>
    have hordered : (all.map fun r => keyOf r.uri).Pairwise (· > ·) :=
      List.pairwise_map.mpr (hall.ordered.imp fun hab => hab)
    have hexpected : [otherKey.str, recordKey.str].SortedGT := by decide
    apply hordered.eq_of_mem_iff hexpected.pairwise
    intro key
    rw [hmem, List.mem_pair, or_comm]

/-- Two records a page each, in both directions, and three accounts, two of one moment. -/
theorem listings_exact_first :
    (∃ w : World RawCid, World.Reachable recordDid w ∧ ∀ reverse : Bool,
      ∃ all : List (Record RawCid),
        w.actor.tables.Lists recordDid recordCollection reverse all ∧
        all.map (fun r => keyOf r.uri) =
          (if reverse then [recordKey.str, otherKey.str] else [otherKey.str, recordKey.str]) ∧
        Paging.follow (listRecords w.actor.tables recordDid recordCollection (some 1) reverse) 3
          none = some (all.mapM shown)) ∧
    hostedThree.Reachable ∧
      Paging.follow (listRepos millisTimestamps hostedThree (some 1)) 4 none =
        some (.ok [shownRepo ⟨otherDid, pictureRoot, signedUp⟩,
          shownRepo ⟨tiedDid, pictureRoot, signedUp⟩,
          shownRepo ⟨recordDid, pictureRoot, laterUp⟩]) := by
  refine ⟨?_, hostedThree_reachable, ?_⟩
  · obtain ⟨w, first, second, repo, ℓ, hw, -, -, -, hc⟩ := exists_second_landed
    refine ⟨w, hw, fun reverse => ?_⟩
    obtain ⟨all, hlists, -, hfollow, -⟩ :=
      (@listings_exact RawCid _ _ _ _ _ _ millisTimestamps millisTimestamps_lawful).1 recordDid w hw
        recordCollection reverse
    have hkeys := keys_second hc hlists
    have hlength : all.length = 2 := by
      rw [← List.length_map (fun r : Record RawCid => keyOf r.uri), hkeys]
      cases reverse <;> rfl
    exact ⟨all, hlists, hkeys, hfollow (some 1) 3 (by omega)⟩
  · obtain ⟨all, hlists, hfollow⟩ :=
      (@listings_exact RawCid _ _ _ _ _ _ millisTimestamps millisTimestamps_lawful).2 hostedThree
        hostedThree_reachable
    obtain rfl := hostedThree_lists hlists
    exact hfollow (some 1) 4 (by decide)

end

end Manapds
