import Manapds.Lib.Words
import Manapds.Repo.Going
import Manapds.Store.Actor
import Manapds.Syntax.Grammar

/-!
# Where a record is found

A record is under a key in the tree and under a uri in the index, and a client names it by an
AT-URI. The validators of its parts leave the separators out of every part, so the tree takes any
key there is, the uri parses as what it was put together from, and a collection is a range of the
index with nothing of another collection in it.
-/

namespace Manapds

/-- Above every byte a key may hold. -/
def del : Byte := 0x7f

theorem lt_del_of_isIdentifierByte : ∀ b : Byte, b.isIdentifierByte = true → b < del := by
  decide +kernel

theorem RecordKey.str_lt_del (rkey : RecordKey) : rkey.str < [del] := by
  have hbytes := rkey.isIdentifierByte
  have hne := rkey.ne_nil
  generalize rkey.str = str at hbytes hne
  cases str with
  | nil => exact absurd rfl hne
  | cons b rest =>
    exact List.cons_lt_cons_iff.mpr
      (Or.inl (lt_del_of_isIdentifierByte b (hbytes b List.mem_cons_self)))

theorem Did.slash_not_mem (did : Did) : ascii '/' ∉ did.str :=
  not_mem_of_isIdentifierByte (by decide) did.isIdentifierByte

theorem Nsid.slash_not_mem (collection : Nsid) : ascii '/' ∉ collection.str :=
  not_mem_of_isIdentifierByte (by decide) fun b hb =>
    Byte.isIdentifierByte_of_domainByte (collection.isDomainByte b hb)

theorem cut_inj {a b x y : Str} {sep : Byte} (ha : sep ∉ a) (hb : sep ∉ b)
    (h : a ++ sep :: x = b ++ sep :: y) : a = b ∧ x = y := by
  have hcut := Str.splitOnce_append ha x
  rw [h, Str.splitOnce_append hb y] at hcut
  obtain ⟨hba, hyx⟩ := Prod.mk.inj (Option.some.inj hcut)
  exact ⟨hba.symm, hyx.symm⟩

variable {did did' : Did} {collection collection' : Nsid} {rkey rkey' : RecordKey}

/-- What a uri starts with names its repository and its collection. -/
theorem uriPrefix_append_inj {x y : Str}
    (h : uriPrefix did collection ++ x = uriPrefix did' collection' ++ y) :
    did = did' ∧ collection = collection' ∧ x = y := by
  simp only [uriPrefix, List.append_assoc, List.append_cancel_left_eq, List.cons_append,
    List.nil_append] at h
  obtain ⟨hdid, h⟩ := cut_inj did.slash_not_mem did'.slash_not_mem h
  obtain ⟨hcollection, h⟩ := cut_inj collection.slash_not_mem collection'.slash_not_mem h
  exact ⟨Did.ext hdid, Nsid.ext hcollection, h⟩

theorem uri_eq_iff : uri did collection rkey = uri did' collection' rkey' ↔
    did = did' ∧ collection = collection' ∧ rkey = rkey' := by
  constructor
  · intro h
    obtain ⟨hdid, hcollection, hrkey⟩ := uriPrefix_append_inj h
    exact ⟨hdid, hcollection, RecordKey.ext hrkey⟩
  · rintro ⟨rfl, rfl, rfl⟩
    rfl

theorem uri_between : uriPrefix did collection < uri did collection rkey ∧
    uri did collection rkey < uriPrefix did collection ++ [del] :=
  ⟨Words.lt_append rkey.ne_nil, (Words.append_lt_append_iff _).mpr rkey.str_lt_del⟩

/-- A uri is on one side of the range of any collection but its own. -/
theorem uri_beside (hother : ¬(did' = did ∧ collection' = collection)) :
    (∀ x, uri did collection rkey < uriPrefix did' collection' ++ x) ∨
      ∀ x, uriPrefix did' collection' ++ x < uri did collection rkey := by
  apply Words.lt_all_or_all_lt
  · rintro ⟨x, hx⟩
    obtain ⟨hdid, hcollection, -⟩ := uriPrefix_append_inj hx
    exact hother ⟨hdid, hcollection⟩
  · rintro ⟨x, hx⟩
    have hjoined : uriPrefix did collection ++ (rkey.str ++ x) =
        uriPrefix did' collection' ++ [] := by
      rw [← List.append_assoc, List.append_nil]
      exact hx
    obtain ⟨hdid, hcollection, -⟩ := uriPrefix_append_inj hjoined
    exact hother ⟨hdid.symm, hcollection.symm⟩

theorem length_uri_le : (uri did collection rkey).length ≤ AtUri.maxLen := by
  have hdid := did.length_le
  have hcollection := collection.length_le
  have hrkey := rkey.length_le
  have hstart : (text "at://").length = 5 := rfl
  simp only [uri, uriPrefix, List.length_append, List.length_cons, List.length_nil, hstart,
    AtUri.maxLen]
  omega

theorem parse_uri : AtUri.parse (uri did collection rkey) =
    .ok ⟨.did did, some collection, some rkey, none⟩ := by
  apply AtUri.parse_of_grammar length_uri_le
  have h := AtUri.Grammar.record (.did did) collection rkey .none
  simpa [uri, uriPrefix, AtIdentifier.str] using h

theorem uri_eq_append (did : Did) (collection : Nsid) (rkey : RecordKey) :
    uri did collection rkey =
      (text "at://" ++ did.str ++ [ascii '/']) ++ recordPath collection rkey := by
  simp [uri, uriPrefix, recordPath]

theorem uri_lt_uri_iff : uri did collection rkey < uri did collection' rkey' ↔
    recordPath collection rkey < recordPath collection' rkey' := by
  rw [uri_eq_append, uri_eq_append]
  exact Words.append_lt_append_iff _

/-- A record whose parts are valid has a key the tree takes and a uri that parses as those parts,
which lies in the range of its collection and in no other. Keys and uris tell records apart, and
put them in one order. -/
theorem addresses_agree (Cid : Type) (did : Did) (collection : Nsid) (rkey : RecordKey) :
    (ensureValidKey (recordPath collection rkey) : Except (RepoError Cid) Unit) = .ok () ∧
    AtUri.parse (uri did collection rkey) =
      .ok ⟨.did did, some collection, some rkey, none⟩ ∧
    (uriPrefix did collection < uri did collection rkey ∧
      uri did collection rkey < uriPrefix did collection ++ [del]) ∧
    (∀ (did' : Did) (collection' : Nsid), ¬(did' = did ∧ collection' = collection) →
      (∀ other, uriPrefix did' collection' ≤ other → other < uriPrefix did' collection' ++ [del] →
        uri did collection rkey < other) ∨
      ∀ other, uriPrefix did' collection' ≤ other → other < uriPrefix did' collection' ++ [del] →
        other < uri did collection rkey) ∧
    (∀ (collection' : Nsid) (rkey' : RecordKey),
      recordPath collection rkey = recordPath collection' rkey' →
        collection = collection' ∧ rkey = rkey') ∧
    (∀ (did' : Did) (collection' : Nsid) (rkey' : RecordKey),
      uri did collection rkey = uri did' collection' rkey' →
        did = did' ∧ collection = collection' ∧ rkey = rkey') ∧
    ∀ (collection' : Nsid) (rkey' : RecordKey),
      uri did collection rkey < uri did collection' rkey' ↔
        recordPath collection rkey < recordPath collection' rkey' := by
  refine ⟨ensureValidKey_recordPath collection rkey, parse_uri, uri_between, ?_,
    fun _ _ => recordPath_inj.mp, fun _ _ _ => uri_eq_iff.mp, fun _ _ => uri_lt_uri_iff⟩
  intro did' collection' hother
  rcases uri_beside hother with hbelow | habove
  · left
    intro other hle hlt
    obtain ⟨x, rfl, -⟩ := Words.between_append_iff.mp ⟨hle, hlt⟩
    exact hbelow x
  · right
    intro other hle hlt
    obtain ⟨x, rfl, -⟩ := Words.between_append_iff.mp ⟨hle, hlt⟩
    exact habove x

end Manapds
