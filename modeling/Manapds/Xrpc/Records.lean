import Manapds.Account.Linear
import Manapds.Xrpc.Listing

/-!
# Records over the wire

What the methods that write records make of their bodies, and what `getRecord` shows. A record that
was written is what is shown at its key, and one that was taken out is not found, until the key is
written again.
-/

namespace Manapds

variable {Cid : Type}

/-! ## Bodies -/

mutual

/-- Every object inside is in key order without repeats. -/
def Json.wf : Json → Bool
  | .array items => wfItems items
  | .object fields => decide ((fields.map Prod.fst).Pairwise (· < ·)) && wfFields fields
  | _ => true

def Json.wfItems : List Json → Bool
  | [] => true
  | J :: rest => wf J && wfItems rest

def Json.wfFields : List (Str × Json) → Bool
  | [] => true
  | (_, J) :: rest => wf J && wfFields rest

end

/-- What `serde_json` reads. -/
structure Body where
  json : Json
  wf : json.wf = true

section

variable [JsonCodec Cid]

open Json

mutual

theorem wf_fromJson : ∀ {J : Json} {v : Ipld Cid}, J.wf = true → fromJson J = .ok v → v.wf = true
  | .null, v, _, h => by
    obtain rfl := Except.ok.inj h
    rfl
  | .bool b, v, _, h => by
    obtain rfl := Except.ok.inj h
    rfl
  | .number n, v, _, h => by
    rw [fromJson] at h
    cases hn : n.asI64 with
    | none =>
      rw [hn] at h
      cases h
    | some m =>
      rw [hn] at h
      obtain rfl := Except.ok.inj h
      rfl
  | .string s, v, _, h => by
    obtain rfl := Except.ok.inj h
    rfl
  | .array items, v, hw, h => by
    rw [fromJson] at h
    obtain ⟨vs, hvs, h⟩ := bind_ok_iff.mp h
    obtain rfl := Except.ok.inj h
    rw [Ipld.wf]
    exact wfItems_fromJson hw hvs
  | .object held, v, hw, h => by
    cases hreserved : standsFor held with
    | true =>
      rw [fromJson] at h
      split at h
      · split_ifs at h
        · obtain ⟨cid, -, rfl⟩ := exists_of_elim_eq_ok h
          rfl
        · obtain ⟨b, -, rfl⟩ := exists_of_elim_eq_ok h
          rfl
      · cases h
      · next hnone =>
        rw [reserved_eq_none, hreserved] at hnone
        cases hnone
    | false =>
      rw [fromJson_object hreserved] at h
      obtain ⟨fields, hfields, h⟩ := bind_ok_iff.mp h
      obtain rfl := Except.ok.inj h
      rw [Json.wf, Bool.and_eq_true] at hw
      rw [Ipld.wf, keys_fromJsonFields hfields, hw.1, wfFields_fromJson hw.2 hfields, Bool.and_self]

theorem wfItems_fromJson : ∀ {items : List Json} {vs : List (Ipld Cid)},
    wfItems items = true → fromJsonItems items = .ok vs → Ipld.wfItems vs = true
  | [], vs, _, h => by
    rw [fromJsonItems] at h
    obtain rfl := Except.ok.inj h
    rfl
  | J :: items, vs, hw, h => by
    obtain ⟨v, vs, hv, hvs, rfl⟩ := fromJsonItems_cons h
    rw [wfItems, Bool.and_eq_true] at hw
    rw [Ipld.wfItems, wf_fromJson hw.1 hv, wfItems_fromJson hw.2 hvs, Bool.and_self]

theorem wfFields_fromJson : ∀ {object : List (Str × Json)} {fields : List (Str × Ipld Cid)},
    wfFields object = true → fromJsonFields object = .ok fields → Ipld.wfFields fields = true
  | [], fields, _, h => by
    rw [fromJsonFields] at h
    obtain rfl := Except.ok.inj h
    rfl
  | (key, J) :: held, fields, hw, h => by
    obtain ⟨v, vs, hv, hvs, rfl⟩ := fromJsonFields_cons h
    rw [wfFields, Bool.and_eq_true] at hw
    rw [Ipld.wfFields, wf_fromJson hw.1 hv, wfFields_fromJson hw.2 hvs, Bool.and_self]

end

end

theorem Json.wfFields_eq_all (fields : List (Str × Json)) :
    wfFields fields = fields.all fun f => f.2.wf := by
  induction fields with
  | nil => rfl
  | cons f rest ih => rw [wfFields, ih, List.all_cons]

/-- `fields.insert(key, value)`. -/
def Json.insert (key : Str) (value : Json) (fields : List (Str × Json)) : List (Str × Json) :=
  KeyedList.put Prod.fst (key, value) fields

theorem Json.wf_insert {key : Str} {value : Json} {fields : List (Str × Json)}
    (hf : (Json.object fields).wf = true) (hv : value.wf = true) :
    (Json.object (Json.insert key value fields)).wf = true := by
  rw [Json.wf, Bool.and_eq_true, decide_eq_true_eq, wfFields_eq_all, List.all_eq_true] at hf ⊢
  have ho : KeyedList.Ordered Prod.fst fields := List.pairwise_map.mp hf.1
  refine ⟨List.pairwise_map.mpr ho.put, ?_⟩
  intro field hm
  rcases KeyedList.mem_put.mp hm with rfl | ⟨hm, -⟩
  · exact hv
  · exact hf.2 field hm

/-! ## What a caller is held to -/

namespace Records

/-- What a caller is refused with. -/
inductive Refusal (Cid : Type) where
  | invalidRequest (message : Str) (name : Option String)
  | invalidRecord (error : RepoError Cid)
  | internalServerError
  | repo (error : RepoError Cid)

open Refusal

def parseCollection (collection : Str) : Except (Refusal Cid) Nsid :=
  (Nsid.parse collection).mapError fun _ => invalidRequest (text "Invalid collection") none

def parseRecordKey (rkey : Str) : Except (Refusal Cid) RecordKey :=
  (RecordKey.parse rkey).mapError fun _ => invalidRequest (text "Invalid record key") none

/-- `value.get("$type").and_then(Value::as_str)`. -/
def typeOf : Json → Option Str
  | .object fields => match Json.get fields (text "$type") with
    | some (.string named) => some named
    | _ => none
  | _ => none

section

variable [JsonCodec Cid]

/-- A record as it was sent, in the shape it is stored in. -/
def record (collection : Nsid) (value : Json) : Except (Refusal Cid) (Ipld Cid) :=
  match typeOf value with
  | some named =>
    if named = collection.str then (fromJson value).mapError .invalidRecord
    else .error (invalidRequest (text "Invalid $type: expected " ++ collection.str ++
      text ", got " ++ named) none)
  | none => match value with
    | .object fields =>
      (fromJson (.object (Json.insert (text "$type") (.string collection.str) fields))).mapError
        .invalidRecord
    | _ => .error (invalidRequest (text "Invalid record: not an object") none)

/-- A record is of JSON of its own. -/
theorem record_eq_ok {collection : Nsid} {body : Body} {v : Ipld Cid}
    (h : record collection body.json = .ok v) : ∃ sent : Body, fromJson sent.json = .ok v := by
  obtain ⟨J, hw⟩ := body
  unfold record at h
  split at h
  · split_ifs at h
    exact ⟨⟨J, hw⟩, mapError_ok_iff.mp h⟩
  · cases J with
    | object fields => exact ⟨⟨_, Json.wf_insert hw rfl⟩, mapError_ok_iff.mp h⟩
    | null | bool b | number n | string s | array items => cases h

theorem record_wf {collection : Nsid} {body : Body} {v : Ipld Cid}
    (h : record collection body.json = .ok v) : v.wf = true := by
  obtain ⟨sent, hsent⟩ := record_eq_ok h
  exact wf_fromJson sent.wf hsent

theorem record_isRecordData {collection : Nsid} {body : Body} {v : Ipld Cid}
    (h : record collection body.json = .ok v) : v.isRecordData = true := by
  obtain ⟨sent, hsent⟩ := record_eq_ok h
  exact isRecordData_fromJson hsent

/-- The same, as the value it is. -/
def recordValue (collection : Nsid) (body : Body) : Except (Refusal Cid) (Value Cid) :=
  match h : record collection body.json with
  | .error e => .error e
  | .ok v => .ok ⟨v, record_wf h⟩

theorem recordValue_eq_ok {collection : Nsid} {body : Body} {value : Value Cid} :
    recordValue collection body = .ok value ↔ record collection body.json = .ok value.ipld := by
  obtain ⟨v, hv⟩ := value
  unfold recordValue
  split
  · next e h => simp [h]
  · next w h => simp [h]

/-- The commit a caller believes the repository is on. -/
def swap : Option Str → Except (Refusal Cid) (Option Cid)
  | none => .ok none
  | some cid => match JsonCodec.parse cid with
    | some cid => .ok (some cid)
    | none => .error (invalidRequest (text "Invalid swapCommit") (some "InvalidSwap"))

/-- What a caller believes is at a key. -/
inductive Swap where
  | block (cid : Str)
  | nothing
  | unasked

def expected : Swap → Except (Refusal Cid) (Expect Cid)
  | .unasked => .ok .anything
  | .nothing => .ok .nothing
  | .block cid => match JsonCodec.parse cid with
    | some cid => .ok (.block cid)
    | none => .error (invalidRequest (text "Invalid swapRecord") (some "InvalidSwap"))

/-- A record to write to a key nothing holds. -/
structure Creating where
  collection : Str
  rkey : Option Str
  record : Body
  swapCommit : Option Str
  validate : Option Bool

/-- A record to write whether or not the key holds one. -/
structure Putting where
  collection : Str
  rkey : Str
  record : Body
  swapRecord : Swap
  swapCommit : Option Str

/-- A record to take out. -/
structure Deleting where
  collection : Str
  rkey : Str
  swapRecord : Swap
  swapCommit : Option Str

/-- One write in a set, named by the lexicon it belongs to. -/
inductive Asked where
  | create (collection : Str) (rkey : Option Str) (value : Body)
  | update (collection rkey : Str) (value : Body)
  | delete (collection rkey : Str)

/-- A set of writes to apply under one commit. -/
structure Applying where
  writes : List Asked
  swapCommit : Option Str

/-- The most writes one call applies. -/
def WRITES : ℕ := 200

/-- A write that asks nothing of what it lands on. -/
def requestedFrom (write : Write Cid) : Requested Cid := ⟨write, .anything, .refuse, .ignore⟩

/-- The key of a record to create, a fresh one where none is named. -/
def keyOr (fresh : RecordKey) : Option Str → Except (Refusal Cid) RecordKey
  | some rkey => parseRecordKey rkey
  | none => .ok fresh

/-- What a call asks to have written, and the commit it has to follow. -/
abbrev Asking (Cid : Type) := List (Requested Cid) × Option Cid

/-- `com.atproto.repo.createRecord`. -/
def Creating.requests (input : Creating) (fresh : RecordKey) :
    Except (Refusal Cid) (Asking Cid) := do
  let named ← parseCollection input.collection
  let rkey ← keyOr fresh input.rkey
  let record ← recordValue named input.record
  let asked := { requestedFrom (.create named rkey record) with
    conflicts := if input.validate = some false then .ignore else .supersede }
  return ([asked], ← swap input.swapCommit)

/-- `com.atproto.repo.putRecord`. -/
def Putting.requests (input : Putting) : Except (Refusal Cid) (Asking Cid) := do
  let named ← parseCollection input.collection
  let rkey ← parseRecordKey input.rkey
  let record ← recordValue named input.record
  let expect ← expected input.swapRecord
  return ([⟨.put named rkey record, expect, .refuse, .ignore⟩], ← swap input.swapCommit)

/-- An explicit null is no check here rather than a demand for an empty key. -/
def Deleting.expect (input : Deleting) : Except (Refusal Cid) (Expect Cid) :=
  match input.swapRecord with
  | .nothing => .ok .anything
  | asked => expected asked

/-- `com.atproto.repo.deleteRecord`. -/
def Deleting.requests (input : Deleting) : Except (Refusal Cid) (Asking Cid) := do
  let collection ← parseCollection input.collection
  let rkey ← parseRecordKey input.rkey
  let expect ← input.expect
  return ([⟨.delete collection rkey, expect, .skip, .ignore⟩], ← swap input.swapCommit)

def Asked.requested (fresh : RecordKey) : Asked → Except (Refusal Cid) (Requested Cid)
  | .create collection rkey value => do
    let named ← parseCollection collection
    let rkey ← keyOr fresh rkey
    let record ← recordValue named value
    return requestedFrom (.create named rkey record)
  | .update collection rkey value => do
    let named ← parseCollection collection
    let rkey ← parseRecordKey rkey
    let record ← recordValue named value
    return requestedFrom (.update named rkey record)
  | .delete collection rkey => do
    let collection ← parseCollection collection
    let rkey ← parseRecordKey rkey
    return requestedFrom (.delete collection rkey)

/-- `com.atproto.repo.applyWrites`, where `fresh` are the keys it mints on the way. -/
def Applying.requests (input : Applying) (fresh : ℕ → RecordKey) :
    Except (Refusal Cid) (Asking Cid) :=
  if WRITES < input.writes.length then
    .error (invalidRequest (text "Too many writes. Max: 200") none)
  else do
    let requested ← input.writes.zipIdx.mapM fun (asked, i) => asked.requested (fresh i)
    return (requested, ← swap input.swapCommit)

/-- A call that writes. -/
inductive Call where
  | create (input : Creating)
  | put (input : Putting)
  | delete (input : Deleting)
  | apply (input : Applying)

def Call.requests (fresh : ℕ → RecordKey) : Call → Except (Refusal Cid) (Asking Cid)
  | .create input => input.requests (fresh 0)
  | .put input => input.requests
  | .delete input => input.requests
  | .apply input => input.requests fresh

def Asked.body : Asked → Option Body
  | .create _ _ value => some value
  | .update _ _ value => some value
  | .delete _ _ => none

/-- The record each write of a call was sent with. -/
def Call.bodies : Call → List (Option Body)
  | .create input => [some input.record]
  | .put input => [some input.record]
  | .delete _ => [none]
  | .apply input => input.writes.map Asked.body

/-- A request carries what is made of the record it was sent with. -/
def Carried (asked : Requested Cid) (body : Option Body) : Prop :=
  ∀ value, asked.write.record = some value →
    ∃ sent, body = some sent ∧ record asked.write.collection sent.json = .ok value.ipld

theorem forall₂_of_mapM {α β ε : Type} {f : α → Except ε β} {l : List α} {r : List β}
    (h : l.mapM f = .ok r) : List.Forall₂ (fun b a => f a = .ok b) r l := by
  induction l generalizing r with
  | nil =>
    cases h
    exact .nil
  | cons a l ih =>
    rw [List.mapM_cons] at h
    obtain ⟨b, hb, h⟩ := bind_ok_iff.mp h
    obtain ⟨rest, hrest, h⟩ := bind_ok_iff.mp h
    cases h
    exact .cons hb (ih hrest)

theorem Asked.requested_eq_ok {fresh : RecordKey} {asked : Asked} {requested : Requested Cid}
    (h : asked.requested fresh = .ok requested) :
    (requested.missing = .refuse ∧ requested.conflicts = .ignore) ∧
      Carried requested asked.body := by
  cases asked with
  | create collection rkey value =>
    obtain ⟨named, -, h⟩ := bind_ok_iff.mp h
    obtain ⟨key, -, h⟩ := bind_ok_iff.mp h
    obtain ⟨held, hheld, h⟩ := bind_ok_iff.mp h
    cases h
    refine ⟨⟨rfl, rfl⟩, ?_⟩
    rintro _ ⟨⟩
    exact ⟨value, rfl, recordValue_eq_ok.mp hheld⟩
  | update collection rkey value =>
    obtain ⟨named, -, h⟩ := bind_ok_iff.mp h
    obtain ⟨key, -, h⟩ := bind_ok_iff.mp h
    obtain ⟨held, hheld, h⟩ := bind_ok_iff.mp h
    cases h
    refine ⟨⟨rfl, rfl⟩, ?_⟩
    rintro _ ⟨⟩
    exact ⟨value, rfl, recordValue_eq_ok.mp hheld⟩
  | delete collection rkey =>
    obtain ⟨named, -, h⟩ := bind_ok_iff.mp h
    obtain ⟨key, -, h⟩ := bind_ok_iff.mp h
    cases h
    refine ⟨⟨rfl, rfl⟩, ?_⟩
    rintro _ ⟨⟩

/-- Each request of a call carries the record it was sent with, and the ones that do more than write
where they say come alone. -/
theorem Call.requests_eq_ok {fresh : ℕ → RecordKey} {call : Call} {requested : List (Requested Cid)}
    {follows : Option Cid} (h : call.requests fresh = .ok (requested, follows)) :
    List.Forall₂ Carried requested call.bodies ∧
    (requested.length = 1 ∨
      ∀ asked ∈ requested, asked.missing = .refuse ∧ asked.conflicts = .ignore) := by
  cases call with
  | create input =>
    obtain ⟨named, -, h⟩ := bind_ok_iff.mp h
    obtain ⟨key, -, h⟩ := bind_ok_iff.mp h
    obtain ⟨held, hheld, h⟩ := bind_ok_iff.mp h
    obtain ⟨follows', -, h⟩ := bind_ok_iff.mp h
    cases h
    refine ⟨.cons ?_ .nil, Or.inl rfl⟩
    rintro _ ⟨⟩
    exact ⟨input.record, rfl, recordValue_eq_ok.mp hheld⟩
  | put input =>
    obtain ⟨named, -, h⟩ := bind_ok_iff.mp h
    obtain ⟨key, -, h⟩ := bind_ok_iff.mp h
    obtain ⟨held, hheld, h⟩ := bind_ok_iff.mp h
    obtain ⟨expect, -, h⟩ := bind_ok_iff.mp h
    obtain ⟨follows', -, h⟩ := bind_ok_iff.mp h
    cases h
    refine ⟨.cons ?_ .nil, Or.inl rfl⟩
    rintro _ ⟨⟩
    exact ⟨input.record, rfl, recordValue_eq_ok.mp hheld⟩
  | delete input =>
    obtain ⟨named, -, h⟩ := bind_ok_iff.mp h
    obtain ⟨key, -, h⟩ := bind_ok_iff.mp h
    obtain ⟨expect, -, h⟩ := bind_ok_iff.mp h
    obtain ⟨follows', -, h⟩ := bind_ok_iff.mp h
    cases h
    refine ⟨.cons ?_ .nil, Or.inl rfl⟩
    rintro _ ⟨⟩
  | apply input =>
    change input.requests fresh = _ at h
    unfold Applying.requests at h
    split_ifs at h
    obtain ⟨all, hall, h⟩ := bind_ok_iff.mp h
    obtain ⟨follows', -, h⟩ := bind_ok_iff.mp h
    cases h
    -- The numbers the writes are given for their fresh keys fall away.
    have hbodies : (Call.apply input).bodies = input.writes.zipIdx.map (·.1.body) := by
      calc input.writes.map Asked.body
          = (input.writes.zipIdx.map Prod.fst).map Asked.body := by rw [List.zipIdx_map_fst]
        _ = _ := List.map_map
    have hmade := (forall₂_of_mapM hall).imp fun _ _ hok => Asked.requested_eq_ok hok
    obtain ⟨halone, hcarried⟩ := (List.forall₂_and_left _ _).mp hmade
    refine ⟨?_, Or.inr halone⟩
    rw [hbodies]
    exact List.forall₂_map_right_iff.mpr hcarried

theorem Carried.exists_body {requested pre post : List (Requested Cid)} {asked : Requested Cid}
    {bodies : List (Option Body)} (h : List.Forall₂ Carried requested bodies)
    (he : requested = pre ++ asked :: post) :
    ∃ body, bodies[pre.length]? = some body ∧ Carried asked body := by
  subst he
  have hlength := h.length_eq
  rw [List.length_append, List.length_cons] at hlength
  have hi : pre.length < bodies.length := by omega
  have hcarried := h.get (by simp) hi
  rw [List.get_eq_getElem, List.getElem_append_right (Nat.le_refl _)] at hcarried
  simp only [Nat.sub_self, List.getElem_cons_zero] at hcarried
  exact ⟨_, List.getElem?_eq_getElem hi, hcarried⟩

/-- The records of a call are data as records may be. -/
theorem Call.requests_isRecordData {fresh : ℕ → RecordKey} {call : Call}
    {requested : List (Requested Cid)} {follows : Option Cid}
    (h : call.requests fresh = .ok (requested, follows)) : ∀ asked ∈ requested, ∀ value,
      asked.write.record = some value → value.ipld.isRecordData = true := by
  intro asked hm value hvalue
  obtain ⟨pre, post, he⟩ := List.append_of_mem hm
  obtain ⟨body, -, hcarried⟩ := Carried.exists_body (Call.requests_eq_ok h).1 he
  obtain ⟨sent, -, hrecord⟩ := hcarried value hvalue
  exact record_isRecordData hrecord

end

end Records

/-! ## What a batch leaves at a key -/

section

variable [Codec Cid] [DecidableEq Cid] [CidText Cid] {did : Did} {tables : Tables Cid}
  {xs : List (Leaf Cid)} {plan : Plan Cid} {asked : Requested Cid}
  {pre post requested : List (Requested Cid)}

omit [Codec Cid] [DecidableEq Cid] [CidText Cid] in
theorem uri_indexed (write : Write Cid) (cid : Option Cid) (blobs : List (Blob Cid)) :
    (write.indexed cid blobs).uri did = uri did write.collection write.rkey := by
  cases cid <;> rfl

/-- Requests that take nothing out besides plan the writes they ask for and no others. -/
theorem planOn_of_ignore (hi : ∀ other ∈ requested, other.conflicts = .ignore)
    (h : tables.planOn did xs requested = .ok plan) : ∀ p ∈ plan.planned, ∃ other ∈ requested,
      p.index.uri did = uri did other.write.collection other.write.rkey := by
  induction requested generalizing plan with
  | nil =>
    cases h
    simp
  | cons first rest ih =>
    have hrest := fun other hm => hi other (List.mem_cons_of_mem first hm)
    rcases Tables.planOn_cons h with ⟨-, -, h⟩ | ⟨blobs, cid, others, -, -, -, hothers, rfl⟩
    · intro p hp
      obtain ⟨other, hm, hu⟩ := ih hrest h p hp
      exact ⟨other, List.mem_cons_of_mem first hm, hu⟩
    · have hnone : tables.supersededOn xs first = [] := by
        rw [Tables.supersededOn, if_neg]
        rintro ⟨hs, -⟩
        rw [hi first List.mem_cons_self] at hs
        cases hs
      intro p hp
      rw [hnone, List.nil_append] at hp
      rcases List.mem_cons.mp hp with rfl | hp
      · exact ⟨first, List.mem_cons_self, uri_indexed ..⟩
      · obtain ⟨other, hm, hu⟩ := ih hrest hothers p hp
        exact ⟨other, List.mem_cons_of_mem first hm, hu⟩

/-- One request among others: it is skipped, or its write is planned ahead of those of the requests
after it. -/
theorem planOn_append (h : tables.planOn did xs (pre ++ asked :: post) = .ok plan) :
    (heldAt xs asked.write.collection asked.write.rkey = none ∧ asked.missing = .skip) ∨
    ∃ before planned others blobs cid, asked.write.encoded = .ok cid ∧
      planned.index = asked.write.indexed cid blobs ∧ tables.planOn did xs post = .ok others ∧
      plan.planned = before ++ planned :: others.planned ∧
      ⟨text "at://" ++ did.str ++ ascii '/' :: asked.write.key, cid⟩ ∈ plan.results := by
  induction pre generalizing plan with
  | nil =>
    rcases Tables.planOn_cons h with ⟨hnone, hskip, -⟩ |
      ⟨blobs, cid, others, -, -, hc, hothers, rfl⟩
    · exact Or.inl ⟨hnone, hskip⟩
    · exact Or.inr ⟨_, _, others, blobs, cid, hc, rfl, hothers, rfl, List.mem_cons_self⟩
  | cons first rest ih =>
    rcases Tables.planOn_cons h with ⟨-, -, h⟩ | ⟨blobs', cid', others', -, -, -, hrest, rfl⟩
    · exact ih h
    · rcases ih hrest with hskip |
        ⟨before, planned, others, blobs, cid, hc, hindex, hothers, hp, hr⟩
      · exact Or.inl hskip
      · obtain ⟨mine, hmine⟩ : ∃ mine : Planned Cid, mine = ⟨first.write,
          first.write.indexed cid' blobs', ⟨first.write.action (heldAt xs first.write.collection
            first.write.rkey), first.write.key, cid',
              heldAt xs first.write.collection first.write.rkey⟩⟩ := ⟨_, rfl⟩
        refine Or.inr ⟨tables.supersededOn xs first ++ mine :: before, planned, others, blobs, cid,
          hc, hindex, hothers, ?_, List.mem_cons_of_mem _ hr⟩
        dsimp only
        rw [hp, hmine, List.append_assoc (tables.supersededOn xs first)]
        rfl

omit [Codec Cid] [DecidableEq Cid] [CidText Cid] in
theorem find_foldl_other {rev : Tid} {records : List (Indexed Cid)} {rows : List (RecordRow Cid)}
    {at_ : Str} (h : ∀ record ∈ records, record.uri did ≠ at_) :
    Table.find RecordRow.uri at_ (records.foldl (Indexed.indexRow did rev) rows) =
      Table.find RecordRow.uri at_ rows := by
  induction records generalizing rows with
  | nil => rfl
  | cons record records ih =>
    rw [List.foldl_cons, ih fun r hr => h r (List.mem_cons_of_mem record hr)]
    exact Indexed.find_indexRow_ne (h record List.mem_cons_self).symm

omit [Codec Cid] [DecidableEq Cid] [CidText Cid] in
/-- The row at a uri is the one its last write left. -/
theorem find_foldl_last {rev : Tid} {before after : List (Indexed Cid)} {record : Indexed Cid}
    {rows : List (RecordRow Cid)} (h : ∀ other ∈ after, other.uri did ≠ record.uri did) :
    Table.find RecordRow.uri (record.uri did)
        ((before ++ record :: after).foldl (Indexed.indexRow did rev) rows) =
      Table.find RecordRow.uri (record.uri did)
        (record.indexRow did rev (before.foldl (Indexed.indexRow did rev) rows)) := by
  rw [List.foldl_append, List.foldl_cons, find_foldl_other h]

theorem planOn_skipped (hn : heldAt xs asked.write.collection asked.write.rkey = none)
    (hs : asked.missing = .skip) : tables.planOn did xs [asked] = .ok ⟨[], []⟩ := by
  unfold Tables.planOn
  dsimp only
  rw [if_pos ⟨Option.isNone_iff_eq_none.mpr hn, hs⟩]
  rfl

variable {m : Moved Cid} {repo next : Repo Cid} {ℓ ℓ' : ℕ} {xs' : List (Leaf Cid)}
  {worked : Worked Cid}

/-- What has landed for a request, where no later one of its batch is for the same key. -/
theorem Moved.Lands.find_asked (h : m.Lands did repo ℓ xs worked next ℓ' xs') (hd : m.job.did = did)
    (hasked : m.job.requested = pre ++ asked :: post)
    (hpost : ∀ other ∈ post, other.conflicts = .ignore ∧ other.write.key ≠ asked.write.key)
    (hskip : asked.missing = .refuse ∨ pre = [] ∧ post = []) :
    (∀ value, asked.write.record = some value → ∃ bytes row committed,
      encode value.ipld = .ok bytes ∧
      Table.find RecordRow.uri (uri did asked.write.collection asked.write.rkey) m.after.record =
        some row ∧ row.cid = cidFor bytes ∧
      m.outcome = .done (.ok (some (worked.landed committed))) ∧
      ⟨uri did asked.write.collection asked.write.rkey, some (cidFor bytes)⟩ ∈
        (worked.landed committed).results) ∧
    (asked.write.record = none →
      Table.find RecordRow.uri (uri did asked.write.collection asked.write.rkey) m.after.record =
        none) := by
  obtain ⟨start, -, -, hworks⟩ := h.alone
  obtain ⟨-, -, -, -, -, -, -, hplan, hne, -⟩ := hworks.exists_apply
  rw [hd, hasked] at hplan
  rcases planOn_append hplan with ⟨hnone, hsk⟩ |
    ⟨before, planned, others, blobs, cid, hcid, hindex, hothers, hall, hresult⟩
  · exfalso
    rcases hskip with hrefuse | ⟨rfl, rfl⟩
    · rw [hrefuse] at hsk
      cases hsk
    · rw [List.nil_append, planOn_skipped hnone hsk] at hplan
      apply hne
      rw [← Except.ok.inj hplan]
      rfl
  · have hrecords : m.after.record = (before.map Planned.index ++ planned.index ::
        others.planned.map Planned.index).foldl (Indexed.indexRow did next.rev)
          m.before.record := by
      rw [h.record, Plan.index, hall, List.map_append, List.map_cons]
    have hat : planned.index.uri did = uri did asked.write.collection asked.write.rkey := by
      rw [hindex]
      exact uri_indexed ..
    have hlater : ∀ other ∈ others.planned.map Planned.index,
        other.uri did ≠ planned.index.uri did := by
      intro other hm
      obtain ⟨p, hp, rfl⟩ := List.mem_map.mp hm
      obtain ⟨r, hr, hu⟩ := planOn_of_ignore (fun other ho => (hpost other ho).1) hothers p hp
      rw [hu, hat, uri_eq_uriAt, uri_eq_uriAt, Ne, uriAt_inj]
      exact (hpost r hr).2
    have hfind := @find_foldl_last _ did next.rev (before.map Planned.index) _ _ m.before.record
      hlater
    rw [← hrecords, hat, hindex] at hfind
    rw [hfind]
    constructor
    · intro value hvalue
      unfold Write.encoded at hcid
      rw [hvalue] at hcid
      obtain ⟨bytes, hbytes, hcid⟩ := bind_ok_iff.mp hcid
      cases hcid
      obtain ⟨row, hrow, hc⟩ := Indexed.exists_find_put did next.rev asked.write.collection
        asked.write.rkey (cidFor bytes) asked.write.links blobs
        ((before.map Planned.index).foldl (Indexed.indexRow did next.rev) m.before.record)
      obtain ⟨committed, houtcome⟩ := h.outcome
      refine ⟨bytes, row, committed, hbytes, hrow, hc, houtcome, ?_⟩
      rw [uri_eq_uriAt]
      exact hresult
    · intro hvalue
      unfold Write.encoded at hcid
      rw [hvalue] at hcid
      cases hcid
      exact (Indexed.find_delete ..).trans (if_pos rfl)

/-- Later revisions that do not write at a uri leave the row there. -/
theorem find_kept {later : List (Moved Cid)} {end_ : Tables Cid}
    (hlands : ∀ m ∈ later, ∃ repo ℓ xs worked next ℓ' xs', m.Lands did repo ℓ xs worked next ℓ' xs')
    (hchain : (later ++ [m]).IsChain fun later earlier => earlier.after.Same later.before)
    (hcurrent : ∀ m' ∈ (later ++ [m]).head?, m'.after.Same end_) {at_ : Str}
    (hw : ∀ m' ∈ later, ∀ record ∈ m'.revision.records, record.uri did ≠ at_) :
    Table.find RecordRow.uri at_ end_.record = Table.find RecordRow.uri at_ m.after.record := by
  induction later generalizing end_ with
  | nil => rw [(hcurrent m rfl).record]
  | cons last later ih =>
    obtain ⟨repo, ℓ, xs, worked, next, ℓ', xs', hl⟩ := hlands last List.mem_cons_self
    obtain ⟨hbefore, hrest⟩ := List.isChain_cons.mp hchain
    have hbehind := ih (fun m' hm => hlands m' (List.mem_cons_of_mem last hm)) hrest
      (fun m' hm => hbefore m' hm) fun m' hm => hw m' (List.mem_cons_of_mem last hm)
    rw [(hcurrent last rfl).record, hl.record, find_foldl_other, hbehind]
    obtain ⟨start, -, -, hworks⟩ := hl.alone
    obtain ⟨_, _, _, _, _, _, _, -, -, -, -, -, hrevision, -⟩ := hworks.exists_apply
    intro record hm
    apply hw last List.mem_cons_self
    rw [hl.revision, hrevision]
    exact hm

variable {w : World Cid}

/-- A row is as the last revision to write at its uri left it. -/
theorem World.Reachable.find_since [LawfulCodec Cid] (h : World.Reachable did w)
    {later earlier : List (Moved Cid)} (hm : w.moved = later ++ m :: earlier) {at_ : Str}
    (hw : ∀ m' ∈ later, ∀ record ∈ m'.revision.records, record.uri did ≠ at_) :
    Table.find RecordRow.uri at_ w.actor.tables.record =
      Table.find RecordRow.uri at_ m.after.record := by
  have hsound := h.sound
  refine find_kept (fun m' hm' => hsound.lands m' ?_) ?_ ?_ hw
  · rw [hm]
    exact List.mem_append_left _ hm'
  · have hchain := hsound.chain
    rw [hm, ← List.singleton_append, ← List.append_assoc] at hchain
    exact hchain.left_of_append
  · intro m' hm'
    apply hsound.current m'
    rw [hm]
    cases later with
    | nil => exact hm'
    | cons last later => exact hm'

/-- Every write is one of the account's. -/
theorem World.Reachable.job_did (h : World.Reachable did w) :
    (∀ i writer, w.writers i = some writer → writer.job.did = did) ∧
      ∀ m ∈ w.moved, m.job.did = did := by
  induction h with
  | founded _ => exact ⟨by simp, by simp⟩
  | @step who w w' _ hs ih =>
    obtain ⟨hwriters, hmoved⟩ := ih
    have hresume : ∀ {i : ℕ} {job : Job Cid} {rest : Writes Cid (Outcome Cid)}, job.did = did →
        ∀ j writer, Function.update w.writers i (some ⟨job, rest⟩) j = some writer →
          writer.job.did = did := by
      intro i job rest hjob j writer hj
      by_cases hji : j = i
      · rw [hji, Function.update_self] at hj
        cases hj
        exact hjob
      · rw [Function.update_of_ne hji] at hj
        exact hwriters j writer hj
    cases hs with
    | start _ hjob => exact ⟨hresume hjob, hmoved⟩
    | root hi => exact ⟨hresume (hwriters _ _ hi), hmoved⟩
    | read x hi _ => exact ⟨hresume (hwriters _ _ hi), hmoved⟩
    | landed hi _ =>
      refine ⟨hresume (hwriters _ _ hi), ?_⟩
      intro m hm
      rcases List.mem_cons.mp hm with rfl | hm
      · exact hwriters _ _ hi
      · exact hmoved m hm
    | lost hi _ _ => exact ⟨hresume (hwriters _ _ hi), hmoved⟩
    | fault e hi => exact ⟨hresume (hwriters _ _ hi), hmoved⟩
    | @leave _ i =>
      refine ⟨?_, hmoved⟩
      intro j writer hj
      by_cases hji : j = i
      · rw [hji] at hj
        simp at hj
      · dsimp only at hj
        rw [Function.update_of_ne hji] at hj
        exact hwriters j writer hj
    | addBlob | takeStale | disk => exact ⟨hwriters, hmoved⟩

end

/-! ## What is shown -/

/-- The record at a key, if there is one there. -/
def Tables.recordAt [DecidableEq Cid] (tables : Tables Cid) (did : Did) (collection : Nsid)
    (rkey : RecordKey) : Option (Record Cid) :=
  (Table.find RecordRow.uri (uri did collection rkey) tables.record).bind tables.joined

/-- What was encoded is decoded to. -/
class LawfulValueCodec (Cid : Type) [Codec Cid] [ValueCodec Cid] : Prop where
  fromSlice_toVec {value : Value Cid} {b : Bytes} :
    Codec.toVec value.ipld = .ok b → ValueCodec.fromSlice b = .ok value.ipld

namespace Records

open Refusal

section

variable [DecidableEq Cid] [JsonCodec Cid] [ValueCodec Cid]

def notFound : Refusal Cid :=
  invalidRequest (text "Could not locate record") (some "RecordNotFound")

/-- `com.atproto.repo.getRecord`. -/
def getRecord (tables : Tables Cid) (did : Did) (collection rkey : Str) (cid : Option Str) :
    Except (Refusal Cid) Held := do
  let collection ← parseCollection collection
  let rkey ← parseRecordKey rkey
  match (tables.recordAt did collection rkey).filter
      fun held => cid.all fun cid => cid = CidText.toText held.cid with
  | none => .error notFound
  | some held => (shown held).mapError .repo

theorem getRecord_eq (tables : Tables Cid) (did : Did) (collection : Nsid) (rkey : RecordKey)
    (cid : Option Str) : getRecord tables did collection.str rkey.str cid =
      match (tables.recordAt did collection rkey).filter
        fun held => cid.all fun cid => cid = CidText.toText held.cid with
      | none => .error notFound
      | some held => (shown held).mapError .repo := by
  have hc : (parseCollection collection.str : Except (Refusal Cid) Nsid) = .ok collection := by
    rw [parseCollection, Nsid.parse_eq_ok.mpr rfl]
    rfl
  have hr : (parseRecordKey rkey.str : Except (Refusal Cid) RecordKey) = .ok rkey := by
    rw [parseRecordKey, RecordKey.parse_eq_ok.mpr rfl]
    rfl
  rw [getRecord, hc, hr]
  rfl

end

section

variable [Codec Cid] [LawfulCodec Cid] [DecidableEq Cid] [JsonCodec Cid] [LawfulJsonCodec Cid]
  [ValueCodec Cid] [LawfulValueCodec Cid] {did : Did} {w : World Cid}

/-- A record in the index is shown as the data it is. -/
theorem getRecord_eq_ok {tables : Tables Cid} {repo : Repo Cid} {ℓ : ℕ} {xs : List (Leaf Cid)}
    (hc : tables.Carries did repo ℓ xs) {collection : Nsid} {rkey : RecordKey} {row : RecordRow Cid}
    (hrow : Table.find RecordRow.uri (uri did collection rkey) tables.record = some row)
    {value : Value Cid} {bytes : Bytes} (he : encode value.ipld = .ok bytes)
    (hcid : row.cid = cidFor bytes) (hdata : value.ipld.isRecordData = true) :
    ∃ J, fromJson J = .ok value.ipld ∧ ∀ cid : Option Str,
      getRecord tables did collection.str rkey.str cid =
        if cid.all (· = CidText.toText (cidFor bytes : Cid)) then
          .ok ⟨uri did collection rkey, CidText.toText (cidFor bytes : Cid), J⟩
        else .error notFound := by
  obtain ⟨held, hheld⟩ := Option.isSome_iff_exists.mp (hc.indexed.held row (Table.mem_of_find hrow))
  have hbytes : held = bytes := by
    have hcids : cidFor held = (cidFor bytes : Cid) := by
      rw [← hc.exact.sound _ _ hheld, hcid]
    exact LawfulCodec.cidFor_injective hcids
  have hat : tables.recordAt did collection rkey =
      some ⟨uri did collection rkey, cidFor bytes, bytes⟩ := by
    rw [Tables.recordAt, hrow, Option.bind_some, Tables.joined, hheld, Option.map_some, hbytes,
      Table.key_of_find hrow, hcid]
  obtain ⟨J, hJ, hback⟩ := exists_toJson hdata
  have hshown : shown (⟨uri did collection rkey, cidFor bytes, bytes⟩ : Record Cid) =
      .ok ⟨uri did collection rkey, CidText.toText (cidFor bytes : Cid), J⟩ := by
    rw [shown, LawfulValueCodec.fromSlice_toVec (encode_eq_ok.mp he)]
    simp only [Except.mapError, bind, Except.bind, hJ, pure, Except.pure]
  refine ⟨J, hback, fun cid => ?_⟩
  rw [getRecord_eq, hat]
  by_cases hcids : cid.all (· = CidText.toText (cidFor bytes : Cid)) = true
  · rw [Option.filter_some, if_pos hcids, if_pos hcids]
    dsimp only
    rw [hshown]
    rfl
  · rw [Option.filter_some, if_neg hcids, if_neg hcids]

/-- A record that a call has written is what is shown at its key, as the data it was sent as there
and under the uri and the CID the call is answered with, and one it has taken out is not found, until
something else is written there. -/
theorem written_read_back (h : World.Reachable did w) {later earlier : List (Moved Cid)}
    {m : Moved Cid} (hm : w.moved = later ++ m :: earlier) {call : Call} {fresh : ℕ → RecordKey}
    (hcall : call.requests fresh = .ok (m.job.requested, m.job.swap))
    {pre post : List (Requested Cid)} {asked : Requested Cid}
    (hasked : m.job.requested = pre ++ asked :: post)
    (hpost : ∀ other ∈ post, other.write.key ≠ asked.write.key)
    (hlater : ∀ m' ∈ later, ∀ record ∈ m'.revision.records,
      record.uri did ≠ uri did asked.write.collection asked.write.rkey) :
    (∀ value, asked.write.record = some value → ∃ (body : Body) (landed : Landed Cid)
        (bytes : Bytes) (J : Json), call.bodies[pre.length]? = some (some body) ∧
      record asked.write.collection body.json = .ok value.ipld ∧
      encode value.ipld = .ok bytes ∧ m.outcome = .done (.ok (some landed)) ∧
      ⟨uri did asked.write.collection asked.write.rkey, some (cidFor bytes)⟩ ∈ landed.results ∧
      fromJson J = .ok value.ipld ∧ ∀ named : Option Str,
        getRecord w.actor.tables did asked.write.collection.str asked.write.rkey.str named =
          if named.all (· = CidText.toText (cidFor bytes : Cid)) then
            .ok ⟨uri did asked.write.collection asked.write.rkey,
              CidText.toText (cidFor bytes : Cid), J⟩
          else .error notFound) ∧
    (asked.write.record = none → ∀ named : Option Str,
      getRecord w.actor.tables did asked.write.collection.str asked.write.rkey.str named =
        .error notFound) := by
  have hsound := h.sound
  obtain ⟨hcarried, hshape⟩ := Call.requests_eq_ok hcall
  obtain ⟨repo, ℓ, xs, worked, next, ℓ', xs', hl⟩ := hsound.lands m (by rw [hm]; simp)
  have hmem : asked ∈ m.job.requested := by
    rw [hasked]
    simp
  have hsolo : m.job.requested.length = 1 → pre = [] ∧ post = [] := by
    intro hone
    rw [hasked, List.length_append, List.length_cons] at hone
    exact ⟨List.eq_nil_of_length_eq_zero (by omega), List.eq_nil_of_length_eq_zero (by omega)⟩
  have hskip : asked.missing = .refuse ∨ pre = [] ∧ post = [] := by
    rcases hshape with hone | hall
    · exact Or.inr (hsolo hone)
    · exact Or.inl (hall asked hmem).1
  have hignore : ∀ other ∈ post, other.conflicts = .ignore ∧ other.write.key ≠ asked.write.key := by
    intro other ho
    refine ⟨?_, hpost other ho⟩
    rcases hshape with hone | hall
    · rw [(hsolo hone).2] at ho
      cases ho
    · exact (hall other (by rw [hasked]; simp [ho])).2
  obtain ⟨hput, htaken⟩ := hl.find_asked (h.job_did.2 m (by rw [hm]; simp)) hasked hignore hskip
  have hkept := h.find_since hm hlater
  obtain ⟨repo', ℓ₁, xs₁, hc, -⟩ := hsound.carries
  constructor
  · intro value hvalue
    obtain ⟨bytes, row, committed, he, hrow, hcid, houtcome, hresult⟩ := hput value hvalue
    obtain ⟨body, hbody, hsent⟩ := Carried.exists_body hcarried hasked
    obtain ⟨sent, rfl, hrecord⟩ := hsent value hvalue
    rw [← hkept] at hrow
    obtain ⟨J, hback, hshown⟩ := getRecord_eq_ok hc hrow he hcid (record_isRecordData hrecord)
    exact ⟨sent, _, bytes, J, hbody, hrecord, he, houtcome, hresult, hback, hshown⟩
  · intro hvalue named
    have hnone := htaken hvalue
    rw [← hkept] at hnone
    rw [getRecord_eq, Tables.recordAt, hnone]
    rfl

end

end Records

section

open DagCbor Records

/-- Decodes to the values that are written. -/
@[reducible] noncomputable def recordValues : ValueCodec RawCid where
  fromSlice b := (DagCbor.decode (fun value : Value RawCid => value.ipld) b).map Value.ipld

theorem lawful_recordValues : @LawfulValueCodec RawCid _ recordValues := by
  apply @LawfulValueCodec.mk RawCid _ recordValues
  intro value b h
  obtain ⟨hp, rfl⟩ := toVec_eq_ok.mp h
  have hi : Function.Injective fun value : Value RawCid => value.ipld := by
    rintro ⟨v, hv⟩ ⟨w, hw⟩ h
    cases h
    rfl
  change Except.map _ (DagCbor.decode _ (enc value.ipld)) = _
  rw [DagCbor.decode_enc hi Value.wf hp]
  rfl

theorem textBody_wf (words : Str) : (Json.object [(text "text", .string words)]).wf = true := rfl

/-- A record that leaves its collection out. -/
def textBody (words : Str) : Body := ⟨_, textBody_wf words⟩

theorem record_textBody (words : Str) :
    (record recordCollection (textBody words).json : Except (Refusal RawCid) _) =
      .ok (textRecord words).ipld := by
  have htype : typeOf (textBody words).json = none := rfl
  have hread : record recordCollection (textBody words).json =
      (fromJson (.object (Json.insert (text "$type") (.string recordCollection.str)
        [(text "text", .string words)])) : Except (RepoError RawCid) _).mapError
          Refusal.invalidRecord := by
    unfold record
    rw [htype]
    rfl
  rw [hread, fromJson_object rfl]
  rfl

/-- A call that creates records at some keys. -/
def creating (sent : List (RecordKey × Str)) : Call :=
  .apply ⟨sent.map fun one => .create recordCollection.str (some one.1.str) (textBody one.2), none⟩

def created (one : RecordKey × Str) : Requested RawCid :=
  requestedFrom (.create recordCollection one.1 (textRecord one.2))

theorem requested_created (fresh : RecordKey) (one : RecordKey × Str) :
    (Asked.create recordCollection.str (some one.1.str) (textBody one.2)).requested fresh =
      .ok (created one) := by
  have hrecord : (recordValue recordCollection (textBody one.2) : Except (Refusal RawCid) _) =
      .ok (textRecord one.2) := recordValue_eq_ok.mpr (record_textBody one.2)
  have hc : (parseCollection recordCollection.str : Except (Refusal RawCid) Nsid) =
      .ok recordCollection := by
    rw [parseCollection, Nsid.parse_eq_ok.mpr rfl]
    rfl
  have hr : (parseRecordKey one.1.str : Except (Refusal RawCid) RecordKey) = .ok one.1 := by
    rw [parseRecordKey, RecordKey.parse_eq_ok.mpr rfl]
    rfl
  simp only [Asked.requested, keyOr, hc, hr, bind, Except.bind, hrecord]
  rfl

theorem creating_requests (fresh : ℕ → RecordKey) {sent : List (RecordKey × Str)}
    (h : sent.length ≤ WRITES) : (creating sent).requests fresh =
      .ok (sent.map created, (none : Option RawCid)) := by
  have hall : ∀ n, ((sent.map fun one => Asked.create recordCollection.str (some one.1.str)
      (textBody one.2)).zipIdx n).mapM (fun asked : Asked × ℕ => asked.1.requested (fresh asked.2)) =
        .ok (sent.map created) := by
    clear h
    induction sent with
    | nil => exact fun _ => rfl
    | cons one sent ih =>
      intro n
      rw [List.map_cons, List.zipIdx_cons, List.mapM_cons, requested_created, ih]
      rfl
  simp only [creating, Call.requests, Applying.requests, List.length_map]
  rw [if_neg (Nat.not_lt.mpr h), hall]
  rfl

theorem exists_both_plan (tables : Tables RawCid) : ∃ plan,
    tables.planOn recordDid [] [firstAsked, secondAsked] = .ok plan ∧ plan.writes ≠ [] ∧
    (∀ write ∈ plan.writes, write.named = true) ∧
    leavesAfter plan.writes [] = some [firstLeaf, secondLeaf] ∧
    ∀ record ∈ plan.index, record.blobs = [] :=
  exists_plan_of [.put recordCollection recordKey firstLeaf.value [] [],
    .put recordCollection otherKey secondLeaf.value [] []] ⟨_, rfl, rfl, rfl⟩
    (List.cons_ne_nil _ _) rfl rfl rfl

/-- Two records sent in one call, each shown at its own key as the data it was sent as. -/
theorem written_read_back_both : ∃ (w : World RawCid) (J J' : Json), World.Reachable recordDid w ∧
    (fromJson J : Except _ (Ipld RawCid)) = .ok (textRecord (text "first")).ipld ∧
    @getRecord RawCid _ _ recordValues w.actor.tables recordDid recordCollection.str recordKey.str
      none = .ok ⟨uri recordDid recordCollection recordKey, CidText.toText firstLeaf.value, J⟩ ∧
    (fromJson J' : Except _ (Ipld RawCid)) = .ok (textRecord (text "second")).ipld ∧
    @getRecord RawCid _ _ recordValues w.actor.tables recordDid recordCollection.str otherKey.str
      none = .ok ⟨uri recordDid recordCollection otherKey, CidText.toText secondLeaf.value, J'⟩ := by
  obtain ⟨actor, repo, hf, hc, hroom⟩ := exists_first_founded
  obtain ⟨plan, hplan, hne, hnamed, hleaves, hblobs⟩ := exists_both_plan actor.tables
  obtain ⟨w, m, worked, committed, next, ℓ', hw, hmoved, -, -, hjob, -⟩ :=
    (World.Reachable.founded hf).exists_landed hc (Nat.lt_of_succ_lt hroom) blankKey hplan hne hnamed
      hleaves (ActorState.ready_of_blobless hblobs)
  have hm : w.moved = [] ++ m :: [] := hmoved
  have hcall : (creating [(recordKey, text "first"), (otherKey, text "second")]).requests
      (fun _ => recordKey) = .ok (m.job.requested, m.job.swap) := by
    rw [hjob]
    exact creating_requests _ (by decide)
  have hfirst : m.job.requested = [] ++ firstAsked :: [secondAsked] := by rw [hjob]; rfl
  have hsecond : m.job.requested = [firstAsked] ++ secondAsked :: [] := by rw [hjob]; rfl
  have hapart : ∀ other ∈ [secondAsked], other.write.key ≠ firstAsked.write.key := by decide
  obtain ⟨hwritten, -⟩ := @written_read_back RawCid _ _ _ _ _ recordValues lawful_recordValues
    recordDid w hw [] [] m hm _ _ hcall [] [secondAsked] firstAsked hfirst hapart (by simp)
  obtain ⟨hwritten', -⟩ := @written_read_back RawCid _ _ _ _ _ recordValues lawful_recordValues
    recordDid w hw [] [] m hm _ _ hcall [firstAsked] [] secondAsked hsecond (by simp) (by simp)
  obtain ⟨_, _, bytes, J, -, -, he, -, -, hback, hshown⟩ := hwritten _ rfl
  obtain ⟨_, _, bytes', J', -, -, he', -, -, hback', hshown'⟩ := hwritten' _ rfl
  obtain rfl : enc (textRecord (text "first")).ipld = bytes := Except.ok.inj he
  obtain rfl : enc (textRecord (text "second")).ipld = bytes' := Except.ok.inj he'
  exact ⟨w, J, J', hw, hback, hshown none, hback', hshown' none⟩

end

end Manapds
