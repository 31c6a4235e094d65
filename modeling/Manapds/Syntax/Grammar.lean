import Manapds.Syntax.Alphabet
import Manapds.Syntax.AtUri

/-!
# The grammar of AT-URIs

A URI is an authority, then perhaps a collection and a record key in it, then perhaps a fragment.
The parser cuts a string at the bytes that stand between those parts before it looks at any of
them. No part has such a byte in it, so what the parser finds are the parts of the one way there is
to read the string, and a URI prints as the string it was read from.
-/

namespace Manapds

namespace AtUri

/-- What is left of a string when its escapes are read. -/
inductive Spells : Str → Bytes → Prop
  | nil : Spells [] []
  | plain {b : Byte} {s : Str} {d : Bytes} (hb : b ≠ ascii '%') (hs : Spells s d) :
      Spells (b :: s) (b :: d)
  | escape {high low : Byte} {h l : ℕ} {s : Str} {d : Bytes} (hh : hex high = some h)
      (hl : hex low = some l) (hs : Spells s d) :
      Spells (ascii '%' :: high :: low :: s) (Fin.ofNat 256 (h * 16 + l) :: d)

structure IsFragment (fragment : Str) : Prop where
  slash : fragment.head? = some (ascii '/')
  pointer : ∀ b ∈ fragment, isPointerByte b = true
  spells : ∃ d, Spells fragment d ∧ Str.isUtf8 d = true

/-- How a URI ends, and the fragment that is. -/
inductive Ending : Str → Option Str → Prop
  | none : Ending [] none
  | some {fragment : Str} (h : IsFragment fragment) : Ending (ascii '#' :: fragment) (some fragment)

/-- What is a URI, and which. -/
inductive Grammar : Str → AtUri → Prop
  | repository (authority : AtIdentifier) {ending : Str} {fragment : Option Str}
      (h : Ending ending fragment) :
      Grammar (text "at://" ++ authority.str ++ ending) ⟨authority, none, none, fragment⟩
  | collection (authority : AtIdentifier) (collection : Nsid) {ending : Str}
      {fragment : Option Str} (h : Ending ending fragment) :
      Grammar (text "at://" ++ authority.str ++ ascii '/' :: collection.str ++ ending)
        ⟨authority, some collection, none, fragment⟩
  | record (authority : AtIdentifier) (collection : Nsid) (rkey : RecordKey) {ending : Str}
      {fragment : Option Str} (h : Ending ending fragment) :
      Grammar (text "at://" ++ authority.str ++ ascii '/' :: collection.str ++
        ascii '/' :: rkey.str ++ ending) ⟨authority, some collection, some rkey, fragment⟩

/-! ## Parts -/

theorem percentDecode_plain {b : Byte} (hb : b ≠ ascii '%') (rest : Str) :
    percentDecode (b :: rest) = (percentDecode rest).map (b :: ·) := by
  conv_lhs => unfold percentDecode
  rw [if_pos hb]
  cases percentDecode rest <;> rfl

theorem percentDecode_escape {high low : Byte} {h l : ℕ} (hh : hex high = some h)
    (hl : hex low = some l) (rest : Str) : percentDecode (ascii '%' :: high :: low :: rest) =
      (percentDecode rest).map (Fin.ofNat 256 (h * 16 + l) :: ·) := by
  rw [percentDecode, if_neg (not_not.mpr rfl)]
  simp only [hh, hl]
  cases percentDecode rest <;> rfl

theorem percentDecode_of_spells {s : Str} {d : Bytes} (h : Spells s d) :
    percentDecode s = .ok d := by
  induction h with
  | nil => rfl
  | plain hb hs ih =>
    rw [percentDecode_plain hb, ih]
    rfl
  | escape hh hl hs ih =>
    rw [percentDecode_escape hh hl, ih]
    rfl

theorem spells_of_percentDecode {n : ℕ} {s : Str} (hn : s.length ≤ n) {d : Bytes}
    (h : percentDecode s = .ok d) : Spells s d := by
  induction n generalizing s d with
  | zero =>
    obtain rfl := List.length_eq_zero_iff.mp (Nat.le_zero.mp hn)
    cases h
    exact .nil
  | succ n ih =>
    cases s with
    | nil =>
      cases h
      exact .nil
    | cons b rest =>
      rw [List.length_cons] at hn
      by_cases hb : b = ascii '%'
      · subst hb
        rcases rest with _ | ⟨high, _ | ⟨low, rest⟩⟩
        · cases h
        · cases h
        · cases hh : hex high with
          | none =>
            rw [percentDecode, if_neg (not_not.mpr rfl)] at h
            simp only [hh] at h
            cases h
          | some a =>
            cases hl : hex low with
            | none =>
              rw [percentDecode, if_neg (not_not.mpr rfl)] at h
              simp only [hh, hl] at h
              cases h
            | some l =>
              rw [percentDecode_escape hh hl] at h
              obtain ⟨d, hd, rfl⟩ := map_ok_iff.mp h
              simp only [List.length_cons] at hn
              exact .escape hh hl (ih (by omega) hd)
      · rw [percentDecode_plain hb] at h
        obtain ⟨d, hd, rfl⟩ := map_ok_iff.mp h
        exact .plain hb (ih (by omega) hd)

theorem validateFragment_eq_ok {fragment : Str} :
    validateFragment fragment = .ok () ↔ IsFragment fragment := by
  constructor
  · intro h
    unfold validateFragment at h
    split_ifs at h with hslash hpointer
    cases hd : percentDecode fragment with
    | error e =>
      rw [hd] at h
      cases h
    | ok d =>
      rw [hd] at h
      simp only [bind, Except.bind] at h
      split_ifs at h with htext
      exact ⟨not_not.mp hslash, List.all_eq_true.mp (Bool.not_eq_false _ ▸ hpointer),
        d, spells_of_percentDecode le_rfl hd, Bool.not_eq_false _ ▸ htext⟩
  · rintro ⟨hslash, hpointer, d, hd, htext⟩
    rw [validateFragment, if_neg (not_not.mpr hslash), List.all_eq_true.mpr hpointer,
      if_neg (by decide), percentDecode_of_spells hd]
    simp only [bind, Except.bind, htext, Bool.true_eq_false, if_false]

theorem isIdentifierByte_authority (authority : AtIdentifier) :
    ∀ b ∈ authority.str, b.isIdentifierByte = true := by
  cases authority with
  | did did => exact did.isIdentifierByte
  | handle handle =>
    intro b hb
    exact Byte.isIdentifierByte_of_domainByte (handle.isDomainByte b hb)

theorem authority_ne_nil (authority : AtIdentifier) : authority.str ≠ [] := by
  cases authority with
  | did did => exact did.ne_nil
  | handle handle => exact handle.ne_nil

theorem authority_parse_eq_ok {input : Str} {authority : AtIdentifier} :
    AtIdentifier.parse input = .ok authority ↔ authority.str = input := by
  unfold AtIdentifier.parse
  split_ifs with hdid
  · rw [map_ok_iff]
    constructor
    · rintro ⟨did, hparse, rfl⟩
      exact Did.parse_eq_ok.mp hparse
    · cases authority with
      | did did => exact fun h => ⟨did, Did.parse_eq_ok.mpr h, rfl⟩
      | handle handle =>
        rintro rfl
        exact absurd hdid handle.not_prefix_str
  · rw [map_ok_iff]
    constructor
    · rintro ⟨handle, hparse, rfl⟩
      exact Handle.parse_eq_ok.mp hparse
    · cases authority with
      | did did =>
        rintro rfl
        exact absurd did.prefix_str hdid
      | handle handle => exact fun h => ⟨handle, Handle.parse_eq_ok.mpr h, rfl⟩

theorem parseOptional_eq_ok {α : Type} {part : Option Str} {parse : Str → Except SyntaxError α}
    {str : α → Str} (hparse : ∀ s a, parse s = .ok a ↔ str a = s) {o : Option α} :
    parseOptional part parse = .ok o ↔ o.map str = part := by
  cases part with
  | none => cases o <;> simp [parseOptional]
  | some s =>
    rw [parseOptional, map_ok_iff]
    cases o <;> simp [hparse]

theorem parseOptional_fragment {fragment o : Option Str} :
    (parseOptional fragment fun s => (validateFragment s).map fun _ => s) = .ok o ↔
      o = fragment ∧ ∀ f ∈ fragment, IsFragment f := by
  cases fragment with
  | none => simp [parseOptional, eq_comm]
  | some s =>
    simp only [parseOptional, map_ok_iff, Option.mem_some_iff, forall_eq']
    constructor
    · rintro ⟨s', ⟨u, hu, rfl⟩, rfl⟩
      exact ⟨rfl, validateFragment_eq_ok.mp hu⟩
    · rintro ⟨rfl, h⟩
      exact ⟨s, ⟨(), validateFragment_eq_ok.mpr h, rfl⟩, rfl⟩

/-- The parts of a URI are the segments it was cut into. -/
theorem parseParts_eq_ok {segments : List Str} {fragment : Option Str} {uri : AtUri} :
    parseParts segments fragment = .ok uri ↔ uri.authority.str = segments.headD [] ∧
      uri.collection.map Nsid.str = segments[1]? ∧ uri.rkey.map RecordKey.str = segments[2]? ∧
      uri.fragment = fragment ∧ ∀ f ∈ fragment, IsFragment f := by
  have hcollection : ∀ (s : Str) (a : Nsid), (Nsid.parse s).mapError
      (fun _ => SyntaxError.atUri "collection is not an NSID") = .ok a ↔ a.str = s := by
    intro s a
    rw [mapError_ok_iff, Nsid.parse_eq_ok]
  have hrkey : ∀ (s : Str) (a : RecordKey), (RecordKey.parse s).mapError
      (fun _ => SyntaxError.atUri "not a record key") = .ok a ↔ a.str = s := by
    intro s a
    rw [mapError_ok_iff, RecordKey.parse_eq_ok]
  obtain ⟨authority, collection, rkey, fragment'⟩ := uri
  simp only [parseParts, bind_ok_iff, mapError_ok_iff, authority_parse_eq_ok,
    parseOptional_eq_ok hcollection, parseOptional_eq_ok hrkey, parseOptional_fragment]
  constructor
  · rintro ⟨a, ha, c, hc, r, hr, f, hf, h⟩
    cases h
    exact ⟨ha, hc, hr, hf⟩
  · rintro ⟨ha, hc, hr, hf⟩
    exact ⟨authority, ha, collection, hc, rkey, hr, fragment', hf, rfl⟩

/-! ## Cutting -/

/-- What a fragment leaves of a string. -/
inductive Cut : Str → Option Str → Prop
  | none : Cut [] none
  | some (fragment : Str) : Cut (ascii '#' :: fragment) (some fragment)

theorem exists_cut_fragment (rest : Str) : ∃ ending,
    rest = (splitFragment rest).1 ++ ending ∧ Cut ending (splitFragment rest).2 := by
  unfold splitFragment
  cases hsplit : rest.splitOnce (ascii '#') with
  | none => exact ⟨[], (List.append_nil rest).symm, .none⟩
  | some p => exact ⟨ascii '#' :: p.2, Str.eq_append_of_splitOnce hsplit, .some p.2⟩

/-- What the parser takes for the parts of a string. -/
theorem exists_cut {s : Str} {uri : AtUri} (h : parse s = .ok uri) :
    ∃ segments ending fragment, s.length ≤ maxLen ∧
      s = text "at://" ++ ([ascii '/'].intercalate segments ++ ending) ∧
      segments ≠ [] ∧ segments.length ≤ 3 ∧ Cut ending fragment ∧
      parseParts segments fragment = .ok uri := by
  unfold parse at h
  split_ifs at h with hlen hallowed
  split at h
  · cases h
  · next rest hrest =>
    obtain ⟨ending, hending, hcut⟩ := exists_cut_fragment rest
    unfold parsePath at h
    split_ifs at h with hquery hslash hcount
    have hjoined : [ascii '/'].intercalate ((splitFragment rest).1.split (ascii '/')) =
        (splitFragment rest).1 := List.intercalate_splitOn (ascii '/')
    refine ⟨(splitFragment rest).1.split (ascii '/'), ending, _, Nat.le_of_not_lt hlen, ?_,
      List.splitOn_ne_nil _ _, Nat.le_of_not_lt hcount, hcut, h⟩
    rw [hjoined, ← hending]
    exact Str.eq_append_of_stripPrefix hrest

theorem isAllowed_of_isIdentifierByte {b : Byte} (h : b.isIdentifierByte = true) :
    isAllowed b = true := by
  rw [Byte.isIdentifierByte, Bool.or_eq_true, List.contains_iff_mem] at h
  rcases h with h | h
  · rw [isAllowed, isPointerByte, h]
    rfl
  · have hall : ∀ b ∈ text "._~:%-", isAllowed b = true := by decide +kernel
    exact hall b h

theorem Ending.cut {ending : Str} {fragment : Option Str} (h : Ending ending fragment) :
    Cut ending fragment := by
  cases h with
  | none => exact .none
  | some h => exact .some _

theorem Ending.isAllowed {ending : Str} {fragment : Option Str} (h : Ending ending fragment) :
    ∀ b ∈ ending, isAllowed b = true := by
  cases h with
  | none => simp
  | some h =>
    intro b hb
    rcases List.mem_cons.mp hb with rfl | hb
    · decide
    · rw [AtUri.isAllowed, h.pointer b hb, Bool.true_or]

theorem splitFragment_append {path ending : Str} {fragment : Option Str}
    (hpath : ascii '#' ∉ path) (h : Cut ending fragment) :
    splitFragment (path ++ ending) = (path, fragment) := by
  unfold splitFragment
  cases h with
  | none => rw [List.append_nil, Str.splitOnce_eq_none hpath]
  | some fragment => rw [Str.splitOnce_append hpath]

/-- A path of segments that identifiers could be. -/
structure IsPath (segments : List Str) : Prop where
  ne_nil : segments ≠ []
  length_le : segments.length ≤ 3
  segment_ne_nil : ∀ s ∈ segments, s ≠ []
  bytes : ∀ s ∈ segments, ∀ b ∈ s, b.isIdentifierByte = true

theorem IsPath.byte {segments : List Str} (h : IsPath segments) {b : Byte}
    (hb : b ∈ [ascii '/'].intercalate segments) : b = ascii '/' ∨ b.isIdentifierByte = true := by
  rcases mem_intercalate hb with hb | ⟨s, hs, hb⟩
  · exact Or.inl hb
  · exact Or.inr (h.bytes s hs b hb)

theorem IsPath.not_mem {segments : List Str} (h : IsPath segments) {b : Byte}
    (hslash : b ≠ ascii '/') (hb : b.isIdentifierByte = false) :
    b ∉ [ascii '/'].intercalate segments := by
  intro hm
  rcases h.byte hm with h | h
  · exact hslash h
  · rw [hb] at h
    cases h

theorem IsPath.split {segments : List Str} (h : IsPath segments) :
    Str.split (ascii '/') ([ascii '/'].intercalate segments) = segments := by
  apply List.splitOn_intercalate
  · intro s hs
    exact not_mem_of_isIdentifierByte (by decide) (h.bytes s hs)
  · exact h.ne_nil

theorem getLast?_intercalate {α : Type} {a : α} {l : List (List α)} (hne : l ≠ [])
    (hl : ∀ s ∈ l, s ≠ []) :
    ∃ s ∈ l, ([a].intercalate l).getLast? = s.getLast? := by
  induction l with
  | nil => exact absurd rfl hne
  | cons s l ih =>
    cases l with
    | nil => exact ⟨s, List.mem_cons_self, by rw [List.intercalate_singleton]⟩
    | cons t l =>
      obtain ⟨u, hu, hlast⟩ := ih (List.cons_ne_nil t l) fun v hv => hl v (List.mem_cons_of_mem s hv)
      refine ⟨u, List.mem_cons_of_mem s hu, ?_⟩
      have hu' := hl u (List.mem_cons_of_mem s hu)
      obtain ⟨b, hb⟩ := Option.isSome_iff_exists.mp (List.getLast?_isSome.mpr hu')
      rw [List.intercalate_cons_cons, List.getLast?_append, hlast, hb, Option.some_or]

theorem IsPath.getLast?_ne {segments : List Str} (h : IsPath segments) :
    ([ascii '/'].intercalate segments).getLast? ≠ some (ascii '/') := by
  obtain ⟨s, hs, hlast⟩ := getLast?_intercalate (a := ascii '/') h.ne_nil h.segment_ne_nil
  rw [hlast]
  intro hslash
  exact not_mem_of_isIdentifierByte (by decide) (h.bytes s hs) (List.mem_of_getLast? hslash)

theorem IsPath.parsePath {segments : List Str} (h : IsPath segments) (fragment : Option Str) :
    parsePath ([ascii '/'].intercalate segments) fragment = parseParts segments fragment := by
  have hquery : ([ascii '/'].intercalate segments).contains (ascii '?') = false := by
    rw [← Bool.not_eq_true, List.contains_iff_mem]
    exact h.not_mem (by decide) (by decide)
  rw [AtUri.parsePath, hquery, if_neg (by decide), if_neg h.getLast?_ne, h.split,
    if_neg (Nat.not_lt.mpr h.length_le)]

/-- A string that is put together from parts is cut into those parts. -/
theorem parse_joined {segments : List Str} {ending : Str} {fragment : Option Str}
    (hpath : IsPath segments) (hending : Ending ending fragment)
    (hlen : (text "at://" ++ ([ascii '/'].intercalate segments ++ ending)).length ≤ maxLen) :
    parse (text "at://" ++ ([ascii '/'].intercalate segments ++ ending)) =
      parseParts segments fragment := by
  have hallowed : (text "at://" ++ ([ascii '/'].intercalate segments ++ ending)).all isAllowed =
      true := by
    have hstart : (text "at://").all isAllowed = true := by decide
    rw [List.all_append, hstart, Bool.true_and, List.all_eq_true]
    intro b hb
    rcases List.mem_append.mp hb with hb | hb
    · rcases hpath.byte hb with rfl | hb
      · decide
      · exact isAllowed_of_isIdentifierByte hb
    · exact hending.isAllowed b hb
  have hhash := hpath.not_mem (b := ascii '#') (by decide) (by decide)
  rw [parse, if_neg (Nat.not_lt.mpr hlen), hallowed, if_neg (by decide), Str.stripPrefix_append]
  dsimp only
  rw [splitFragment_append hhash hending.cut, hpath.parsePath]

/-! ## The grammar -/

theorem isPath_repository (authority : AtIdentifier) : IsPath [authority.str] where
  ne_nil := List.cons_ne_nil _ _
  length_le := by simp
  segment_ne_nil := by simpa using authority_ne_nil authority
  bytes := by simpa using isIdentifierByte_authority authority

theorem IsPath.append {segments : List Str} (h : IsPath segments) (hlen : segments.length < 3)
    {s : Str} (hs : s ≠ []) (hbytes : ∀ b ∈ s, b.isIdentifierByte = true) :
    IsPath (segments ++ [s]) where
  ne_nil := by simp
  length_le := by
    rw [List.length_append, List.length_singleton]
    exact hlen
  segment_ne_nil := by
    intro t ht
    rcases List.mem_append.mp ht with ht | ht
    · exact h.segment_ne_nil t ht
    · exact List.mem_singleton.mp ht ▸ hs
  bytes := by
    intro t ht
    rcases List.mem_append.mp ht with ht | ht
    · exact h.bytes t ht
    · exact List.mem_singleton.mp ht ▸ hbytes

theorem isPath_collection (authority : AtIdentifier) (collection : Nsid) :
    IsPath [authority.str, collection.str] :=
  (isPath_repository authority).append (by simp) collection.ne_nil fun b hb =>
    Byte.isIdentifierByte_of_domainByte (collection.isDomainByte b hb)

theorem isPath_record (authority : AtIdentifier) (collection : Nsid) (rkey : RecordKey) :
    IsPath [authority.str, collection.str, rkey.str] :=
  (isPath_collection authority collection).append (by simp) rkey.ne_nil rkey.isIdentifierByte

theorem Ending.isFragment {ending : Str} {fragment : Option Str} (h : Ending ending fragment) :
    ∀ f ∈ fragment, IsFragment f := by
  cases h with
  | none => simp
  | some h => simpa using h

theorem Cut.ending {ending : Str} {fragment : Option Str} (h : Cut ending fragment)
    (hfragment : ∀ f ∈ fragment, IsFragment f) : Ending ending fragment := by
  cases h with
  | none => exact .none
  | some fragment => exact .some (hfragment fragment rfl)

theorem joined_repository (a ending : Str) :
    text "at://" ++ ([ascii '/'].intercalate [a] ++ ending) = text "at://" ++ a ++ ending := by
  rw [List.intercalate_singleton, List.append_assoc]

theorem joined_collection (a c ending : Str) :
    text "at://" ++ ([ascii '/'].intercalate [a, c] ++ ending) =
      text "at://" ++ a ++ ascii '/' :: c ++ ending := by
  rw [List.intercalate_cons_cons, List.intercalate_singleton]
  simp only [List.append_assoc, List.cons_append, List.nil_append]

theorem joined_record (a c r ending : Str) :
    text "at://" ++ ([ascii '/'].intercalate [a, c, r] ++ ending) =
      text "at://" ++ a ++ ascii '/' :: c ++ ascii '/' :: r ++ ending := by
  rw [List.intercalate_cons_cons, List.intercalate_cons_cons, List.intercalate_singleton]
  simp only [List.append_assoc, List.cons_append, List.nil_append]

theorem grammar_of_parse {s : Str} {uri : AtUri} (h : parse s = .ok uri) : Grammar s uri := by
  obtain ⟨segments, ending, fragment, -, rfl, hne, hcount, hcut, hparts⟩ := exists_cut h
  obtain ⟨authority, collection, rkey, fragment'⟩ := uri
  obtain ⟨ha, hc, hr, rfl, hfragment⟩ := parseParts_eq_ok.mp hparts
  have hending := hcut.ending hfragment
  -- As many segments as there are, so many of the parts are there.
  rcases segments with _ | ⟨a, _ | ⟨c, _ | ⟨r, _ | ⟨d, tail⟩⟩⟩⟩
  · exact absurd rfl hne
  · obtain rfl := Option.map_eq_none_iff.mp hc
    obtain rfl := Option.map_eq_none_iff.mp hr
    obtain rfl : authority.str = a := ha
    rw [joined_repository]
    exact .repository authority hending
  · obtain ⟨collection, rfl, rfl⟩ := Option.map_eq_some_iff.mp hc
    obtain rfl := Option.map_eq_none_iff.mp hr
    obtain rfl : authority.str = a := ha
    rw [joined_collection]
    exact .collection authority collection hending
  · obtain ⟨collection, rfl, rfl⟩ := Option.map_eq_some_iff.mp hc
    obtain ⟨rkey, rfl, rfl⟩ := Option.map_eq_some_iff.mp hr
    obtain rfl : authority.str = a := ha
    rw [joined_record]
    exact .record authority collection rkey hending
  · simp only [List.length_cons] at hcount
    omega

theorem parse_of_grammar {s : Str} {uri : AtUri} (hlen : s.length ≤ maxLen) (h : Grammar s uri) :
    parse s = .ok uri := by
  cases h with
  | repository authority h =>
    rw [← joined_repository] at hlen ⊢
    rw [parse_joined (isPath_repository authority) h hlen, parseParts_eq_ok]
    exact ⟨rfl, rfl, rfl, rfl, h.isFragment⟩
  | collection authority collection h =>
    rw [← joined_collection] at hlen ⊢
    rw [parse_joined (isPath_collection authority collection) h hlen, parseParts_eq_ok]
    exact ⟨rfl, rfl, rfl, rfl, h.isFragment⟩
  | record authority collection rkey h =>
    rw [← joined_record] at hlen ⊢
    rw [parse_joined (isPath_record authority collection rkey) h hlen, parseParts_eq_ok]
    exact ⟨rfl, rfl, rfl, rfl, h.isFragment⟩

theorem parse_eq_ok {s : Str} {uri : AtUri} :
    parse s = .ok uri ↔ s.length ≤ maxLen ∧ Grammar s uri := by
  constructor
  · intro h
    obtain ⟨-, -, -, hlen, -⟩ := exists_cut h
    exact ⟨hlen, grammar_of_parse h⟩
  · rintro ⟨hlen, h⟩
    exact parse_of_grammar hlen h

theorem print_of_grammar {s : Str} {uri : AtUri} (h : Grammar s uri) : uri.print = s := by
  cases h with
  | repository authority h => cases h <;> simp [print]
  | collection authority collection h => cases h <;> simp [print]
  | record authority collection rkey h => cases h <;> simp [print]

/-- A string parses exactly when it is of the grammar and not too long. There is then one way to
read it, which is what it parses as, and it is what that prints as, so no two strings parse as the
same URI. -/
theorem parse_exact :
    (∀ s : Str, (∃ uri, parse s = .ok uri) ↔ s.length ≤ maxLen ∧ ∃ uri, Grammar s uri) ∧
    (∀ (s : Str) (uri : AtUri), parse s = .ok uri →
      Grammar s uri ∧ (∀ other, Grammar s other → other = uri) ∧ uri.print = s) ∧
    ∀ (s s' : Str) (uri : AtUri), parse s = .ok uri → parse s' = .ok uri → s = s' := by
  refine ⟨?_, ?_, ?_⟩
  · intro s
    constructor
    · rintro ⟨uri, h⟩
      exact ⟨(parse_eq_ok.mp h).1, uri, grammar_of_parse h⟩
    · rintro ⟨hlen, uri, h⟩
      exact ⟨uri, parse_of_grammar hlen h⟩
  · intro s uri h
    obtain ⟨hlen, hgrammar⟩ := parse_eq_ok.mp h
    refine ⟨hgrammar, fun other hother => ?_, print_of_grammar hgrammar⟩
    have hparse := parse_of_grammar hlen hother
    rw [h] at hparse
    exact (Except.ok.inj hparse).symm
  · intro s s' uri h h'
    rw [← print_of_grammar (grammar_of_parse h), ← print_of_grammar (grammar_of_parse h')]

end AtUri

end Manapds
