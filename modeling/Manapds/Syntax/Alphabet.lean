import Manapds.Syntax.Identifier

/-!
# What identifiers are made of

Each kind of identifier checks its own bytes against its own alphabet and its own limit. A domain
name and an NSID are labels joined by dots; between them the alphabets stay clear of every byte a
URI is cut at.
-/

namespace Manapds

/-- What a label may hold, and what stands between labels. -/
def Byte.isDomainByte (b : Byte) : Bool :=
  b.isAsciiAlphanumeric || b = ascii '-' || b = ascii '.'

/-- What any identifier may hold. -/
def Byte.isIdentifierByte (b : Byte) : Bool :=
  b.isAsciiAlphanumeric || (text "._~:%-").contains b

theorem Byte.isIdentifierByte_of_alphanumeric {b : Byte} (h : b.isAsciiAlphanumeric = true) :
    b.isIdentifierByte = true := by
  rw [isIdentifierByte, h, Bool.true_or]

theorem Byte.isAsciiAlphanumeric_of_lowercase {b : Byte} (h : b.isAsciiLowercase = true) :
    b.isAsciiAlphanumeric = true := by
  rw [isAsciiAlphanumeric, isAsciiAlphabetic, h]
  rfl

theorem Byte.isIdentifierByte_of_domainByte {b : Byte} (h : b.isDomainByte = true) :
    b.isIdentifierByte = true := by
  simp only [isDomainByte, Bool.or_eq_true, decide_eq_true_eq] at h
  rcases h with (h | rfl) | rfl
  · exact isIdentifierByte_of_alphanumeric h
  · decide
  · decide

/-- A byte outside every identifier, such as one a URI is cut at. -/
theorem not_mem_of_isIdentifierByte {s : Str} {b : Byte} (hb : b.isIdentifierByte = false)
    (hs : ∀ c ∈ s, c.isIdentifierByte = true) : b ∉ s := by
  intro hm
  rw [hs b hm] at hb
  cases hb

/-! ## Labels -/

theorem forM_eq_ok {α ε : Type} {check : α → Except ε Unit} {l : List α}
    (h : l.forM check = .ok ()) : ∀ a ∈ l, check a = .ok () := by
  induction l with
  | nil => simp
  | cons a l ih =>
    have hbind : (check a >>= fun _ => l.forM check) = .ok () := h
    cases ha : check a with
    | error e =>
      rw [ha] at hbind
      cases hbind
    | ok u =>
      rw [ha] at hbind
      intro b hb
      rcases List.mem_cons.mp hb with rfl | hb
      · exact ha
      · exact ih hbind b hb

theorem mem_intercalate {α : Type} {a b : α} {l : List (List α)} (h : b ∈ [a].intercalate l) :
    b = a ∨ ∃ s ∈ l, b ∈ s := by
  induction l with
  | nil => simp at h
  | cons s l ih =>
    cases l with
    | nil =>
      rw [List.intercalate_singleton] at h
      exact Or.inr ⟨s, List.mem_cons_self, h⟩
    | cons s' l =>
      rw [List.intercalate_cons_cons, List.append_assoc] at h
      rcases List.mem_append.mp h with h | h
      · exact Or.inr ⟨s, List.mem_cons_self, h⟩
      · rcases List.mem_append.mp h with h | h
        · exact Or.inl (List.mem_singleton.mp h)
        · obtain rfl | ⟨t, ht, hb⟩ := ih h
          · exact Or.inl rfl
          · exact Or.inr ⟨t, List.mem_cons_of_mem s ht, hb⟩

/-- A string cut at dots, each piece of which passed a check of its own. -/
theorem isDomainByte_of_split {s : Str} {check : Str → Except SyntaxError Unit}
    (hs : (s.split (ascii '.')).forM check = .ok ())
    (hcheck : ∀ part, check part = .ok () → ∀ b ∈ part, b.isDomainByte = true) :
    ∀ b ∈ s, b.isDomainByte = true := by
  intro b hb
  have hjoined : [ascii '.'].intercalate (s.splitOn (ascii '.')) = s :=
    List.intercalate_splitOn (ascii '.')
  rw [← hjoined] at hb
  rcases mem_intercalate hb with rfl | ⟨part, hpart, hb⟩
  · decide
  · exact hcheck part (forM_eq_ok hs part hpart) b hb

theorem isDomainByte_of_all {part : Str}
    (h : (part.all fun b => b.isAsciiAlphanumeric || b = ascii '-') = true) :
    ∀ b ∈ part, b.isDomainByte = true := by
  intro b hb
  rw [Byte.isDomainByte, List.all_eq_true.mp h b hb, Bool.true_or]

/-! ## DIDs -/

theorem Did.isIdentifierByte_of_isAllowed {b : Byte} (h : isAllowed b = true) :
    b.isIdentifierByte = true := by
  simp only [isAllowed, Bool.or_eq_true, decide_eq_true_eq] at h
  rcases h with ((((h | rfl) | rfl) | rfl) | rfl) | rfl
  · exact Byte.isIdentifierByte_of_alphanumeric h
  all_goals decide

theorem Did.isIdentifierByte (did : Did) : ∀ b ∈ did.str, b.isIdentifierByte = true := by
  have hvalid := did.valid
  generalize did.str = str at hvalid ⊢
  unfold validate at hvalid
  split_ifs at hvalid with hlen
  split at hvalid
  · cases hvalid
  · next rest hrest =>
    split at hvalid
    · cases hvalid
    · next method id hsplit =>
      split_ifs at hvalid with hmethod hid hall hends
      obtain rfl := Str.eq_append_of_stripPrefix hrest
      obtain rfl := Str.eq_append_of_splitOnce hsplit
      have hstart : ∀ b ∈ text "did:", b.isIdentifierByte = true := by decide +kernel
      intro b hb
      rcases List.mem_append.mp hb with hb | hb
      · exact hstart b hb
      · rcases List.mem_append.mp hb with hb | hb
        · have hlower := List.all_eq_true.mp (by simpa using (not_or.mp hmethod).2) b hb
          exact Byte.isIdentifierByte_of_alphanumeric (Byte.isAsciiAlphanumeric_of_lowercase hlower)
        · rcases List.mem_cons.mp hb with rfl | hb
          · decide
          · exact isIdentifierByte_of_isAllowed
              (List.all_eq_true.mp (Bool.not_eq_false _ ▸ hall) b hb)

theorem Did.length_le (did : Did) : did.str.length ≤ 2048 := by
  have hvalid := did.valid
  generalize did.str = str at hvalid ⊢
  unfold validate at hvalid
  split_ifs at hvalid with hlen
  exact Nat.le_of_not_lt hlen

/-- What tells a DID from a handle. -/
theorem Did.prefix_str (did : Did) : text "did:" <+: did.str := by
  have hvalid := did.valid
  generalize did.str = str at hvalid ⊢
  unfold validate at hvalid
  split_ifs at hvalid with hlen
  split at hvalid
  · cases hvalid
  · next rest hrest =>
    rw [Str.eq_append_of_stripPrefix hrest]
    exact List.prefix_append _ _

theorem Did.ne_nil (did : Did) : did.str ≠ [] := by
  obtain ⟨rest, hrest⟩ := did.prefix_str
  rw [← hrest]
  exact List.cons_ne_nil _ _

/-! ## Handles -/

theorem Handle.isDomainByte_of_label {label : Str} (h : validateLabel label = .ok ()) :
    ∀ b ∈ label, b.isDomainByte = true := by
  unfold validateLabel at h
  split_ifs at h with hempty hlen hall hends
  exact isDomainByte_of_all (Bool.not_eq_false _ ▸ hall)

theorem Handle.isDomainByte (handle : Handle) : ∀ b ∈ handle.str, b.isDomainByte = true := by
  have hvalid := handle.valid
  generalize handle.str = str at hvalid ⊢
  unfold validate at hvalid
  split_ifs at hvalid with hlen
  dsimp only at hvalid
  cases hforM : (str.split (ascii '.')).forM validateLabel with
  | error e =>
    rw [hforM] at hvalid
    cases hvalid
  | ok u => exact isDomainByte_of_split hforM fun _ => isDomainByte_of_label

theorem Handle.not_prefix_str (handle : Handle) : ¬text "did:" <+: handle.str := by
  intro h
  have hcolon : ascii ':' ∈ handle.str := h.subset (by decide)
  have hdomain := handle.isDomainByte _ hcolon
  revert hdomain
  decide

theorem Handle.ne_nil (handle : Handle) : handle.str ≠ [] := by
  have hvalid := handle.valid
  generalize handle.str = str at hvalid ⊢
  rintro rfl
  cases hvalid

/-! ## NSIDs -/

theorem Nsid.isDomainByte_of_segment {segment : Str} (h : validateSegment segment = .ok ()) :
    ∀ b ∈ segment, b.isDomainByte = true := by
  unfold validateSegment at h
  split_ifs at h with hempty hlen hall hends
  exact isDomainByte_of_all (Bool.not_eq_false _ ▸ hall)

theorem Nsid.isDomainByte (collection : Nsid) :
    ∀ b ∈ collection.str, b.isDomainByte = true := by
  have hvalid := collection.valid
  generalize collection.str = str at hvalid ⊢
  unfold validate at hvalid
  split_ifs at hvalid with hlen
  dsimp only at hvalid
  cases hforM : (str.split (ascii '.')).forM validateSegment with
  | error e =>
    rw [hforM] at hvalid
    cases hvalid
  | ok u => exact isDomainByte_of_split hforM fun _ => isDomainByte_of_segment

theorem Nsid.length_le (collection : Nsid) : collection.str.length ≤ 317 := by
  have hvalid := collection.valid
  generalize collection.str = str at hvalid ⊢
  unfold validate at hvalid
  split_ifs at hvalid with hlen
  exact Nat.le_of_not_lt hlen

theorem Nsid.ne_nil (collection : Nsid) : collection.str ≠ [] := by
  have hvalid := collection.valid
  generalize collection.str = str at hvalid ⊢
  rintro rfl
  cases hvalid

/-! ## Record keys -/

theorem RecordKey.isAllowed_of_mem (rkey : RecordKey) : ∀ b ∈ rkey.str, isAllowed b = true := by
  have hvalid := rkey.valid
  generalize rkey.str = str at hvalid ⊢
  unfold validate at hvalid
  split_ifs at hvalid with hempty hlen hdots hall
  exact List.all_eq_true.mp (Bool.not_eq_false _ ▸ hall)

theorem RecordKey.isIdentifierByte (rkey : RecordKey) :
    ∀ b ∈ rkey.str, b.isIdentifierByte = true := by
  intro b hb
  have h := rkey.isAllowed_of_mem b hb
  simp only [isAllowed, Bool.or_eq_true, decide_eq_true_eq] at h
  rcases h with ((((h | rfl) | rfl) | rfl) | rfl) | rfl
  · exact Byte.isIdentifierByte_of_alphanumeric h
  all_goals decide

theorem RecordKey.length_le (rkey : RecordKey) : rkey.str.length ≤ 512 := by
  have hvalid := rkey.valid
  generalize rkey.str = str at hvalid ⊢
  unfold validate at hvalid
  split_ifs at hvalid with hempty hlen
  exact Nat.le_of_not_lt hlen

theorem RecordKey.ne_nil (rkey : RecordKey) : rkey.str ≠ [] := by
  have hvalid := rkey.valid
  generalize rkey.str = str at hvalid ⊢
  rintro rfl
  cases hvalid

end Manapds
