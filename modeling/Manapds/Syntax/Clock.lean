import Manapds.Syntax.Tid

/-!
# The clock over a whole run

One clock serves every account of a server: it mints the revisions of their commits, each above the
revision stored before it, and the record keys nobody chose. A stored revision is whatever the
commit says, so it can be at the top of the field. `mintAfter` refuses to follow one of those, and
a clock that has been asked to is at the top of the field itself from then on.
-/

namespace Manapds

namespace Tid

/-- The last timestamp there is, which nothing follows. -/
def ceiling : ℕ := micros - 1

theorem ceiling_eq : ceiling = 9007199254740991 := by
  rw [ceiling, micros_eq]

end Tid

namespace TidClock

/-- One use of the clock, with what the system clock reads at the time. -/
inductive Call where
  | mint (now : ℕ)
  | mintAfter (now : ℕ) (previous : Tid)

namespace Call

def now : Call → ℕ
  | .mint now => now
  | .mintAfter now _ => now

def previous : Call → Option Tid
  | .mint _ => none
  | .mintAfter _ previous => some previous

/-- Whether it is to follow a TID that nothing follows. -/
def AtCeiling (call : Call) : Prop := ∃ p, call.previous = some p ∧ Tid.ceiling ≤ p.toParts.1

end Call

def call (clock : TidClock) : Call → Option Tid × TidClock
  | .mint now => (some (clock.mint now).1, (clock.mint now).2)
  | .mintAfter now previous => clock.mintAfter now previous

/-- The clock once some calls have been made on it. -/
def after (clock : TidClock) (calls : List Call) : TidClock :=
  calls.foldl (fun clock c => (clock.call c).2) clock

/-- What each call of a run comes back with. -/
def results : TidClock → List Call → List (Option Tid)
  | _, [] => []
  | clock, c :: rest => (clock.call c).1 :: results (clock.call c).2 rest

/-- The calls of a run that came back with a TID. -/
def answered : TidClock → List Call → List Call
  | _, [] => []
  | clock, c :: rest =>
    if (clock.call c).1.isSome then c :: answered (clock.call c).2 rest
    else answered (clock.call c).2 rest

/-- What a run of calls is for. -/
structure Climbs (clock : TidClock) (calls : List Call) : Prop where
  /-- Every TID is above all those before it. -/
  increasing : ((clock.results calls).filterMap id).Pairwise (· < ·)
  /-- Only a TID at the top of the field is refused a successor. -/
  refused : ∀ pre c post p, calls = pre ++ c :: post → c.previous = some p →
    (((clock.after pre).call c).1 = none ↔ Tid.ceiling ≤ p.toParts.1)
  /-- A successor is above what it follows. -/
  above : ∀ pre c post p tid, calls = pre ++ c :: post → c.previous = some p →
    ((clock.after pre).call c).1 = some tid → p < tid
  /-- Refusals leave nothing behind: whatever follows some calls is what follows those of them that
  were answered. -/
  inert : ∀ pre post, calls = pre ++ post →
    (clock.after pre).results post = (clock.after (clock.answered pre)).results post

/-- The readings, and the timestamps that can be followed, leave room for the calls of the run. -/
structure Room (calls : List Call) : Prop where
  now : ∀ c ∈ calls, c.now + calls.length < Tid.ceiling
  previous : ∀ c ∈ calls, ∀ p, c.previous = some p → p.toParts.1 < Tid.ceiling →
    p.toParts.1 + calls.length < Tid.ceiling

/-- No call but another of its kind comes after one that follows the top of the field. -/
def CeilingsLast (calls : List Call) : Prop :=
  calls.Pairwise fun c later => c.AtCeiling → later.AtCeiling

variable {clock : TidClock} {calls rest : List Call} {c : Call} {now : ℕ} {p tid : Tid}

theorem after_append (clock : TidClock) (pre post : List Call) :
    clock.after (pre ++ post) = (clock.after pre).after post := List.foldl_append

/-! ## One call -/

/-- A call that is to follow the top of the field is refused, and the clock is left there. -/
theorem call_of_ceiling (h : c.AtCeiling) : (clock.call c).1 = none ∧ Tid.ceiling ≤ (clock.call c).2.last := by
  obtain ⟨p, hp, hc⟩ := h
  cases c with
  | mint now => cases hp
  | mintAfter now previous =>
    obtain rfl : previous = p := Option.some.inj hp
    have hlast : ¬max clock.last previous.toParts.1 < Tid.micros - 1 := by
      rw [← Tid.ceiling]
      omega
    simp only [call, mintAfter, if_neg hlast]
    exact ⟨trivial, le_trans hc (le_max_right _ _)⟩

/-- A clock at the top of the field stays there, and has nothing left to give but its last TID. -/
theorem call_of_full (h : Tid.ceiling ≤ clock.last) :
    Tid.ceiling ≤ (clock.call c).2.last ∧
      ((clock.call c).1 = none ∨
        c.previous = none ∧ (clock.call c).1 = some (Tid.fromParts Tid.ceiling clock.clockId)) := by
  cases c with
  | mint now =>
    have hlast : (clock.mint now).2.last = Tid.ceiling := by
      simp only [mint]
      rw [← Tid.ceiling]
      rw [Tid.ceiling_eq] at h ⊢
      omega
    have htid : (clock.mint now).1 = Tid.fromParts (clock.mint now).2.last clock.clockId := rfl
    simp only [call, htid, hlast]
    exact ⟨le_rfl, Or.inr ⟨rfl, trivial⟩⟩
  | mintAfter now previous =>
    have hlast : ¬max clock.last previous.toParts.1 < Tid.micros - 1 := by
      rw [← Tid.ceiling]
      omega
    simp only [call, mintAfter, if_neg hlast]
    exact ⟨le_trans h (le_max_left _ _), Or.inl trivial⟩

/-- The timestamp a call has to clear, besides the clock's own. -/
def Call.floor (c : Call) : ℕ := (c.previous.map fun p => p.toParts.1).getD 0

theorem Call.floor_lt (h : ¬c.AtCeiling) : c.floor < Tid.ceiling := by
  cases c with
  | mint now => simp [floor, previous, Tid.ceiling_eq]
  | mintAfter now p => exact not_le.mp fun hp => h ⟨p, rfl, hp⟩

theorem mint_of_room (hl : clock.last < Tid.ceiling) (hn : now < Tid.ceiling) :
    clock.mint now = (Tid.fromParts (max now (clock.last + 1)) clock.clockId,
      ⟨clock.clockId, max now (clock.last + 1)⟩) := by
  have hlast : min (max now (min (clock.last + 1) (2 ^ 64 - 1))) (Tid.micros - 1) =
      max now (clock.last + 1) := by
    rw [← Tid.ceiling]
    rw [Tid.ceiling_eq] at *
    omega
  simp only [mint, hlast]

/-- Any other call moves the clock on, just past the reading, the last timestamp and the one it is
to follow, and comes back with the TID there. -/
theorem call_of_room (hc : ¬c.AtCeiling) (hl : clock.last < Tid.ceiling)
    (hn : c.now < Tid.ceiling) : clock.call c =
      (some (Tid.fromParts (max c.now (max clock.last c.floor + 1)) clock.clockId),
        ⟨clock.clockId, max c.now (max clock.last c.floor + 1)⟩) := by
  cases c with
  | mint now =>
    have hfl : (Call.mint now).floor = 0 := rfl
    have hmint := mint_of_room hl hn
    simp only [Call.now] at hmint
    simp only [call, hmint, hfl, Call.now, Nat.max_zero]
  | mintAfter now previous =>
    have hlast : max clock.last previous.toParts.1 < Tid.ceiling := max_lt hl (Call.floor_lt hc)
    have hraised : (⟨clock.clockId, max clock.last previous.toParts.1⟩ : TidClock).last <
      Tid.ceiling := hlast
    have hmint := mint_of_room hraised hn
    simp only [Call.now] at hmint
    have hfl : (Call.mintAfter now previous).floor = previous.toParts.1 := rfl
    rw [Tid.ceiling] at hlast
    simp only [call, mintAfter, if_pos hlast, hfl, hmint, Call.now]

/-! ## A run with room -/

/-- The clock, the readings and the timestamps to follow leave room for the calls to come. -/
structure Fits (clock : TidClock) (calls : List Call) : Prop where
  last : clock.last + calls.length < Tid.ceiling
  room : Room calls

theorem Room.fits (h : Room calls) {clockId : ℕ} : Fits ⟨clockId, 0⟩ calls := by
  refine ⟨?_, h⟩
  cases calls with
  | nil => simp [Tid.ceiling_eq]
  | cons c rest =>
    have := h.now c List.mem_cons_self
    simp only
    omega

theorem Fits.tail (h : Fits clock (c :: rest)) (hc : ¬c.AtCeiling) : Fits (clock.call c).2 rest := by
  have hlast := h.last
  have hnow := h.room.now c List.mem_cons_self
  have hprev : c.floor + (c :: rest).length < Tid.ceiling := by
    cases c with
    | mint now =>
      have hf : (Call.mint now).floor = 0 := rfl
      omega
    | mintAfter now p =>
      exact h.room.previous _ List.mem_cons_self p rfl (Call.floor_lt hc)
  rw [List.length_cons] at hlast hnow hprev
  refine ⟨?_, fun d hd => ?_, fun d hd p hp hlt => ?_⟩
  · rw [call_of_room hc (by omega) (by omega)]
    simp only
    omega
  · have := h.room.now d (List.mem_cons_of_mem c hd)
    rw [List.length_cons] at this
    omega
  · have := h.room.previous d (List.mem_cons_of_mem c hd) p hp hlt
    rw [List.length_cons] at this
    omega

theorem Fits.call (h : Fits clock (c :: rest)) (hc : ¬c.AtCeiling) :
    ∃ last, clock.call c = (some (Tid.fromParts last clock.clockId), ⟨clock.clockId, last⟩) ∧
      clock.last < last ∧ c.floor < last ∧ last < Tid.ceiling := by
  have hlast := h.last
  have hnow := h.room.now c List.mem_cons_self
  rw [List.length_cons] at hlast hnow
  have hl : clock.last < Tid.ceiling := by omega
  have hcall := call_of_room hc hl (by omega)
  have htail := (h.tail hc).last
  rw [hcall] at htail
  simp only at htail
  exact ⟨_, hcall, by omega, by omega, by omega⟩

theorem Fits.after {pre : List Call} (h : Fits clock (pre ++ rest)) (hpre : ∀ c ∈ pre, ¬c.AtCeiling) :
    Fits (clock.after pre) rest ∧ clock.answered pre = pre := by
  induction pre generalizing clock with
  | nil => exact ⟨h, rfl⟩
  | cons c pre ih =>
    have hc := hpre c List.mem_cons_self
    obtain ⟨last, hcall, -⟩ := Fits.call h hc
    obtain ⟨hfits, hans⟩ := ih (h.tail hc) fun d hd => hpre d (List.mem_cons_of_mem c hd)
    refine ⟨hfits, ?_⟩
    rw [answered, hans, hcall]
    rfl

/-! ## Whole runs -/

theorem value_lt_fromParts {last last' : ℕ} (clockId : ℕ) (h : last < last') (hc : last' ≤ Tid.ceiling) :
    Tid.fromParts last clockId < Tid.fromParts last' clockId := by
  rw [Tid.ceiling_eq] at hc
  have hl : last < Tid.micros := by
    rw [Tid.micros_eq]
    omega
  have hl' : last' < Tid.micros := by
    rw [Tid.micros_eq]
    omega
  rw [Tid.lt_iff_value_lt, Tid.value_fromParts clockId hl, Tid.value_fromParts clockId hl',
    Tid.clockIds_eq]
  omega

theorem lt_fromParts {last clockId : ℕ} (h : p.toParts.1 < last) (hc : last ≤ Tid.ceiling) :
    p < Tid.fromParts last clockId := by
  rw [Tid.ceiling_eq] at hc
  have hl : last < Tid.micros := by
    rw [Tid.micros_eq]
    omega
  rw [Tid.toParts, Tid.clockIds_eq] at h
  rw [Tid.lt_iff_value_lt, Tid.value_fromParts clockId hl, Tid.clockIds_eq]
  omega

theorem results_of_ceilings (clock : TidClock) (h : ∀ c ∈ calls, c.AtCeiling) :
    clock.results calls = List.replicate calls.length none := by
  induction calls generalizing clock with
  | nil => rfl
  | cons c rest ih =>
    rw [results, (call_of_ceiling (h c List.mem_cons_self)).1,
      ih _ fun d hd => h d (List.mem_cons_of_mem c hd)]
    rfl

/-- What a run with room mints goes up from where the clock was. -/
theorem increasing_of_fits (h : Fits clock calls) (hl : CeilingsLast calls) :
    ((clock.results calls).filterMap id).Pairwise (· < ·) ∧
      ∀ tid ∈ (clock.results calls).filterMap id,
        ∃ last, tid = Tid.fromParts last clock.clockId ∧ clock.last < last ∧ last ≤ Tid.ceiling := by
  induction calls generalizing clock with
  | nil => simp [results]
  | cons c rest ih =>
    obtain ⟨hfirst, hrest⟩ := List.pairwise_cons.mp hl
    by_cases hc : c.AtCeiling
    · have hall : ∀ d ∈ c :: rest, d.AtCeiling := by
        intro d hd
        rcases List.mem_cons.mp hd with rfl | hd
        · exact hc
        · exact hfirst d hd hc
      rw [results_of_ceilings clock hall]
      simp
    · obtain ⟨last, hcall, hlt, -, hle⟩ := Fits.call h hc
      have htail := h.tail hc
      rw [hcall] at htail
      obtain ⟨hpair, hmem⟩ := ih htail hrest
      rw [results, hcall]
      simp only [List.filterMap_cons, id_eq, List.pairwise_cons, List.mem_cons]
      refine ⟨⟨fun tid ht => ?_, hpair⟩, ?_⟩
      · obtain ⟨last', rfl, hlt', hle'⟩ := hmem tid ht
        exact value_lt_fromParts _ hlt' hle'
      · rintro tid (rfl | ht)
        · exact ⟨last, rfl, hlt, hle.le⟩
        · obtain ⟨last', rfl, hlt', hle'⟩ := hmem tid ht
          exact ⟨last', rfl, lt_trans hlt hlt', hle'⟩

theorem exists_first {α : Type} (P : α → Prop) (l : List α) :
    (∀ x ∈ l, ¬P x) ∨ ∃ pre x post, l = pre ++ x :: post ∧ P x ∧ ∀ y ∈ pre, ¬P y := by
  induction l with
  | nil => exact Or.inl (by simp)
  | cons a l ih =>
    by_cases ha : P a
    · exact Or.inr ⟨[], a, l, rfl, ha, by simp⟩
    · rcases ih with h | ⟨pre, x, post, rfl, hx, hpre⟩
      · exact Or.inl (by simpa [ha] using h)
      · exact Or.inr ⟨a :: pre, x, post, rfl, hx, by simpa [ha] using hpre⟩

/-- Where some calls are followed by one that can be answered, none of them was refused. -/
theorem CeilingsLast.before {pre : List Call} (h : CeilingsLast (pre ++ c :: rest))
    (hc : ¬c.AtCeiling) : ∀ d ∈ pre, ¬d.AtCeiling := fun d hd hceil =>
  hc ((List.pairwise_append.mp h).2.2 d hd c List.mem_cons_self hceil)

theorem climbs_of_ceilingsLast (h : Fits clock calls) (hl : CeilingsLast calls) :
    Climbs clock calls := by
  refine ⟨(increasing_of_fits h hl).1, ?_, ?_, ?_⟩
  · rintro pre c post p rfl hp
    constructor
    · intro hnone
      by_contra hlt
      have hc : ¬c.AtCeiling := by
        rintro ⟨p', hp', hle⟩
        rw [hp] at hp'
        cases hp'
        exact hlt hle
      obtain ⟨last, hcall, -⟩ := Fits.call (Fits.after h (hl.before hc)).1 hc
      rw [hcall] at hnone
      cases hnone
    · intro hle
      exact (call_of_ceiling ⟨p, hp, hle⟩).1
  · rintro pre c post p tid rfl hp hsome
    have hc : ¬c.AtCeiling := by
      intro hc
      rw [(call_of_ceiling hc).1] at hsome
      cases hsome
    obtain ⟨last, hcall, -, hfloor, hle⟩ := Fits.call (Fits.after h (hl.before hc)).1 hc
    rw [hcall] at hsome
    obtain rfl := Option.some.inj hsome
    have hfl : c.floor = p.toParts.1 := by simp [Call.floor, hp]
    exact lt_fromParts (hfl ▸ hfloor) hle.le
  · rintro pre post rfl
    rcases exists_first Call.AtCeiling pre with hpre | ⟨xs, c, ys, rfl, hc, -⟩
    · rw [(Fits.after h hpre).2]
    · -- One refusal among them leaves nothing but refusals to come.
      have hpost : ∀ d ∈ post, d.AtCeiling := fun d hd =>
        (List.pairwise_append.mp hl).2.2 c (List.mem_append_right xs List.mem_cons_self) d hd hc
      rw [results_of_ceilings _ hpost, results_of_ceilings _ hpost]

theorem after_of_full (h : Tid.ceiling ≤ clock.last) : Tid.ceiling ≤ (clock.after calls).last := by
  induction calls generalizing clock with
  | nil => exact h
  | cons c rest ih => exact ih (call_of_full h).1

theorem clockId_call : (clock.call c).2.clockId = clock.clockId := by
  cases c with
  | mint now => rfl
  | mintAfter now p =>
    simp only [call, mintAfter]
    split_ifs <;> rfl

theorem clockId_after : (clock.after calls).clockId = clock.clockId := by
  induction calls generalizing clock with
  | nil => rfl
  | cons c rest ih => exact ih.trans clockId_call

theorem answered_append (pre : List Call) : clock.answered (pre ++ rest) =
    clock.answered pre ++ (clock.after pre).answered rest := by
  induction pre generalizing clock with
  | nil => rfl
  | cons c pre ih =>
    rw [List.cons_append, answered, answered, ih]
    split_ifs <;> rfl

theorem answered_of_ceilings (h : ∀ c ∈ calls, c.AtCeiling) : clock.answered calls = [] := by
  induction calls generalizing clock with
  | nil => rfl
  | cons c rest ih =>
    rw [answered, (call_of_ceiling (h c List.mem_cons_self)).1,
      ih fun d hd => h d (List.mem_cons_of_mem c hd)]
    rfl

theorem ceilingsLast_of_climbs (h : Fits clock calls) (hclimbs : Climbs clock calls) :
    CeilingsLast calls := by
  rcases exists_first Call.AtCeiling calls with hnone | ⟨xs, c, rest, rfl, hc, hxs⟩
  · exact List.pairwise_of_forall_mem_list fun d hd _ _ hceil => absurd hceil (hnone d hd)
  rcases exists_first (fun d => ¬d.AtCeiling) rest with hall | ⟨ys, d, zs, rfl, hd, hys⟩
  · have hrest : ∀ d ∈ c :: rest, d.AtCeiling := by
      intro d hd
      rcases List.mem_cons.mp hd with rfl | hd
      · exact hc
      · exact not_not.mp (hall d hd)
    refine List.pairwise_append.mpr ⟨?_, ?_, fun a ha b hb hceil => absurd hceil (hxs a ha)⟩
    · exact List.pairwise_of_forall_mem_list fun a ha _ _ hceil => absurd hceil (hxs a ha)
    · exact List.pairwise_of_forall_mem_list fun _ _ b hb _ => hrest b hb
  -- The clock is at the top of the field when it comes to `d`, and would not be but for the
  -- refusals before it.
  exfalso
  have hcs : ∀ e ∈ c :: ys, e.AtCeiling := by
    intro e he
    rcases List.mem_cons.mp he with rfl | he
    · exact hc
    · exact not_not.mp (hys e he)
  have hsplit : xs ++ c :: (ys ++ d :: zs) = (xs ++ c :: ys) ++ d :: zs := by simp
  have hfull : Tid.ceiling ≤ (clock.after (xs ++ c :: ys)).last := by
    rw [after_append]
    have hc' : Tid.ceiling ≤ ((clock.after xs).call c).2.last := (call_of_ceiling hc).2
    have hys : Tid.ceiling ≤ (((clock.after xs).call c).2.after ys).last := after_of_full hc'
    exact hys
  have hinert := hclimbs.inert _ _ hsplit
  rw [answered_append, answered_of_ceilings hcs, List.append_nil, (Fits.after h hxs).2] at hinert
  have hfits := (Fits.after h hxs).1
  have hfits' : Fits (clock.after xs) (d :: zs) := by
    have hlen : (d :: zs).length ≤ (c :: (ys ++ d :: zs)).length := by simp; omega
    have hmem : ∀ e ∈ d :: zs, e ∈ c :: (ys ++ d :: zs) := fun e he =>
      List.mem_cons_of_mem c (List.mem_append_right ys he)
    refine ⟨lt_of_le_of_lt (Nat.add_le_add_left hlen _) hfits.last, fun e he => ?_,
      fun e he p hp hlt => ?_⟩
    · exact lt_of_le_of_lt (Nat.add_le_add_left hlen _) (hfits.room.now e (hmem e he))
    · exact lt_of_le_of_lt (Nat.add_le_add_left hlen _)
        (hfits.room.previous e (hmem e he) p hp hlt)
  obtain ⟨last, hcall, -, -, hlast⟩ := Fits.call hfits' hd
  have hhead : ((clock.after (xs ++ c :: ys)).call d).1 = ((clock.after xs).call d).1 :=
    (List.cons.inj hinert).1
  rw [hcall] at hhead
  rcases (call_of_full hfull).2 with hnone | ⟨-, hsome⟩
  · rw [hnone] at hhead
    cases hhead
  · rw [hsome, clockId_after, clockId_after] at hhead
    have hne := value_lt_fromParts clock.clockId hlast le_rfl
    rw [Option.some.inj hhead] at hne
    exact lt_irrefl (Tid.fromParts last clock.clockId).str hne

theorem toParts_fromParts {last : ℕ} (clockId : ℕ) (h : last ≤ Tid.ceiling) :
    (Tid.fromParts last clockId).toParts.1 = last := by
  rw [Tid.ceiling_eq] at h
  have hl : last < Tid.micros := by
    rw [Tid.micros_eq]
    omega
  rw [Tid.toParts, Tid.value_fromParts clockId hl, Tid.clockIds_eq]
  omega

/-- A clock only goes up, whatever is asked of it, exactly as long as nothing but another such call
comes after one that is to follow the top of the field. -/
theorem climbs_iff_ceilingsLast (clockId : ℕ) (calls : List Call) (room : Room calls) :
    Climbs ⟨clockId, 0⟩ calls ↔ CeilingsLast calls :=
  ⟨ceilingsLast_of_climbs room.fits, climbs_of_ceilingsLast room.fits⟩

/-- A record key, then a revision after one stored ahead of the system clock. -/
def sampleCalls : List Call := [.mint 5, .mintAfter 3 (Tid.fromParts 10 0)]

theorem climbs_sampleCalls : Room sampleCalls ∧ Climbs ⟨17, 0⟩ sampleCalls := by
  have hp : (Tid.fromParts 10 0).toParts.1 = 10 := toParts_fromParts 0 (by simp [Tid.ceiling_eq])
  have hroom : Room sampleCalls := by
    refine ⟨?_, ?_⟩ <;> simp [sampleCalls, Call.now, Call.previous, Tid.ceiling_eq, hp]
  refine ⟨hroom, (climbs_iff_ceilingsLast 17 sampleCalls hroom).mpr ?_⟩
  simp [CeilingsLast, sampleCalls, Call.AtCeiling, Call.previous]

/-- A revision at the top of the field, then two record keys. -/
def stuckCalls : List Call := [.mintAfter 0 (Tid.fromParts Tid.ceiling 0), .mint 0, .mint 0]

/-- Both keys are the same. -/
theorem not_climbs_stuckCalls : Room stuckCalls ∧ ¬Climbs ⟨17, 0⟩ stuckCalls := by
  have hp : (Tid.fromParts Tid.ceiling 0).toParts.1 = Tid.ceiling := toParts_fromParts 0 le_rfl
  have hceil : (Call.mintAfter 0 (Tid.fromParts Tid.ceiling 0)).AtCeiling := ⟨_, rfl, hp.ge⟩
  refine ⟨⟨?_, ?_⟩, fun h => ?_⟩
  · simp [stuckCalls, Call.now, Tid.ceiling_eq]
  · intro c hc p hprev hlt
    have hcp : p.toParts.1 = Tid.ceiling := by
      simp only [stuckCalls, List.mem_cons, List.not_mem_nil, or_false] at hc
      rcases hc with rfl | rfl | rfl
      · cases hprev
        exact hp
      · cases hprev
      · cases hprev
    omega
  · have hfull : Tid.ceiling ≤ ((⟨17, 0⟩ : TidClock).call
        (.mintAfter 0 (Tid.fromParts Tid.ceiling 0))).2.last := (call_of_ceiling hceil).2
    have hsame : ∀ clock : TidClock, Tid.ceiling ≤ clock.last →
        (clock.call (.mint 0)).1 = some (Tid.fromParts Tid.ceiling clock.clockId) := by
      intro clock hclock
      rcases (call_of_full (c := .mint 0) hclock).2 with hnone | ⟨-, hsome⟩
      · cases hnone
      · exact hsome
    have hinc := h.increasing
    rw [stuckCalls, results, results, results, results, (call_of_ceiling hceil).1, hsame _ hfull,
      hsame _ (call_of_full hfull).1, clockId_call, clockId_call] at hinc
    simp only [List.filterMap_cons, List.filterMap_nil, id_eq, List.pairwise_cons] at hinc
    exact lt_irrefl (Tid.fromParts Tid.ceiling 17).str (hinc.1 _ (List.mem_singleton.mpr rfl))

end TidClock

end Manapds
