import Manapds.Lib.Table
import Manapds.Syntax.Text
import Mathlib.Algebra.BigOperators.Group.List.Basic

/-!
# Budgets

A budget is so many points a window, counted for each key apart. A window is opened by the first
call after the last one ran out, and what has run out is dropped from the table once a window at
most, so the table holds only keys that were heard of lately. A table that is full counts nobody
new.

Instants and durations are in nanoseconds. Adding a duration to an instant past the last one the
system clock can name is a panic, which is `none` here.
-/

namespace Manapds

namespace Limit

/-- How many keys a budget counts at once. -/
def maxKeys : ℕ := 100000

/-- The last instant there is: seconds in an `i64`, and nanoseconds under a second. -/
def lastInstant : ℕ := 2 ^ 63 * 1000000000 - 1

/-- The longest `Duration`: seconds in a `u64`, and nanoseconds under a second. -/
def maxDuration : ℕ := 2 ^ 64 * 1000000000 - 1

def maxU32 : ℕ := 2 ^ 32 - 1

/-- `Instant + Duration`. -/
def add (now duration : ℕ) : Option ℕ :=
  if now + duration ≤ lastInstant then some (now + duration) else none

structure Window where
  points : ℕ
  until_ : ℕ

/-- What every key has spent, and when expired keys were last dropped. -/
structure Counts where
  windows : List (Str × Window)
  swept : ℕ
  full : Bool

/-- What a budget looked like after a request was counted against it. -/
structure Reading where
  limit : ℕ
  window : ℕ
  spent : ℕ
  remaining : ℕ
  resetsIn : ℕ
  exceeded : Bool
deriving DecidableEq

structure Call where
  key : Str
  points : ℕ
  now : ℕ

/-- Drops what has run out, a window after it was last done. -/
def Counts.sweep (window : ℕ) (counts : Counts) (now : ℕ) : Counts :=
  if window ≤ now - counts.swept then
    ⟨counts.windows.filter fun entry => now < entry.2.until_, now, false⟩
  else counts

def Counts.find (counts : Counts) (key : Str) : Option Window :=
  (Table.find Prod.fst key counts.windows).map Prod.snd

structure Limiter where
  points : ℕ
  window : ℕ

namespace Limiter

/-- A budget nobody has spent anything of. -/
def new (opened : ℕ) : Counts := ⟨[], opened, false⟩

/-- The window a call counts against: the one that is open, or a new one. -/
def current (limiter : Limiter) (held : Option Window) (now : ℕ) : Option Window :=
  match held with
  | none => (add now limiter.window).map (⟨0, ·⟩)
  | some window =>
    if window.until_ ≤ now then (add now limiter.window).map (⟨0, ·⟩) else some window

/-- Whether the table has no room for a key it does not hold. -/
def Refuses (counts : Counts) (key : Str) : Prop :=
  maxKeys ≤ counts.windows.length ∧ counts.find key = none

instance (counts : Counts) (key : Str) : Decidable (Refuses counts key) :=
  decidable_of_iff (maxKeys ≤ counts.windows.length ∧ (counts.find key).isNone = true)
    (and_congr_right fun _ => Option.isNone_iff_eq_none)

def reading (limiter : Limiter) (window : Window) (now : ℕ) : Reading :=
  ⟨limiter.points, limiter.window, window.points, limiter.points - window.points,
    window.until_ - now, limiter.points < window.points⟩

/-- Counts points against a key, whether or not the budget covers them. -/
def consume (limiter : Limiter) (counts : Counts) (call : Call) : Option (Reading × Counts) :=
  let counts := counts.sweep limiter.window call.now
  if Refuses counts call.key then
    some (⟨limiter.points, limiter.window, 0, limiter.points, limiter.window, false⟩,
      { counts with full := true })
  else do
    let window ← limiter.current (counts.find call.key) call.now
    let window := { window with points := min (window.points + call.points) maxU32 }
    return (limiter.reading window call.now,
      { counts with
        windows := Table.upsert Prod.fst (call.key, window) (fun entry => (entry.1, window))
          counts.windows })

/-- One call of a run: the table it finds, what it answers and the table it leaves. -/
structure Step where
  before : Counts
  call : Call
  reading : Reading
  after : Counts

/-- A run of calls, one after another. -/
def run (limiter : Limiter) : Counts → List Call → Option (List Step)
  | _, [] => some []
  | counts, call :: rest => do
    let (reading, after) ← limiter.consume counts call
    let steps ← limiter.run after rest
    return ⟨counts, call, reading, after⟩ :: steps

/-- Whether a call was turned away uncounted. -/
def Step.Refused (limiter : Limiter) (step : Step) : Prop :=
  Refuses (step.before.sweep limiter.window step.call.now) step.call.key

instance (limiter : Limiter) (step : Step) : Decidable (step.Refused limiter) :=
  inferInstanceAs (Decidable (Refuses _ _))

/-- When the window a call was counted against runs out. -/
def Step.until_ (step : Step) : ℕ := step.call.now + step.reading.resetsIn

/-- The points of the calls that a key got through one of its windows. -/
def granted (limiter : Limiter) (steps : List Step) (key : Str) (until_ : ℕ) : ℕ :=
  ((steps.filter fun step => step.call.key = key ∧ ¬step.Refused limiter ∧ step.until_ = until_ ∧
    step.reading.exceeded = false).map fun step => step.call.points).sum

/-- The readings the calls of one key got. -/
def readingsOf (steps : List Step) (key : Str) : List Reading :=
  (steps.filter fun step => step.call.key = key).map Step.reading

/-! ## One call -/

variable {limiter : Limiter} {counts after : Counts} {call : Call} {reading : Reading}
  {key other : Str} {t now : ℕ}

abbrev Keyed (counts : Counts) : Prop := Table.Keyed Prod.fst counts.windows

theorem find_sweep (hk : Keyed counts) (window now : ℕ) (key : Str) :
    (counts.sweep window now).find key = counts.find key ∨
      (counts.sweep window now).find key = (counts.find key).filter fun w => now < w.until_ := by
  unfold Counts.sweep
  split_ifs with hdue
  · right
    rw [Counts.find, hk.find_filter, Counts.find]
    cases Table.find Prod.fst key counts.windows with
    | none => rfl
    | some entry =>
      simp only [Option.filter_some, Option.map_some]
      split_ifs <;> rfl
  · exact Or.inl rfl

theorem keyed_sweep (hk : Keyed counts) (window now : ℕ) : Keyed (counts.sweep window now) := by
  unfold Counts.sweep
  split_ifs
  · exact hk.filter Prod.fst _
  · exact hk

theorem length_sweep (counts : Counts) (window now : ℕ) :
    (counts.sweep window now).windows.length ≤ counts.windows.length := by
  unfold Counts.sweep
  split_ifs
  · exact List.length_filter_le _ _
  · exact le_rfl

theorem swept_sweep (window : ℕ) (h : counts.swept ≤ now) :
    (counts.sweep window now).swept ≤ now := by
  unfold Counts.sweep
  split_ifs
  · exact le_rfl
  · exact h

/-- The window a call counts against, where there is an instant for a new one to end at. -/
def renewed (limiter : Limiter) (held : Option Window) (now : ℕ) : Window :=
  ((held.filter fun w => now < w.until_).getD ⟨0, now + limiter.window⟩)

theorem current_eq (held : Option Window) (h : now + limiter.window ≤ lastInstant) :
    limiter.current held now = some (limiter.renewed held now) := by
  cases held with
  | none => simp [current, renewed, add, h]
  | some w =>
    by_cases hw : w.until_ ≤ now
    · simp [current, renewed, add, h, hw, Option.filter_some, not_lt.mpr hw]
    · simp [current, renewed, hw, Option.filter_some, not_le.mp hw]

/-- Sweeping is not seen by the keys it is swept for. -/
theorem renewed_sweep (hk : Keyed counts) (window now : ℕ) (key : Str) :
    limiter.renewed ((counts.sweep window now).find key) now =
      limiter.renewed (counts.find key) now := by
  rcases find_sweep hk window now key with h | h
  · rw [h]
  · rw [h, renewed, renewed, Option.filter_filter]
    simp

/-- What a call leaves its key having spent. -/
def charged (limiter : Limiter) (counts : Counts) (call : Call) : Window :=
  let window := limiter.renewed (counts.find call.key) call.now
  { window with points := min (window.points + call.points) maxU32 }

theorem consume_refused (h : Refuses (counts.sweep limiter.window call.now) call.key) :
    limiter.consume counts call =
      some (⟨limiter.points, limiter.window, 0, limiter.points, limiter.window, false⟩,
        { counts.sweep limiter.window call.now with full := true }) := by
  simp only [consume, if_pos h]

theorem consume_counted (hk : Keyed counts) (hrep : call.now + limiter.window ≤ lastInstant)
    (h : ¬Refuses (counts.sweep limiter.window call.now) call.key) :
    limiter.consume counts call = some (limiter.reading (limiter.charged counts call) call.now,
      { counts.sweep limiter.window call.now with
        windows := Table.upsert Prod.fst (call.key, limiter.charged counts call)
          (fun entry => (entry.1, limiter.charged counts call))
          (counts.sweep limiter.window call.now).windows }) := by
  simp only [consume, if_neg h, current_eq _ hrep, renewed_sweep hk]
  rfl

theorem consume_ok (hk : Keyed counts) (hrep : call.now + limiter.window ≤ lastInstant) :
    ∃ reading after, limiter.consume counts call = some (reading, after) := by
  by_cases h : Refuses (counts.sweep limiter.window call.now) call.key
  · exact ⟨_, _, consume_refused h⟩
  · exact ⟨_, _, consume_counted hk hrep h⟩

theorem find_counted (key : Str) (window : Window) (rows : List (Str × Window)) (other : Str) :
    (Table.find Prod.fst other (Table.upsert Prod.fst (key, window) (fun entry => (entry.1, window))
      rows)).map Prod.snd = if key = other then some window else
        (Table.find Prod.fst other rows).map Prod.snd := by
  have hfind : Table.find Prod.fst other (Table.upsert Prod.fst (key, window)
      (fun entry => (entry.1, window)) rows) = if key = other then
        some (((Table.find Prod.fst other rows).map fun entry => (entry.1, window)).getD (key, window))
      else Table.find Prod.fst other rows := Table.find_upsert fun _ => rfl
  rw [hfind]
  split_ifs
  · cases Table.find Prod.fst other rows <;> rfl
  · rfl

/-- One call, seen from the table: the keys it counts stay apart. -/
structure Counted (limiter : Limiter) (counts : Counts) (call : Call) (after : Counts) : Prop where
  keyed : Keyed after
  length : after.windows.length ≤ max counts.windows.length maxKeys
  swept : after.swept = (counts.sweep limiter.window call.now).swept
  others : ∀ key ≠ call.key, after.find key = (counts.sweep limiter.window call.now).find key

theorem counted_consume (hk : Keyed counts) (hrep : call.now + limiter.window ≤ lastInstant)
    (h : limiter.consume counts call = some (reading, after)) : Counted limiter counts call after := by
  have hkeyed := keyed_sweep hk limiter.window call.now
  have hlen := length_sweep counts limiter.window call.now
  by_cases hr : Refuses (counts.sweep limiter.window call.now) call.key
  · rw [consume_refused hr] at h
    cases h
    exact ⟨hkeyed, le_trans hlen (le_max_left _ _), rfl, fun _ _ => rfl⟩
  · rw [consume_counted hk hrep hr] at h
    cases h
    refine ⟨hkeyed.upsert fun _ => rfl, ?_, rfl, fun key hne => ?_⟩
    · rw [Table.length_upsert]
      split_ifs with hfind
      · exact le_trans hlen (le_max_left _ _)
      · have hroom : (counts.sweep limiter.window call.now).windows.length < maxKeys := by
          refine not_le.mp fun hfull => hr ⟨hfull, ?_⟩
          rw [Counts.find, Option.map_eq_none_iff]
          simpa using hfind
        exact le_trans hroom (le_max_right _ _)
    · rw [Counts.find, find_counted, if_neg (Ne.symm hne), Counts.find]

theorem find_consume (hk : Keyed counts) (hrep : call.now + limiter.window ≤ lastInstant)
    (hr : ¬Refuses (counts.sweep limiter.window call.now) call.key)
    (h : limiter.consume counts call = some (reading, after)) :
    after.find call.key = some (limiter.charged counts call) ∧
      reading = limiter.reading (limiter.charged counts call) call.now := by
  rw [consume_counted hk hrep hr] at h
  cases h
  refine ⟨?_, rfl⟩
  rw [Counts.find, find_counted, if_pos rfl]

/-! ## Whole runs -/

variable {calls : List Call} {past steps : List Step}

/-- What holds at an instant of a run, after the calls of `past`. -/
structure Sound (limiter : Limiter) (past : List Step) (counts : Counts) (t : ℕ) : Prop where
  keyed : Keyed counts
  length : counts.windows.length ≤ maxKeys
  swept : counts.swept ≤ t
  capped : ∀ key w, counts.find key = some w → w.points ≤ maxU32
  /-- A window that has not run out is in the table. -/
  standing : ∀ step ∈ past, ¬step.Refused limiter → t < step.until_ →
    ∃ w, counts.find step.call.key = some w ∧ w.until_ = step.until_
  spent : ∀ key w, counts.find key = some w → limiter.granted past key w.until_ ≤ w.points
  granted : ∀ key until_, limiter.granted past key until_ ≤ limiter.points

theorem sound_new (limiter : Limiter) (opened : ℕ) : Sound limiter [] (new opened) opened :=
  ⟨Table.keyed_nil _, Nat.zero_le _, le_rfl, by simp [new, Counts.find], by simp,
    by simp [new, Counts.find], by simp [Limiter.granted]⟩

theorem granted_concat (step : Step) (key : Str) (until_ : ℕ) :
    limiter.granted (past ++ [step]) key until_ = limiter.granted past key until_ +
      if step.call.key = key ∧ ¬step.Refused limiter ∧ step.until_ = until_ ∧
        step.reading.exceeded = false then step.call.points else 0 := by
  unfold Limiter.granted
  rw [List.filter_append, List.map_append, List.sum_append, List.filter_cons, List.filter_nil]
  congr 1
  by_cases h : step.call.key = key ∧ ¬step.Refused limiter ∧ step.until_ = until_ ∧
    step.reading.exceeded = false
  · rw [if_pos h, if_pos (decide_eq_true h), List.map_singleton, List.sum_singleton]
  · rw [if_neg h, if_neg (by simpa using h), List.map_nil, List.sum_nil]

theorem find_of_sweep (hk : Keyed counts) {w : Window}
    (h : (counts.sweep limiter.window now).find key = some w) : counts.find key = some w := by
  rcases find_sweep hk limiter.window now key with hs | hs
  · rwa [hs] at h
  · rw [hs] at h
    exact (Option.filter_eq_some_iff.mp h).1

theorem find_sweep_of_open (hk : Keyed counts) {w : Window} (h : counts.find key = some w)
    (hw : now < w.until_) : (counts.sweep limiter.window now).find key = some w := by
  rcases find_sweep hk limiter.window now key with hs | hs
  · rw [hs, h]
  · rw [hs, h, Option.filter_some]
    simp [hw]

/-- A window is either still open or opened now, and nothing has been got through one opened now. -/
theorem Sound.granted_renewed (h : Sound limiter past counts t) (ht : t ≤ call.now)
    (hw : 0 < limiter.window) :
    limiter.granted past call.key (limiter.renewed (counts.find call.key) call.now).until_ ≤
        (limiter.renewed (counts.find call.key) call.now).points ∧
      (limiter.renewed (counts.find call.key) call.now).points ≤ maxU32 ∧
      call.now < (limiter.renewed (counts.find call.key) call.now).until_ := by
  unfold renewed
  cases hopen : (counts.find call.key).filter fun w => call.now < w.until_ with
  | some w =>
    obtain ⟨hfind, hlt⟩ := Option.filter_eq_some_iff.mp hopen
    exact ⟨h.spent _ w hfind, h.capped _ w hfind, by simpa using hlt⟩
  | none =>
    simp only [Option.getD_none]
    refine ⟨?_, Nat.zero_le _, by omega⟩
    rw [Limiter.granted, List.filter_eq_nil_iff.mpr, List.map_nil, List.sum_nil]
    intro step hs hstep
    rw [decide_eq_true_eq] at hstep
    obtain ⟨hkey, hcounted, huntil, -⟩ := hstep
    obtain ⟨w, hfind, hwu⟩ := h.standing step hs hcounted (by omega)
    rw [hkey] at hfind
    have hsome : (counts.find call.key).filter (fun w => call.now < w.until_) = some w := by
      rw [hfind, Option.filter_some, if_pos (decide_eq_true (by omega))]
    rw [hopen] at hsome
    cases hsome

theorem Sound.consume (h : Sound limiter past counts t) (ht : t ≤ call.now)
    (hl : limiter.points < maxU32) (hw : 0 < limiter.window)
    (hrep : call.now + limiter.window ≤ lastInstant)
    (hc : limiter.consume counts call = some (reading, after)) :
    Sound limiter (past ++ [⟨counts, call, reading, after⟩]) after call.now := by
  have hcounted := counted_consume h.keyed hrep hc
  have hlen := hcounted.length
  rw [max_eq_right h.length] at hlen
  have hswept : after.swept ≤ call.now := by
    rw [hcounted.swept]
    exact swept_sweep _ (h.swept.trans ht)
  by_cases hr : Refuses (counts.sweep limiter.window call.now) call.key
  · have hfind : ∀ key, after.find key = (counts.sweep limiter.window call.now).find key := by
      rw [consume_refused hr] at hc
      cases hc
      exact fun _ => rfl
    have hgranted : ∀ key until_,
        limiter.granted (past ++ [⟨counts, call, reading, after⟩]) key until_ =
          limiter.granted past key until_ := by
      intro key until_
      rw [granted_concat, if_neg, Nat.add_zero]
      exact fun hs => hs.2.1 hr
    refine ⟨hcounted.keyed, hlen, hswept, fun key w hfw => ?_, fun step hs hnr hlt => ?_,
      fun key w hfw => ?_, fun key until_ => ?_⟩
    · rw [hfind] at hfw
      exact h.capped key w (find_of_sweep h.keyed hfw)
    · rcases List.mem_append.mp hs with hs | hs
      · obtain ⟨w, hfw, hwu⟩ := h.standing step hs hnr (by omega)
        exact ⟨w, by rw [hfind, find_sweep_of_open h.keyed hfw (by omega)], hwu⟩
      · rw [List.mem_singleton.mp hs] at hnr
        exact absurd hr hnr
    · rw [hfind] at hfw
      rw [hgranted]
      exact h.spent key w (find_of_sweep h.keyed hfw)
    · rw [hgranted]
      exact h.granted key until_
  · obtain ⟨hfind, rfl⟩ := find_consume h.keyed hrep hr hc
    obtain ⟨hspent, hcap, hopen⟩ := h.granted_renewed ht hw
    have huntil : call.now + ((limiter.charged counts call).until_ - call.now) =
        (limiter.charged counts call).until_ := Nat.add_sub_cancel' hopen.le
    have hothers : ∀ key ≠ call.key, ∀ w, after.find key = some w → counts.find key = some w := by
      intro key hne w hfw
      rw [hcounted.others key hne] at hfw
      exact find_of_sweep h.keyed hfw
    -- What this call adds to what got through its window, which its window has been charged for.
    have hthis : limiter.granted (past ++ [⟨counts, call,
        limiter.reading (limiter.charged counts call) call.now, after⟩]) call.key
          (limiter.charged counts call).until_ ≤
        min (limiter.charged counts call).points limiter.points := by
      have hpast := h.granted call.key (limiter.charged counts call).until_
      have hpoints : (limiter.charged counts call).points =
        min ((limiter.renewed (counts.find call.key) call.now).points + call.points) maxU32 := rfl
      have hsame : (limiter.charged counts call).until_ =
        (limiter.renewed (counts.find call.key) call.now).until_ := rfl
      rw [← hsame] at hspent
      rw [granted_concat, Nat.le_min]
      split_ifs with hs
      · have hexceeded : (limiter.charged counts call).points ≤ limiter.points := by
          simpa [Limiter.reading] using hs.2.2.2
        dsimp only
        omega
      · omega
    refine ⟨hcounted.keyed, hlen, hswept, fun key w hfw => ?_, fun step hs hnr hlt => ?_,
      fun key w hfw => ?_, fun key until_ => ?_⟩
    · by_cases hkey : key = call.key
      · rw [hkey, hfind] at hfw
        cases hfw
        exact min_le_right _ _
      · exact h.capped key w (hothers key hkey w hfw)
    · rcases List.mem_append.mp hs with hs | hs
      · obtain ⟨w, hfw, hwu⟩ := h.standing step hs hnr (by omega)
        by_cases hkey : step.call.key = call.key
        · rw [hkey] at hfw ⊢
          refine ⟨_, hfind, ?_⟩
          have hsome : (counts.find call.key).filter (fun w => call.now < w.until_) = some w := by
            rw [hfw, Option.filter_some, if_pos (decide_eq_true (by omega))]
          simp only [charged, renewed, hsome, Option.getD_some]
          exact hwu
        · exact ⟨w, by rw [hcounted.others _ hkey, find_sweep_of_open h.keyed hfw (by omega)], hwu⟩
      · rw [List.mem_singleton.mp hs]
        exact ⟨_, hfind, huntil.symm⟩
    · by_cases hkey : key = call.key
      · rw [hkey, hfind] at hfw
        cases hfw
        rw [hkey]
        exact hthis.trans (min_le_left _ _)
      · rw [granted_concat, if_neg fun hs => hkey hs.1.symm, Nat.add_zero]
        exact h.spent key w (hothers key hkey w hfw)
    · by_cases hkey : key = call.key ∧ until_ = (limiter.charged counts call).until_
      · rw [hkey.1, hkey.2]
        exact hthis.trans (min_le_right _ _)
      · rw [granted_concat, if_neg, Nat.add_zero]
        · exact h.granted key until_
        · rintro ⟨hk, -, hu, -⟩
          exact hkey ⟨hk.symm, hu.symm.trans huntil⟩

/-- What every call of a run comes to: the table stays within its bound, what is left of the budget
is what has not been spent of it, and every duration is from an instant to a later one. -/
structure Step.Fine (limiter : Limiter) (step : Step) : Prop where
  length : step.after.windows.length ≤ maxKeys
  remaining : step.reading.exceeded = false →
    step.reading.spent + step.reading.remaining = step.reading.limit
  limit : step.reading.limit = limiter.points
  swept : step.before.swept ≤ step.call.now
  spent : step.reading.spent ≤ maxU32
  until_ : ¬step.Refused limiter → ∃ w, step.after.find step.call.key = some w ∧
    step.call.now < w.until_ ∧ step.reading.resetsIn = w.until_ - step.call.now

theorem Sound.fine (h : Sound limiter past counts t) (ht : t ≤ call.now)
    (hl : limiter.points < maxU32) (hw : 0 < limiter.window)
    (hrep : call.now + limiter.window ≤ lastInstant)
    (hc : limiter.consume counts call = some (reading, after)) :
    Step.Fine limiter ⟨counts, call, reading, after⟩ := by
  have hafter := (h.consume ht hl hw hrep hc).length
  by_cases hr : Refuses (counts.sweep limiter.window call.now) call.key
  · rw [consume_refused hr] at hc
    cases hc
    exact ⟨hafter, fun _ => Nat.zero_add _, rfl, h.swept.trans ht, Nat.zero_le _, fun hn => absurd hr hn⟩
  · obtain ⟨hfind, rfl⟩ := find_consume h.keyed hrep hr hc
    refine ⟨hafter, fun hexc => ?_, rfl, h.swept.trans ht, min_le_right _ _, fun _ => ?_⟩
    · have hle : (limiter.charged counts call).points ≤ limiter.points := by
        simpa [Limiter.reading] using hexc
      exact Nat.add_sub_cancel' hle
    · exact ⟨_, hfind, (h.granted_renewed ht hw).2.2, rfl⟩

theorem Sound.run (h : Sound limiter past counts t) (hl : limiter.points < maxU32)
    (hw : 0 < limiter.window) (hsorted : calls.Pairwise fun a b => a.now ≤ b.now)
    (ht : ∀ call ∈ calls, t ≤ call.now)
    (hrep : ∀ call ∈ calls, call.now + limiter.window ≤ lastInstant) :
    ∃ steps, limiter.run counts calls = some steps ∧ (∀ step ∈ steps, step.Fine limiter) ∧
      ∀ key until_, limiter.granted (past ++ steps) key until_ ≤ limiter.points := by
  induction calls generalizing past counts t with
  | nil => exact ⟨[], rfl, by simp, by simpa using h.granted⟩
  | cons call rest ih =>
    obtain ⟨hfirst, hrest⟩ := List.pairwise_cons.mp hsorted
    have htc := ht call List.mem_cons_self
    have hrc := hrep call List.mem_cons_self
    obtain ⟨reading, after, hc⟩ := consume_ok h.keyed hrc
    obtain ⟨steps, hrun, hfine, hgranted⟩ := ih (h.consume htc hl hw hrc hc) hrest hfirst
      fun c hm => hrep c (List.mem_cons_of_mem call hm)
    refine ⟨⟨counts, call, reading, after⟩ :: steps, ?_, ?_, ?_⟩
    · simp only [Limiter.run, hc, hrun, Option.bind_eq_bind, Option.bind_some]
      rfl
    · intro step hs
      rcases List.mem_cons.mp hs with rfl | hs
      · exact h.fine htc hl hw hrc hc
      · exact hfine step hs
    · simpa using hgranted

/-! ## A key by itself -/

/-- Two tables have the same window open for a key, if any. -/
def Alike (key : Str) (t : ℕ) (counts others : Counts) : Prop :=
  (counts.find key).filter (fun w => t < w.until_) = (others.find key).filter fun w => t < w.until_

variable {counts' : Counts}

theorem filter_later (held : Option Window) (h : t ≤ now) :
    (held.filter fun w => t < w.until_).filter (fun w => now < w.until_) =
      held.filter fun w => now < w.until_ := by
  rw [Option.filter_filter]
  congr 1
  funext w
  by_cases hw : now < w.until_
  · simp [hw, lt_of_le_of_lt h hw]
  · simp [hw]

theorem Alike.later (h : Alike key t counts counts') (ht : t ≤ now) :
    Alike key now counts counts' := by
  unfold Alike at h ⊢
  rw [← filter_later (counts.find key) ht, h, filter_later _ ht]

/-- What other keys spend is not seen. -/
theorem Alike.others (h : Alike key call.now counts counts') (hk : Keyed counts)
    (hc : Counted limiter counts call after) (hne : key ≠ call.key) :
    Alike key call.now after counts' := by
  unfold Alike at h ⊢
  rw [hc.others key hne, ← h]
  rcases find_sweep hk limiter.window call.now key with hs | hs
  · rw [hs]
  · rw [hs, Option.filter_filter]
    simp

theorem charged_eq_of_alike (h : Alike call.key call.now counts counts') :
    limiter.charged counts call = limiter.charged counts' call := by
  unfold Alike at h
  simp only [charged, renewed, h]

/-- A table with no key in it but one. -/
def Only (key : Str) (counts : Counts) : Prop := ∀ entry ∈ counts.windows, entry.1 = key

theorem Only.not_refuses (h : Only key counts) (hk : Keyed counts) (window now : ℕ) (other : Str) :
    ¬Refuses (counts.sweep window now) other := by
  rintro ⟨hfull, -⟩
  have hlen := length_sweep counts window now
  have hone : counts.windows.length ≤ 1 := by
    have hall : counts.windows.map Prod.fst = List.replicate counts.windows.length key :=
      List.eq_replicate_iff.mpr ⟨by simp, by simpa using fun a w hm => h (a, w) hm⟩
    have hnodup : (counts.windows.map Prod.fst).Nodup := hk
    rw [hall] at hnodup
    exact List.nodup_replicate.mp hnodup
  have hmax : maxKeys = 100000 := rfl
  omega

theorem Only.sweep (h : Only key counts) (window now : ℕ) : Only key (counts.sweep window now) := by
  unfold Counts.sweep
  split_ifs
  · exact fun entry hm => h entry (List.mem_filter.mp hm).1
  · exact h

theorem Only.consume (h : Only call.key counts) (hk : Keyed counts)
    (hrep : call.now + limiter.window ≤ lastInstant)
    (hc : limiter.consume counts call = some (reading, after)) : Only call.key after := by
  rw [consume_counted hk hrep (h.not_refuses hk _ _ _)] at hc
  cases hc
  have hs := h.sweep limiter.window call.now
  intro entry hm
  simp only [Table.upsert] at hm
  split_ifs at hm
  · obtain ⟨e, he, rfl⟩ := List.mem_map.mp hm
    split_ifs
    · exact hs e he
    · exact hs e he
  · rcases List.mem_append.mp hm with hm | hm
    · exact hs entry hm
    · rw [List.mem_singleton.mp hm]

/-- A run in which nobody is turned away reads, for each key, as a run of that key's calls alone. -/
theorem run_isolated (hk : Keyed counts) (hk' : Keyed counts') (hone : Only key counts')
    (hal : Alike key t counts counts') (hsorted : calls.Pairwise fun a b => a.now ≤ b.now)
    (ht : ∀ call ∈ calls, t ≤ call.now)
    (hrep : ∀ call ∈ calls, call.now + limiter.window ≤ lastInstant)
    (hrun : limiter.run counts calls = some steps) (hnr : ∀ step ∈ steps, ¬step.Refused limiter) :
    ∃ alone, limiter.run counts' (calls.filter fun call => call.key = key) = some alone ∧
      readingsOf steps key = alone.map Step.reading := by
  induction calls generalizing counts counts' t steps with
  | nil =>
    cases hrun
    exact ⟨[], rfl, rfl⟩
  | cons call rest ih =>
    obtain ⟨hfirst, hrest⟩ := List.pairwise_cons.mp hsorted
    have hrc := hrep call List.mem_cons_self
    obtain ⟨reading, after, hc⟩ := consume_ok hk hrc
    simp only [Limiter.run, hc, Option.bind_eq_bind, Option.bind_some] at hrun
    obtain ⟨others, hothers, hcons⟩ := Option.bind_eq_some_iff.mp hrun
    cases hcons
    have hcounted := counted_consume hk hrc hc
    have hlater := hal.later (ht call List.mem_cons_self)
    have hrep' : ∀ c ∈ rest, c.now + limiter.window ≤ lastInstant :=
      fun c hm => hrep c (List.mem_cons_of_mem call hm)
    have hnr' : ∀ step ∈ others, ¬step.Refused limiter :=
      fun step hs => hnr step (List.mem_cons_of_mem _ hs)
    by_cases hkey : call.key = key
    · subst hkey
      obtain ⟨reading', after', hc'⟩ := consume_ok hk' hrc
      obtain ⟨hfind, hread⟩ := find_consume hk hrc (hnr _ List.mem_cons_self) hc
      obtain ⟨hfind', hread'⟩ := find_consume hk' hrc (hone.not_refuses hk' _ _ _) hc'
      have hcharged : limiter.charged counts call = limiter.charged counts' call :=
        charged_eq_of_alike hlater
      have hsame : Alike call.key call.now after after' := by
        rw [Alike, hfind, hfind', hcharged]
      obtain ⟨alone, halone, hreads⟩ := ih hcounted.keyed (counted_consume hk' hrc hc').keyed
        (hone.consume hk' hrc hc') hsame hrest hfirst hrep' hothers hnr'
      refine ⟨⟨counts', call, reading', after'⟩ :: alone, ?_, ?_⟩
      · rw [List.filter_cons_of_pos (by simp), Limiter.run]
        simp only [hc', halone, Option.bind_eq_bind, Option.bind_some]
        rfl
      · rw [readingsOf, List.filter_cons_of_pos (by simp), List.map_cons, List.map_cons, ← hreads,
          hread, hread', hcharged]
        rfl
    · obtain ⟨alone, halone, hreads⟩ := ih hcounted.keyed hk' hone
        (hlater.others hk hcounted (Ne.symm hkey)) hrest hfirst hrep' hothers hnr'
      refine ⟨alone, ?_, ?_⟩
      · rw [List.filter_cons_of_neg (by simpa using hkey), halone]
      · rw [readingsOf, List.filter_cons_of_neg (by simpa using hkey)]
        exact hreads

/-- A budget counts each key by itself, in a bounded table, and lets no more of it through a window
than it holds, as long as there is an instant for every window to end at. -/
theorem budget_counts_each_key (limiter : Limiter) (opened : ℕ) (calls : List Call)
    (hl : limiter.points < maxU32) (hw : 0 < limiter.window)
    (hsorted : calls.Pairwise fun a b => a.now ≤ b.now) (hopened : ∀ call ∈ calls, opened ≤ call.now)
    (hrep : ∀ call ∈ calls, call.now + limiter.window ≤ lastInstant) :
    ∃ steps, limiter.run (new opened) calls = some steps ∧ (∀ step ∈ steps, step.Fine limiter) ∧
      (∀ key until_, limiter.granted steps key until_ ≤ limiter.points) ∧
      ((∀ step ∈ steps, ¬step.Refused limiter) → ∀ key, ∃ alone,
        limiter.run (new opened) (calls.filter fun call => call.key = key) = some alone ∧
          readingsOf steps key = alone.map Step.reading) := by
  obtain ⟨steps, hrun, hfine, hgranted⟩ :=
    (sound_new limiter opened).run hl hw hsorted hopened hrep
  refine ⟨steps, hrun, hfine, hgranted, fun hnr key => ?_⟩
  have hk : Keyed (new opened) := Table.keyed_nil _
  have hone : Only key (new opened) := by simp [Only, new]
  exact run_isolated hk hk hone rfl hsorted hopened hrep hrun hnr

/-- Two keys, one of which comes back. -/
def sampleCalls : List Call := [⟨text "a", 1, 5⟩, ⟨text "b", 2, 6⟩, ⟨text "a", 1, 7⟩]

theorem budget_counts_sampleCalls : ∃ steps,
    (⟨1, 300⟩ : Limiter).run (new 5) sampleCalls = some steps ∧
      ∀ key until_, (⟨1, 300⟩ : Limiter).granted steps key until_ ≤ 1 := by
  have hrep : ∀ call ∈ sampleCalls, call.now + 300 ≤ lastInstant := by
    simp [sampleCalls, lastInstant]
  obtain ⟨steps, hrun, -, hgranted, -⟩ := budget_counts_each_key ⟨1, 300⟩ 5 sampleCalls
    (by simp [maxU32]) (by simp) (by simp [sampleCalls]) (by simp [sampleCalls]) hrep
  exact ⟨steps, hrun, hgranted⟩

/-- A window too long for its end to be an instant is a panic at the first call. -/
theorem budget_of_maxDuration : ∃ limiter : Limiter, limiter.points < maxU32 ∧ 0 < limiter.window ∧
    limiter.window ≤ maxDuration ∧ limiter.run (new 0) [⟨text "a", 1, 0⟩] = none := by
  refine ⟨⟨1, maxDuration⟩, by simp [maxU32], by simp [maxDuration], le_rfl, ?_⟩
  have hadd : add 0 maxDuration = none := by simp [add, maxDuration, lastInstant]
  have hsweep : (new 0).sweep maxDuration 0 = new 0 := by
    simp [Counts.sweep, maxDuration]
  have hnr : ¬Refuses (new 0) (text "a") := by simp [Refuses, new, maxKeys]
  have hcurrent : current ⟨1, maxDuration⟩ ((new 0).find (text "a")) 0 = none := by
    simp [current, new, Counts.find, hadd]
  have hconsume : consume ⟨1, maxDuration⟩ (new 0) ⟨text "a", 1, 0⟩ = none := by
    simp only [consume, hsweep, if_neg hnr, hcurrent, Option.bind_eq_bind, Option.bind_none]
  rw [run, hconsume]
  rfl

end Limiter

end Limit

end Manapds
