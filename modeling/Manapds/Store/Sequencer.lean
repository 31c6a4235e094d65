import Manapds.Lib.Feed
import Manapds.Store.Stamp
import Manapds.Syntax.Identifier

/-!
# The event log

What happened to which repository, in the order a consumer is told about it. An entry is numbered
as it is written, entries that describe one thing are written together or not at all, and a
consumer goes on from the number of the last entry it was handed.
-/

namespace Manapds

namespace Sequencer

/-- What kind of thing an entry records. -/
inductive Event where
  | append
  | sync
  | identity
  | account
deriving DecidableEq

namespace Event

/-- The string the column holds. -/
def asStr : Event → Str
  | append => text "append"
  | sync => text "sync"
  | identity => text "identity"
  | account => text "account"

def parse (value : Str) : Option Event :=
  if value = text "append" then some append
  else if value = text "sync" then some sync
  else if value = text "identity" then some identity
  else if value = text "account" then some account
  else none

theorem parse_asStr (event : Event) : parse event.asStr = some event := by
  cases event <;> decide

end Event

/-- A row of `repo_seq`. -/
structure Row where
  seq : ℤ
  did : Str
  eventType : Str
  event : Bytes
  invalidated : ℤ
  sequencedAt : ℕ

/-- One entry, as a consumer is handed it. -/
structure Entry where
  seq : ℤ
  did : Did
  event : Event
  body : Bytes
  sequencedAt : ℕ

inductive Error where
  | sqlite
  | malformed (what : String)

def Row.entry (row : Row) : Except Error Entry := do
  let did ← (Did.parse row.did).mapError fun _ => .malformed "a logged DID that is not one"
  match Event.parse row.eventType with
  | none => .error (.malformed "an event type nothing writes")
  | some event => .ok ⟨row.seq, did, event, row.event, row.sequencedAt⟩

/-- The largest number a row can have. -/
def lastSeq : ℤ := 2 ^ 63 - 1

end Sequencer

/-- The rows, and the largest number one has ever had. -/
structure Sequencer where
  rows : List Sequencer.Row
  sequence : ℤ

namespace Sequencer

/-- Inserts a row under the number after the largest there has been. -/
def insert (did : Did) (event : Event) (body : Bytes) (now : ℕ) (log : Sequencer) :
    Except Error (ℤ × Sequencer) :=
  if lastSeq ≤ log.sequence then .error .sqlite
  else .ok (log.sequence + 1, {
    rows := log.rows ++ [⟨log.sequence + 1, did.str, event.asStr, body, 0, now⟩]
    sequence := log.sequence + 1 })

/-- Appends an event and hands back the number it was sequenced under. -/
def append (did : Did) (event : Event) (body : Bytes) (now : Timestamp) (log : Sequencer) :
    Except Error (ℤ × Sequencer) := log.insert did event body (stamp now)

/-- One insert after another, as far as the first that fails. -/
def insertAll (did : Did) (now : ℕ) : List (Event × Bytes) → Sequencer →
    Except Error (List ℤ × Sequencer)
  | [], log => .ok ([], log)
  | (event, body) :: bodies, log => do
    let (number, log) ← log.insert did event body now
    let (numbers, log) ← insertAll did now bodies log
    return (number :: numbers, log)

/-- Appends several entries at once, all of them or none. -/
def extend (did : Did) (bodies : List (Event × Bytes)) (now : Timestamp) (log : Sequencer) :
    Except Error (List ℤ × Sequencer) := insertAll did (stamp now) bodies log

/-- The highest number handed out, or `none` while the log is empty. -/
def latest (log : Sequencer) : Option ℤ := (log.rows.map Row.seq).max?

/-- The rows that were not superseded. -/
def standing (log : Sequencer) : List Row := log.rows.filter fun row => row.invalidated = 0

/-- Entries after a sequence number, oldest first, skipping any that were superseded. -/
def since (seq : ℤ) (limit : ℕ) (log : Sequencer) : Except Error (List Entry) :=
  (Feed.after Row.seq seq limit log.standing).mapM Row.entry

/-! ## A log and those who follow it -/

/-- One who follows the log: the number it started from, the one it goes on from and what it has
been handed. -/
structure Consumer where
  start : ℤ
  seq : ℤ
  handed : List Entry

/-- Asks for what comes next. -/
def Consumer.poll (limit : ℕ) (log : Sequencer) (c : Consumer) : Except Error Consumer := do
  let entries ← log.since c.seq limit
  return ⟨c.start, (entries.getLast?.map Entry.seq).getD c.seq, c.handed ++ entries⟩

/-- Asks so many times. -/
def Consumer.polls (limit : ℕ) (log : Sequencer) : ℕ → Consumer → Except Error Consumer
  | 0, c => .ok c
  | rounds + 1, c => do
    let c ← c.poll limit log
    polls limit log rounds c

/-- A call that wrote to the log, and the numbers it was answered with. -/
structure Call where
  did : Did
  bodies : List (Event × Bytes)
  now : Timestamp
  numbers : List ℤ

def Call.rows (call : Call) : List Row :=
  List.zipWith (fun number body =>
    ⟨number, call.did.str, body.1.asStr, body.2, 0, stamp call.now⟩) call.numbers call.bodies

structure Followed where
  log : Sequencer
  /-- The calls that wrote, the first one first. -/
  calls : List Call
  consumers : ℕ → Consumer

/-- A call that fails leaves everything as it was. -/
inductive Followed.Step (s : Followed) : Followed → Prop where
  | append {did : Did} {event : Event} {body : Bytes} {now : Timestamp} {number : ℤ}
      {log : Sequencer} (h : s.log.append did event body now = .ok (number, log)) :
      Step s { s with log, calls := s.calls ++ [⟨did, [(event, body)], now, [number]⟩] }
  | extend {did : Did} {bodies : List (Event × Bytes)} {now : Timestamp} {numbers : List ℤ}
      {log : Sequencer} (h : s.log.extend did bodies now = .ok (numbers, log)) :
      Step s { s with log, calls := s.calls ++ [⟨did, bodies, now, numbers⟩] }
  | poll {i limit : ℕ} {c : Consumer} (h : (s.consumers i).poll limit s.log = .ok c) :
      Step s { s with consumers := Function.update s.consumers i c }

/-- What calls and consumers make of a log that was opened, in whatever order they come. -/
inductive Followed.Reachable (log : Sequencer) (starts : ℕ → ℤ) : Followed → Prop where
  | opened : Reachable log starts ⟨log, [], fun i => ⟨starts i, starts i, []⟩⟩
  | step {s s' : Followed} : Reachable log starts s → s.Step s' → Reachable log starts s'

/-- What SQLite sees to in a table whose key is `autoincrement`. -/
structure Sound (log : Sequencer) : Prop where
  numbered : Feed.Numbered Row.seq log.rows
  issued : ∀ row ∈ log.rows, row.seq ≤ log.sequence

/-! ## What is written -/

variable {log log' : Sequencer} {did : Did} {event : Event} {body : Bytes} {now number : ℕ}
  {bodies : List (Event × Bytes)} {numbers : List ℤ}

/-- The numbers that come after one. -/
def following (sequence : ℤ) (count : ℕ) : List ℤ :=
  (List.range count).map fun i : ℕ => sequence + 1 + (i : ℤ)

theorem following_succ (sequence : ℤ) (count : ℕ) :
    following sequence (count + 1) = (sequence + 1) :: following (sequence + 1) count := by
  unfold following
  rw [List.range_succ_eq_map, List.map_cons, List.map_map]
  congr 1
  · simp
  · apply List.map_congr_left
    intro i _
    simp only [Function.comp_apply, Nat.succ_eq_add_one, Nat.cast_add, Nat.cast_one]
    omega

theorem insertAll_eq_ok (h : insertAll did now bodies log = .ok (numbers, log')) :
    numbers = following log.sequence bodies.length ∧
    log'.sequence = log.sequence + bodies.length ∧
    log'.rows = log.rows ++ List.zipWith (fun number body =>
      ⟨number, did.str, body.1.asStr, body.2, 0, now⟩) numbers bodies := by
  induction bodies generalizing log numbers with
  | nil =>
    cases h
    simp [following]
  | cons entry bodies ih =>
    obtain ⟨event, body⟩ := entry
    obtain ⟨⟨first, mid⟩, hfirst, h⟩ := bind_ok_iff.mp h
    obtain ⟨⟨rest, last⟩, hrest, h⟩ := bind_ok_iff.mp h
    obtain ⟨rfl, rfl⟩ := Prod.mk.inj (Except.ok.inj h)
    unfold insert at hfirst
    split_ifs at hfirst
    obtain ⟨rfl, rfl⟩ := Prod.mk.inj (Except.ok.inj hfirst)
    obtain ⟨hn, hs, hr⟩ := ih hrest
    refine ⟨?_, ?_, ?_⟩
    · rw [List.length_cons, following_succ, hn]
    · dsimp only at hs
      rw [hs, List.length_cons, Nat.cast_add, Nat.cast_one]
      omega
    · rw [hr, List.zipWith_cons_cons, List.append_assoc, List.singleton_append]

theorem append_eq_ok {number : ℤ} (h : log.append did event body now = .ok (number, log')) :
    log.extend did [(event, body)] now = .ok ([number], log') := by
  unfold append at h
  simp [extend, insertAll, h, bind, Except.bind, pure, Except.pure]

theorem mem_following {sequence n : ℤ} {count : ℕ} :
    n ∈ following sequence count ↔ sequence < n ∧ n ≤ sequence + count := by
  simp only [following, List.mem_map, List.mem_range]
  constructor
  · rintro ⟨i, hi, rfl⟩
    omega
  · intro h
    exact ⟨(n - sequence - 1).toNat, by omega, by omega⟩

theorem following_append (sequence : ℤ) (a b : ℕ) :
    following sequence a ++ following (sequence + a) b = following sequence (a + b) := by
  unfold following
  rw [List.range_add, List.map_append, List.map_map]
  congr 1
  apply List.map_congr_left
  intro i _
  simp only [Function.comp_apply, Nat.cast_add]
  omega

theorem following_pairwise (sequence : ℤ) (count : ℕ) :
    (following sequence count).Pairwise (· < ·) := by
  rw [following, List.pairwise_map]
  apply List.pairwise_lt_range.imp
  intro i j hij
  omega

theorem Call.rows_seq {call : Call} (h : call.numbers.length = call.bodies.length) :
    call.rows.map Row.seq = call.numbers := by
  rw [Call.rows, List.map_zipWith]
  change List.zipWith (fun number _ => number) call.numbers call.bodies = call.numbers
  generalize call.bodies = bodies at h ⊢
  generalize call.numbers = numbers at h ⊢
  induction numbers generalizing bodies with
  | nil => rfl
  | cons number numbers ih =>
    cases bodies with
    | nil => cases h
    | cons body bodies =>
      rw [List.zipWith_cons_cons, ih bodies (Nat.succ.inj h)]

theorem Call.entry_of_mem {call : Call} {row : Row} (h : row ∈ call.rows) :
    row.invalidated = 0 ∧ ∃ entry, row.entry = .ok entry := by
  obtain ⟨i, hi, rfl⟩ := List.mem_iff_getElem.mp h
  have hdid : Did.parse call.did.str = .ok call.did := Did.parse_eq_ok.mpr rfl
  simp [Call.rows, Row.entry, hdid, Event.parse_asStr, Except.mapError, bind, Except.bind]

/-! ## Runs -/

/-- What calls and consumers keep. -/
structure Followed.Whole (log : Sequencer) (starts : ℕ → ℤ) (s : Followed) : Prop where
  rows : s.log.rows = log.rows ++ s.calls.flatMap Call.rows
  sequence : s.log.sequence = log.sequence + (s.calls.flatMap Call.bodies).length
  lengths : ∀ call ∈ s.calls, call.numbers.length = call.bodies.length
  numbers : s.calls.flatMap Call.numbers =
    following log.sequence (s.calls.flatMap Call.bodies).length
  consumers : ∀ i, ∃ got, Feed.Reader.Exact Row.seq s.log.standing
    ⟨starts i, (s.consumers i).seq, got⟩ ∧ got.mapM Row.entry = .ok (s.consumers i).handed ∧
      (s.consumers i).start = starts i

variable {starts : ℕ → ℤ} {s s' : Followed}

theorem Followed.Whole.sound (h : s.Whole log starts) (hlog : log.Sound) : s.log.Sound := by
  have hseq : (s.calls.flatMap Call.rows).map Row.seq =
      following log.sequence (s.calls.flatMap Call.bodies).length := by
    rw [← h.numbers, List.map_flatMap]
    exact List.flatMap_congr fun call hm => Call.rows_seq (h.lengths call hm)
  have hmem : ∀ row ∈ s.calls.flatMap Call.rows,
      log.sequence < row.seq ∧ row.seq ≤ s.log.sequence := by
    intro row hm
    rw [h.sequence, ← mem_following, ← hseq]
    exact List.mem_map_of_mem hm
  constructor
  · rw [h.rows]
    apply hlog.numbered.append
    · have hp := following_pairwise log.sequence (s.calls.flatMap Call.bodies).length
      rw [← hseq] at hp
      exact List.pairwise_map.mp hp
    · intro a ha b hb
      exact (hlog.issued a ha).trans_lt (hmem b hb).1
  · intro row hm
    rw [h.rows] at hm
    rcases List.mem_append.mp hm with hm | hm
    · rw [h.sequence]
      exact (hlog.issued row hm).trans (by omega)
    · exact (hmem row hm).2

theorem standing_append {more : List Row} (hr : log'.rows = log.rows ++ more)
    (hm : ∀ row ∈ more, row.invalidated = 0) : log'.standing = log.standing ++ more := by
  rw [standing, hr, List.filter_append, standing]
  congr 1
  rw [List.filter_eq_self]
  intro row hrow
  simpa using hm row hrow

/-- A call that writes, whichever it is. -/
theorem Followed.Whole.write (h : s.Whole log starts) (hlog : log.Sound)
    (hw : s.log.extend did bodies now = .ok (numbers, log')) :
    Whole log starts { s with log := log', calls := s.calls ++ [⟨did, bodies, now, numbers⟩] } := by
  obtain ⟨hn, hs, hr⟩ := insertAll_eq_ok hw
  change log'.rows = s.log.rows ++ (⟨did, bodies, now, numbers⟩ : Call).rows at hr
  have hsound := h.sound hlog
  have hlength : numbers.length = bodies.length := by
    rw [hn, following, List.length_map, List.length_range]
  constructor
  · dsimp only
    rw [hr, h.rows, List.flatMap_append, List.flatMap_singleton, List.append_assoc]
  · dsimp only
    rw [hs, h.sequence, List.flatMap_append, List.length_append, List.flatMap_singleton,
      Nat.cast_add, add_assoc]
  · intro call hm
    rcases List.mem_append.mp hm with hm | hm
    · exact h.lengths call hm
    · rw [List.mem_singleton.mp hm]
      exact hlength
  · dsimp only
    rw [List.flatMap_append, List.flatMap_append, List.flatMap_singleton, List.flatMap_singleton,
      h.numbers, hn, h.sequence, List.length_append]
    exact following_append _ _ _
  · intro i
    obtain ⟨got, hgot, hentries, hstart⟩ := h.consumers i
    have hrows : ∀ row ∈ (⟨did, bodies, now, numbers⟩ : Call).rows, row.invalidated = 0 :=
      fun row hm => (Call.entry_of_mem hm).1
    refine ⟨got, ?_, hentries, hstart⟩
    dsimp only
    rw [standing_append hr hrows]
    apply hgot.grow
    intro a ha b hb
    have hin := List.mem_map_of_mem (f := Row.seq) hb
    rw [Call.rows_seq (by exact hlength)] at hin
    change b.seq ∈ numbers at hin
    rw [hn, mem_following] at hin
    exact (hsound.issued a (List.mem_of_mem_filter ha)).trans_lt hin.1

theorem entry_seq {row : Row} {entry : Entry} (h : row.entry = .ok entry) :
    entry.seq = row.seq := by
  unfold Row.entry at h
  obtain ⟨did, -, h⟩ := bind_ok_iff.mp h
  cases he : Event.parse row.eventType with
  | none =>
    rw [he] at h
    cases h
  | some event =>
    rw [he] at h
    rw [← Except.ok.inj h]

theorem seq_of_mapM {rows : List Row} {entries : List Entry}
    (h : rows.mapM Row.entry = .ok entries) : entries.map Entry.seq = rows.map Row.seq := by
  induction rows generalizing entries with
  | nil =>
    cases h
    rfl
  | cons row rows ih =>
    rw [List.mapM_cons] at h
    obtain ⟨entry, hentry, h⟩ := bind_ok_iff.mp h
    obtain ⟨rest, hrest, h⟩ := bind_ok_iff.mp h
    cases h
    rw [List.map_cons, List.map_cons, entry_seq hentry, ih hrest]

/-- A consumer that asks is a reader that reads. -/
theorem Consumer.poll_eq_ok {c c' : Consumer} {limit : ℕ} {got : List Row}
    (h : c.poll limit log = .ok c') (hg : got.mapM Row.entry = .ok c.handed) :
    c'.start = c.start ∧
    c'.seq = Feed.moved Row.seq c.seq (Feed.after Row.seq c.seq limit log.standing) ∧
    (got ++ Feed.after Row.seq c.seq limit log.standing).mapM Row.entry = .ok c'.handed := by
  unfold Consumer.poll at h
  obtain ⟨entries, hentries, h⟩ := bind_ok_iff.mp h
  obtain rfl := Except.ok.inj h
  refine ⟨rfl, ?_, ?_⟩
  · have hseq := seq_of_mapM hentries
    dsimp only
    rw [Feed.moved, ← List.getLast?_map, ← List.getLast?_map, hseq]
  · rw [Paging.mapM_append_eq, hg]
    change Except.map _ (log.since c.seq limit) = _
    rw [hentries]
    rfl

theorem Followed.Whole.poll (h : s.Whole log starts) (hlog : log.Sound) {i limit : ℕ} {c : Consumer}
    (hp : (s.consumers i).poll limit s.log = .ok c) :
    Whole log starts { s with consumers := Function.update s.consumers i c } where
  rows := h.rows
  sequence := h.sequence
  lengths := h.lengths
  numbers := h.numbers
  consumers := by
    intro j
    dsimp only
    by_cases hj : j = i
    · rw [hj, Function.update_self]
      obtain ⟨got, hgot, hentries, hstart⟩ := h.consumers i
      obtain ⟨hs, hseq, hhanded⟩ := Consumer.poll_eq_ok hp hentries
      have hread := hgot.read ((h.sound hlog).numbered.filter _) limit
      refine ⟨_, ?_, hhanded, hs.trans hstart⟩
      rw [hseq]
      exact hread
    · rw [Function.update_of_ne hj]
      exact h.consumers j

theorem Followed.Reachable.whole (h : Followed.Reachable log starts s) (hlog : log.Sound) :
    s.Whole log starts := by
  induction h with
  | opened =>
    refine ⟨(List.append_nil _).symm, (Int.add_zero _).symm, by simp, rfl, ?_⟩
    intro i
    exact ⟨[], Feed.Reader.exact_at _, rfl, rfl⟩
  | step _ hs ih =>
    cases hs with
    | append ha => exact ih.write hlog (append_eq_ok ha)
    | extend he => exact ih.write hlog he
    | poll hp => exact ih.poll hlog hp

/-- What was in the log stays as it is, and after it come the entries of one call after another,
whole, numbered one by one. -/
theorem calls_whole (hlog : log.Sound) (h : Followed.Reachable log starts s) :
    s.log.rows = log.rows ++ s.calls.flatMap Call.rows ∧
    (∀ call ∈ s.calls, call.rows.map Row.seq = call.numbers ∧
      call.numbers.length = call.bodies.length) ∧
    s.calls.flatMap Call.numbers = (List.range (s.calls.flatMap Call.bodies).length).map
      (fun i : ℕ => log.sequence + 1 + (i : ℤ)) ∧
    s.log.Sound := by
  have hw := h.whole hlog
  refine ⟨hw.rows, ?_, hw.numbers, hw.sound hlog⟩
  intro call hm
  exact ⟨Call.rows_seq (hw.lengths call hm), hw.lengths call hm⟩

/-- Past the highest number there is nothing. -/
theorem since_latest (hlog : log.Sound) {seq : ℤ} (h : log.latest = some seq) (limit : ℕ) :
    log.since seq limit = .ok [] := by
  have hall : ∀ row ∈ log.standing, row.seq ≤ seq := fun row hrow =>
    (List.max?_eq_some_iff.mp h).2 row.seq (List.mem_map_of_mem (List.mem_filter.mp hrow).1)
  have hnone : (log.standing.filter fun row => decide (seq < row.seq)) = [] := by
    rw [List.filter_eq_nil_iff]
    intro row hrow
    simpa using hall row hrow
  have hafter : Feed.after Row.seq seq limit log.standing = [] := by
    rw [standing, (hlog.numbered.filter _).after_eq, ← standing, hnone, List.take_nil]
  rw [since, hafter]
  rfl

/-- A consumer has been handed the standing entries from where it started up to where it is, each
once and in order, however its questions fell between the calls that wrote. One that asks past the
highest number is handed nothing. -/
theorem consumers_exact (hlog : log.Sound) (h : Followed.Reachable log starts s) (i : ℕ) :
    (s.log.standing.filter fun row =>
      decide (starts i < row.seq ∧ row.seq ≤ (s.consumers i).seq)).mapM Row.entry =
        .ok (s.consumers i).handed ∧
    ((s.consumers i).handed.Pairwise fun a b => a.seq < b.seq) ∧
    ∀ seq ∈ s.log.latest, ∀ limit, s.log.since seq limit = .ok [] := by
  have hw := h.whole hlog
  obtain ⟨got, hgot, hentries, -⟩ := hw.consumers i
  have hbetween : got = s.log.standing.filter fun row =>
      decide (starts i < row.seq ∧ row.seq ≤ (s.consumers i).seq) := hgot.got
  rw [← hbetween]
  refine ⟨hentries, ?_, fun seq hseq => since_latest (hw.sound hlog) hseq⟩
  have hp : got.Pairwise fun a b => a.seq < b.seq := by
    rw [hbetween]
    exact ((hw.sound hlog).numbered.filter _).filter _
  rw [← List.pairwise_map (f := Entry.seq) (R := (· < ·)), seq_of_mapM hentries,
    List.pairwise_map]
  exact hp

/-! ## Catching up -/

theorem mapM_entry {rows : List Row} (h : ∀ row ∈ rows, ∃ entry, row.entry = .ok entry) :
    ∃ entries, rows.mapM Row.entry = .ok entries := by
  induction rows with
  | nil => exact ⟨[], rfl⟩
  | cons row rows ih =>
    obtain ⟨entry, hentry⟩ := h row List.mem_cons_self
    obtain ⟨entries, hentries⟩ := ih fun r hr => h r (List.mem_cons_of_mem row hr)
    refine ⟨entry :: entries, ?_⟩
    rw [List.mapM_cons, hentry, hentries]
    rfl

/-- A log whose standing rows all hold an entry. -/
def Readable (log : Sequencer) : Prop := ∀ row ∈ log.standing, ∃ entry, row.entry = .ok entry

theorem Consumer.polls_all (hlog : log.Sound) (hread : log.Readable) {limit rounds : ℕ}
    {c : Consumer} {got : List Row}
    (hc : Feed.Reader.Exact Row.seq log.standing ⟨c.start, c.seq, got⟩)
    (hg : got.mapM Row.entry = .ok c.handed)
    (hr : (log.standing.filter fun row => decide (c.seq < row.seq)).length ≤ limit * rounds) :
    ∃ c', c.polls limit log rounds = .ok c' ∧
      (log.standing.filter fun row => decide (c.start < row.seq)).mapM Row.entry =
        .ok c'.handed := by
  have hn : Feed.Numbered Row.seq log.standing := hlog.numbered.filter _
  induction rounds generalizing c got with
  | zero =>
    refine ⟨c, rfl, ?_⟩
    have hnone : (log.standing.filter fun row => decide (c.seq < row.seq)) = [] := by
      apply List.eq_nil_of_length_eq_zero
      omega
    rw [← hc.got_all hn hnone]
    exact hg
  | succ rounds ih =>
    have hafter : ∀ row ∈ Feed.after Row.seq c.seq limit log.standing,
        ∃ entry, row.entry = .ok entry := by
      intro row hm
      rw [hn.after_eq] at hm
      exact hread row (List.mem_of_mem_filter (List.mem_of_mem_take hm))
    obtain ⟨entries, hentries⟩ := mapM_entry hafter
    have hpoll : c.poll limit log =
        .ok ⟨c.start, (entries.getLast?.map Entry.seq).getD c.seq, c.handed ++ entries⟩ := by
      rw [Consumer.poll, since, hentries]
      rfl
    obtain ⟨hs, hseq, hhanded⟩ := Consumer.poll_eq_ok hpoll hg
    have hnext := hc.read hn limit
    rw [polls, hpoll]
    apply ih (c := ⟨c.start, _, _⟩) ?_ hhanded
    · rw [hseq, hn.past_moved, List.length_drop]
      rw [Nat.mul_succ] at hr
      omega
    · rw [hseq]
      exact hnext

theorem Followed.Whole.readable (h : s.Whole log starts) (hread : log.Readable) :
    s.log.Readable := by
  intro row hm
  obtain ⟨hrow, hstands⟩ := List.mem_filter.mp hm
  rw [h.rows] at hrow
  rcases List.mem_append.mp hrow with hrow | hrow
  · exact hread row (List.mem_filter.mpr ⟨hrow, hstands⟩)
  · obtain ⟨call, -, hcall⟩ := List.mem_flatMap.mp hrow
    exact (Call.entry_of_mem hcall).2

/-- A consumer that asks again and again while nothing is written is handed all there is past where
it started, in as many questions as it takes at so many entries a time. -/
theorem catches_up (hlog : log.Sound) (hread : log.Readable)
    (h : Followed.Reachable log starts s) (i : ℕ) {limit rounds : ℕ}
    (hr : (s.log.standing.filter fun row => decide ((s.consumers i).seq < row.seq)).length ≤
      limit * rounds) :
    ∃ c, (s.consumers i).polls limit s.log rounds = .ok c ∧
      (s.log.standing.filter fun row => decide (starts i < row.seq)).mapM Row.entry =
        .ok c.handed := by
  have hw := h.whole hlog
  obtain ⟨got, hgot, hentries, hstart⟩ := hw.consumers i
  rw [← hstart] at hgot ⊢
  exact Consumer.polls_all (hw.sound hlog) (hw.readable hread) hgot hentries hr

/-! ## A run -/

theorem loggedDid_valid : Did.validate (text "did:web:logged.example") = .ok () := by decide

def loggedDid : Did := ⟨text "did:web:logged.example", loggedDid_valid⟩

def fresh : Sequencer := ⟨[], 0⟩

theorem fresh_sound : fresh.Sound := ⟨List.Pairwise.nil, by simp [fresh]⟩

/-- Two entries written at once, of which a consumer that asks for one has been handed the first. -/
theorem exists_followed : ∃ s : Followed, Followed.Reachable fresh (fun _ => 0) s ∧
    s.log.rows.length = 2 ∧ s.calls.length = 1 ∧ (s.consumers 0).handed.length = 1 ∧
    (s.log.standing.filter fun row => decide ((s.consumers 0).seq < row.seq)).length ≤ 1 * 1 ∧
    s.log.latest = some 2 := by
  obtain ⟨row, hrow⟩ : ∃ row : Row, row = ⟨1, loggedDid.str, Event.identity.asStr, [], 0, 0⟩ :=
    ⟨_, rfl⟩
  obtain ⟨next, hnext⟩ : ∃ next : Row, next = ⟨2, loggedDid.str, Event.append.asStr, [], 0, 0⟩ :=
    ⟨_, rfl⟩
  have hextend : fresh.extend loggedDid [(.identity, []), (.append, [])] 0 =
      .ok ([1, 2], ⟨[row, next], 2⟩) := by
    rw [hrow, hnext]
    rfl
  have hstanding : (⟨[row, next], 2⟩ : Sequencer).standing = [row, next] := by
    rw [hrow, hnext]
    rfl
  have hnumbered : Feed.Numbered Row.seq [row, next] := by
    simp [Feed.Numbered, hrow, hnext]
  have hafter : Feed.after Row.seq 0 1 [row, next] = [row] := by
    rw [hnumbered.after_eq, hrow, hnext]
    rfl
  have hentry : row.entry = .ok ⟨1, loggedDid, .identity, [], 0⟩ := by
    rw [hrow, Row.entry, Did.parse_eq_ok.mpr rfl, Event.parse_asStr]
    rfl
  have hpoll : (⟨0, 0, []⟩ : Consumer).poll 1 ⟨[row, next], 2⟩ =
      .ok ⟨0, 1, [⟨1, loggedDid, .identity, [], 0⟩]⟩ := by
    rw [Consumer.poll, since, hstanding, hafter, List.mapM_cons, hentry]
    rfl
  have hwritten : Followed.Reachable fresh (fun _ => 0) _ := .step .opened (.extend hextend)
  refine ⟨_, .step hwritten (.poll (i := 0) hpoll), rfl, rfl, ?_, ?_, ?_⟩
  · simp
  · simp only [Function.update_self, hstanding]
    simp [hrow, hnext]
  · rw [hrow, hnext]
    rfl

theorem calls_whole_fresh : ∃ s : Followed, s.log.rows.length = 2 ∧
    s.log.rows = s.calls.flatMap Call.rows := by
  obtain ⟨s, hs, hrows, -⟩ := exists_followed
  exact ⟨s, hrows, (calls_whole fresh_sound hs).1⟩

theorem consumers_exact_fresh : ∃ s : Followed, (s.consumers 0).handed.length = 1 ∧
    (s.log.standing.filter fun row =>
      decide (0 < row.seq ∧ row.seq ≤ (s.consumers 0).seq)).mapM Row.entry =
        .ok (s.consumers 0).handed ∧ s.log.since 2 1 = .ok [] := by
  obtain ⟨s, hs, -, -, hhanded, -, hlatest⟩ := exists_followed
  obtain ⟨hall, -, hnone⟩ := consumers_exact fresh_sound hs 0
  exact ⟨s, hhanded, hall, hnone 2 hlatest 1⟩

theorem catches_up_fresh : ∃ (s : Followed) (c : Consumer), s.log.rows.length = 2 ∧
    (s.consumers 0).polls 1 s.log 1 = .ok c ∧
    (s.log.standing.filter fun row => decide (0 < row.seq)).mapM Row.entry = .ok c.handed := by
  obtain ⟨s, hs, hrows, -, -, hleft, -⟩ := exists_followed
  obtain ⟨c, hc, hall⟩ := catches_up fresh_sound (by simp [Readable, standing, fresh]) hs 0 hleft
  exact ⟨s, c, hrows, hc, hall⟩

end Sequencer

end Manapds
