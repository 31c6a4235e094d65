import Manapds.Lib.Program
import Manapds.Repo.DagCbor
import Mathlib.Logic.Relation

/-!
# Telling the directory

A signup sends its operation to the directory, asks what is filed where it was not answered, sends
it once more, and retires the identifier where the directory would not speak for it. What was sent
may be carried out at any later time or never. An operation is taken once, a tombstone after it, and
nothing after that. A read tells what is filed at its moment, where it tells anything.

A signup that is dropped, or comes to an error, is undone unless the directory may hold its
identifier, and undoing it cannot be taken back.
-/

namespace Manapds

open QueryProgram

/-- What an exchange that sends something can end with. -/
inductive PlcError where
  | unreachable
  | uncertain
  | refused (code : ℕ)
deriving DecidableEq

/-- What the directory said when asked what it holds. -/
inductive PlcHeld where
  | yes
  | no
  | unknown
deriving DecidableEq

/-- What comes of sending something. -/
inductive Exchange where
  /-- No connection was made. -/
  | connect
  | broken
  | late
  | status (code : ℕ)

/-- What comes of asking for a document. -/
inductive ReadBack where
  | broken
  | late
  | status (code : ℕ)
  /-- A success, and the identifier in it where there is one. -/
  | document (id : Option Str)

/-- The operation is sent twice at most, and the tombstone once. -/
inductive Sent where
  | first
  | second
  | tombstone
deriving DecidableEq

inductive PlcQuery where
  | post (sent : Sent)
  | get

abbrev PlcQuery.Answer : PlcQuery → Type
  | .post _ => Exchange
  | .get => ReadBack

abbrev Plc := Program PlcQuery PlcQuery.Answer

def isSuccess (code : ℕ) : Bool := 200 ≤ code && code < 300

def isServerError (code : ℕ) : Bool := 500 ≤ code && code < 600

/-- `exchange`, held to its budget. -/
def Exchange.result : Exchange → Except PlcError Unit
  | .connect => .error .unreachable
  | .broken => .error .uncertain
  | .late => .error .uncertain
  | .status code =>
    if isSuccess code then .ok ()
    -- A failure to answer rather than an answer.
    else if isServerError code then .error .uncertain
    else .error (.refused code)

/-- `document`, held to its budget. -/
def ReadBack.held (did : Did) : ReadBack → PlcHeld
  | .broken => .unknown
  | .late => .unknown
  | .status code => if code = 404 then .no else .unknown
  | .document id => if id = some did.str then .yes else .unknown

section

variable (did : Did)

def attempt (sent : Sent) : Plc (Except PlcError Unit) :=
  .ask (.post sent) fun exchange => .done exchange.result

def holds : Plc PlcHeld := .ask .get fun reading => .done (reading.held did)

/-- The read back after a second attempt, where `sent` says whether the first one reached the
directory at all. -/
def confirmAgain (sent : Bool) (again : PlcError) : Plc (Except PlcError Unit) :=
  (holds did).bind fun
    | .yes => .done (.ok ())
    | .no => .done (.error again)
    | .unknown => .done (.error (if sent = false ∧ again ≠ .uncertain then again else .uncertain))

def confirmSecond (sent : Bool) : Plc (Except PlcError Unit) :=
  (attempt .second).bind fun
    | .ok () => .done (.ok ())
    | .error again => confirmAgain did sent again

/-- Finds out what became of an operation whose answer never arrived, and sends the operation again
if it never arrived either. -/
def confirm (sent : Bool) : Plc (Except PlcError Unit) :=
  (holds did).bind fun
    | .yes => .done (.ok ())
    | _ => confirmSecond did sent

/-- Registers an operation against an identifier. -/
def send : Plc (Except PlcError Unit) :=
  (attempt .first).bind fun
    | .error .unreachable => confirm did false
    | .error .uncertain => confirm did true
    | answered => .done answered

def retired : Plc Bool := (holds did).bind fun held => .done (decide (held = .no))

/-- Retires an identifier, and says whether the directory is left holding nothing under it. -/
def retire : Plc Bool :=
  (attempt .tombstone).bind fun
    | .error _ => .done false
    | .ok () => retired did

/-- What a signup makes of what the directory said: the answer, and whether it settles what the
directory holds. -/
def settling (registered : Except PlcError Unit) : Plc (Except PlcError Unit × Bool) :=
  match registered with
  | .error .uncertain => (retire did).bind fun settled => .done (registered, settled)
  | _ => .done (registered, true)

def register : Plc (Except PlcError Unit × Bool) := (send did).bind (settling did)

end

/-! ## A run -/

/-- What is filed under the identifier. -/
inductive Filed where
  | nothing
  | live
  | retired
deriving DecidableEq

/-- What has become of something sent. -/
inductive Post where
  | unsent
  | flying
  | accepted
  | refused
deriving DecidableEq

inductive Rollback where
  | discard
  | keep
  | nothing
deriving DecidableEq

/-- How far a signup is with the directory. -/
inductive TellingStage where
  /-- Everything is being written here, and nothing has been sent. -/
  | before
  | telling (rest : Plc (Except PlcError Unit × Bool))
  /-- The key is being taken out of the reserved ones. -/
  | releasing (registered : Except PlcError Unit)
  | ended

/-- The directory, with what it has been sent. -/
structure Directory where
  filed : Filed
  posts : Sent → Post

structure Telling where
  directory : Directory
  stage : TellingStage
  rollback : Rollback
  discarded : Bool

namespace Directory

def posted (d : Directory) (sent : Sent) (post : Post) : Directory :=
  { d with posts := Function.update d.posts sent post }

/-- How an exchange can end. -/
def Ends (d : Directory) (sent : Sent) : Exchange → Prop
  | .connect => d.posts sent = .unsent
  | .broken => d.posts sent ≠ .unsent
  | .late => True
  | .status code =>
    if isSuccess code then d.posts sent = .accepted
    else if isServerError code then d.posts sent ≠ .unsent
    else d.posts sent = .refused

/-- A read tells the truth about its moment. -/
def Tells (did : Did) (d : Directory) (reading : ReadBack) : Prop :=
  (reading.held did = .yes → d.filed = .live) ∧ (reading.held did = .no → d.filed ≠ .live)

/-- What the directory does with something that is on its way. -/
inductive Processes (d : Directory) : Directory → Prop where
  | take {sent : Sent} (flies : d.posts sent = .flying) (operation : sent ≠ .tombstone)
      (free : d.filed = .nothing) : Processes d ⟨.live, (d.posted sent .accepted).posts⟩
  | retire (flies : d.posts .tombstone = .flying) (live : d.filed = .live) :
      Processes d ⟨.retired, (d.posted .tombstone .accepted).posts⟩
  /-- A duplicate, what comes after a tombstone, or whatever else will not do. -/
  | refuse {sent : Sent} (flies : d.posts sent = .flying) : Processes d (d.posted sent .refused)

end Directory

namespace Telling

/-- A signup before it has told the directory anything. -/
def armed : Telling := ⟨⟨.nothing, fun _ => .unsent⟩, .before, .discard, false⟩

/-- The guard is dropped. -/
def dropped (s : Telling) : Telling :=
  { s with stage := .ended, discarded := decide (s.rollback = .discard) }

/-- What a step is, as far as it matters when it comes. -/
inductive Event where
  | read (reading : ReadBack)
  | drop
  | other

inductive Step (did : Did) (s : Telling) : Event → Telling → Prop where
  | tell (at_ : s.stage = .before) :
      Step did s .other { s with stage := .telling (register did), rollback := .keep }
  | connect {sent : Sent} {next : Exchange → Plc (Except PlcError Unit × Bool)}
      (at_ : s.stage = .telling (.ask (.post sent) next))
      (unsent : s.directory.posts sent = .unsent) :
      Step did s .other { s with directory := s.directory.posted sent .flying }
  | process {directory : Directory} (hs : s.directory.Processes directory) :
      Step did s .other { s with directory }
  | answer {sent : Sent} {next : Exchange → Plc (Except PlcError Unit × Bool)} {exchange : Exchange}
      (at_ : s.stage = .telling (.ask (.post sent) next)) (ends : s.directory.Ends sent exchange) :
      Step did s .other { s with stage := .telling (next exchange) }
  | read {next : ReadBack → Plc (Except PlcError Unit × Bool)} {reading : ReadBack}
      (at_ : s.stage = .telling (.ask .get next)) (tells : s.directory.Tells did reading) :
      Step did s (.read reading) { s with stage := .telling (next reading) }
  | answered {registered : Except PlcError Unit} {settled : Bool}
      (at_ : s.stage = .telling (.done (registered, settled))) :
      Step did s .other { s with
        stage := .releasing registered, rollback := if settled then .discard else s.rollback }
  | refused {e : PlcError} (at_ : s.stage = .releasing (.error e)) : Step did s .other s.dropped
  | done (at_ : s.stage = .releasing (.ok ())) :
      Step did s .other { s with stage := .ended, rollback := .nothing }
  /-- The call is dropped, or settling fails. -/
  | drop (within : s.stage ≠ .ended) : Step did s .drop s.dropped

/-- A call is not dropped once it is told that the directory has taken its operation, and no read
after a second attempt finds nothing while the first, which was not answered, is still on its way and
the second was. -/
def Kept (did : Did) (s : Telling) : Event → Prop
  | .drop => s.stage ≠ .releasing (.ok ())
  | .read reading => ∀ again, s.stage = .telling ((confirmAgain did true again).bind (settling did)) →
      again ≠ .uncertain → reading.held did = .no → s.directory.posts .first ≠ .flying
  | .other => True

/-- Any order of steps, or with `kept` any whose steps are all `Kept`. -/
inductive Reachable (did : Did) (kept : Bool) : Telling → Prop where
  | armed : Reachable did kept armed
  | step {s s' : Telling} {e : Event} : Reachable did kept s → Step did s e s' →
      (kept = true → s.Kept did e) → Reachable did kept s'

/-- Whatever comes after. -/
def Later (did : Did) : Telling → Telling → Prop :=
  Relation.ReflTransGen fun s s' => ∃ e, Step did s e s'

end Telling

/-! ## What the directory can come to hold -/

namespace Directory

variable {did : Did} {d d' : Directory}

@[simp] theorem posts_posted_self (sent : Sent) (post : Post) :
    (d.posted sent post).posts sent = post := Function.update_self ..

theorem posts_posted_of_ne {sent other : Sent} (h : other ≠ sent) (post : Post) :
    (d.posted sent post).posts other = d.posts other := Function.update_of_ne h ..

/-- Neither is the identifier taken nor can what is on its way take it. -/
structure Settled (d : Directory) : Prop where
  filed : d.filed ≠ .live
  first : d.filed = .nothing → d.posts .first ≠ .flying
  second : d.filed = .nothing → d.posts .second ≠ .flying

/-- What is filed is what was accepted. -/
structure Filing (d : Directory) : Prop where
  live : d.filed = .live → d.posts .first = .accepted ∨ d.posts .second = .accepted
  retired : d.filed = .retired ↔ d.posts .tombstone = .accepted

/-- An operation that is not on its way and was not accepted is not filed. -/
theorem Filing.settled (h : d.Filing) (hfirst : d.posts .first = .unsent ∨ d.posts .first = .refused)
    (hsecond : d.posts .second = .unsent ∨ d.posts .second = .refused) : d.Settled := by
  refine ⟨?_, ?_, ?_⟩
  · intro hlive
    rcases h.live hlive with hpost | hpost
    · simp [hpost] at hfirst
    · simp [hpost] at hsecond
  · intro _ hpost
    simp [hpost] at hfirst
  · intro _ hpost
    simp [hpost] at hsecond

/-- Nothing is accepted that has just been sent. -/
theorem Filing.connect (h : d.Filing) {sent : Sent} (hs : d.posts sent = .unsent) :
    (d.posted sent .flying).Filing := by
  have hkeep : ∀ other, (d.posted sent .flying).posts other = .accepted ↔ d.posts other = .accepted := by
    intro other
    by_cases he : other = sent
    · subst he
      simp [hs]
    · rw [posts_posted_of_ne he]
  refine ⟨fun hlive => ?_, ?_⟩
  · rw [hkeep, hkeep]
    exact h.live hlive
  · rw [hkeep]
    exact h.retired

theorem Ends.cases {sent : Sent} {exchange : Exchange} (h : d.Ends sent exchange) :
    exchange.result = .ok () ∧ d.posts sent = .accepted ∨
    exchange.result = .error .unreachable ∧ d.posts sent = .unsent ∨
    exchange.result = .error .uncertain ∨
    ∃ code, exchange.result = .error (.refused code) ∧ d.posts sent = .refused := by
  cases exchange with
  | connect => exact Or.inr (Or.inl ⟨rfl, h⟩)
  | broken => exact Or.inr (Or.inr (Or.inl rfl))
  | late => exact Or.inr (Or.inr (Or.inl rfl))
  | status code =>
    unfold Ends at h
    unfold Exchange.result
    dsimp only at h ⊢
    split_ifs at h with hok hserver
    · rw [if_pos hok]
      exact Or.inl ⟨rfl, h⟩
    · rw [if_neg hok, if_pos hserver]
      exact Or.inr (Or.inr (Or.inl rfl))
    · rw [if_neg hok, if_neg hserver]
      exact Or.inr (Or.inr (Or.inr ⟨code, rfl, h⟩))

/-- Where a signup that tells the directory can be, and what has been sent by then. -/
inductive At (did : Did) (d : Directory) : Plc (Except PlcError Unit × Bool) → Prop where
  | first : d.posts .second = .unsent → d.posts .tombstone = .unsent → At did d (register did)
  | confirm (sent : Bool) : (sent = false → d.posts .first = .unsent) → d.posts .second = .unsent →
      d.posts .tombstone = .unsent → At did d ((Manapds.confirm did sent).bind (settling did))
  | second (sent : Bool) : (sent = false → d.posts .first = .unsent) →
      d.posts .tombstone = .unsent → At did d ((confirmSecond did sent).bind (settling did))
  | again (sent : Bool) (again : PlcError) : (sent = false → d.posts .first = .unsent) →
      (again ≠ .uncertain → d.posts .second = .unsent ∨ d.posts .second = .refused) →
      d.posts .tombstone = .unsent → At did d ((confirmAgain did sent again).bind (settling did))
  | retire : At did d
      ((Manapds.retire did).bind fun settled => .done (.error .uncertain, settled))
  | retired : d.posts .tombstone = .accepted → At did d
      ((Manapds.retired did).bind fun settled => .done (.error .uncertain, settled))
  | done (registered : Except PlcError Unit) (settled : Bool) :
      (settled = true → registered = .ok () ∨ d.Settled) → At did d (.done (registered, settled))

namespace At

variable {p : Plc (Except PlcError Unit × Bool)}

/-- What the directory does with what is on its way changes nothing else. -/
theorem process (h : At did d p)
    (hposts : ∀ sent, d.posts sent ≠ .flying → d'.posts sent = d.posts sent)
    (hs : d.Settled → d'.Settled) : At did d' p := by
  have hkeep : ∀ {sent : Sent} {post : Post}, post ≠ .flying → d.posts sent = post →
      d'.posts sent = post := by
    intro sent post hne hpost
    rw [hposts sent (by rw [hpost]; exact hne), hpost]
  cases h with
  | first hsecond htomb => exact .first (hkeep (by simp) hsecond) (hkeep (by simp) htomb)
  | confirm sent hfirst hsecond htomb =>
    exact .confirm sent (fun hf => hkeep (by simp) (hfirst hf)) (hkeep (by simp) hsecond)
      (hkeep (by simp) htomb)
  | second sent hfirst htomb =>
    exact .second sent (fun hf => hkeep (by simp) (hfirst hf)) (hkeep (by simp) htomb)
  | again sent again hfirst hsecond htomb =>
    refine .again sent again (fun hf => hkeep (by simp) (hfirst hf)) ?_ (hkeep (by simp) htomb)
    exact fun ha => (hsecond ha).imp (hkeep (by simp)) (hkeep (by simp))
  | retire => exact .retire
  | retired htomb => exact .retired (hkeep (by simp) htomb)
  | done registered settled hset => exact .done registered settled fun ht => (hset ht).imp_right hs

/-- What a signup has come to with the directory. -/
theorem of_done {registered : Except PlcError Unit} (h : At did d (.done (registered, true))) :
    registered = .ok () ∨ d.Settled := by
  generalize hp : (Program.done (registered, true) : Plc (Except PlcError Unit × Bool)) = p at h
  cases h with
  | done registered settled hset =>
    cases hp
    exact hset rfl
  | first | confirm | second | again | retire | retired => cases hp

/-- What is being sent has a connection now. -/
theorem connect {sent : Sent} {next : Exchange → Plc (Except PlcError Unit × Bool)}
    (h : At did d (.ask (.post sent) next)) : At did (d.posted sent .flying) (.ask (.post sent) next) := by
  generalize hp : (Program.ask (PlcQuery.post sent) next : Plc (Except PlcError Unit × Bool)) = p at h
  cases h with
  | first hsecond htomb =>
    cases hp
    exact .first hsecond htomb
  | confirm sent hfirst hsecond htomb => cases hp
  | second sent hfirst htomb =>
    cases hp
    exact .second sent hfirst htomb
  | again sent again hfirst hsecond htomb => cases hp
  | retire =>
    cases hp
    exact .retire
  | retired htomb => cases hp
  | done registered settled hset => cases hp

/-- What is made of an answer. -/
theorem settling (registered : Except PlcError Unit)
    (h : ∀ e, registered = .error e → e ≠ .uncertain → d.Settled) :
    At did d (Manapds.settling did registered) := by
  cases registered with
  | ok u => exact .done (.ok u) true fun _ => Or.inl rfl
  | error e =>
    cases e with
    | uncertain => exact .retire
    | unreachable => exact .done _ true fun _ => Or.inr (h _ rfl (by simp))
    | refused code => exact .done _ true fun _ => Or.inr (h _ rfl (by simp))

theorem answer {sent : Sent} {next : Exchange → Plc (Except PlcError Unit × Bool)}
    {exchange : Exchange} (h : At did d (.ask (.post sent) next)) (hf : d.Filing)
    (hx : d.Ends sent exchange) : At did d (next exchange) := by
  generalize hp : (Program.ask (PlcQuery.post sent) next : Plc (Except PlcError Unit × Bool)) = p at h
  have hends := hx.cases
  cases h with
  | first hsecond htomb =>
    cases hp
    dsimp only
    generalize exchange.result = r at hends
    rcases hends with ⟨rfl, -⟩ | ⟨rfl, hpost⟩ | rfl | ⟨code, rfl, hpost⟩
    · exact settling (.ok ()) (by simp)
    · exact .confirm false (fun _ => hpost) hsecond htomb
    · exact .confirm true (by simp) hsecond htomb
    · apply settling
      intro e _ _
      exact hf.settled (Or.inr hpost) (Or.inl hsecond)
  | confirm sent hfirst hsecond htomb => cases hp
  | second sent hfirst htomb =>
    cases hp
    dsimp only
    generalize exchange.result = r at hends
    rcases hends with ⟨rfl, -⟩ | ⟨rfl, hpost⟩ | rfl | ⟨code, rfl, hpost⟩
    · exact settling (.ok ()) (by simp)
    · exact .again sent _ hfirst (fun _ => Or.inl hpost) htomb
    · exact .again sent _ hfirst (by simp) htomb
    · exact .again sent _ hfirst (fun _ => Or.inr hpost) htomb
  | again sent again hfirst hsecond htomb => cases hp
  | retire =>
    cases hp
    dsimp only
    generalize exchange.result = r at hends
    rcases hends with ⟨rfl, hpost⟩ | ⟨rfl, hpost⟩ | rfl | ⟨code, rfl, hpost⟩
    · exact .retired hpost
    · exact .done _ false (by simp)
    · exact .done _ false (by simp)
    · exact .done _ false (by simp)
  | retired htomb => cases hp
  | done registered settled hset => cases hp

theorem read {next : ReadBack → Plc (Except PlcError Unit × Bool)} {reading : ReadBack}
    (h : At did d (.ask .get next)) (hf : d.Filing) (hx : d.Tells did reading)
    (hk : ∀ again, (.ask .get next : Plc (Except PlcError Unit × Bool)) =
      (confirmAgain did true again).bind (Manapds.settling did) →
      again ≠ .uncertain → reading.held did = .no → d.posts .first ≠ .flying) :
    At did d (next reading) := by
  generalize hp : (Program.ask PlcQuery.get next : Plc (Except PlcError Unit × Bool)) = p at h
  obtain ⟨-, hno⟩ := hx
  cases h with
  | first hsecond htomb => cases hp
  | confirm sent hfirst hsecond htomb =>
    cases hp
    dsimp only
    cases reading.held did with
    | yes => exact settling (.ok ()) (by simp)
    | no => exact .second sent hfirst htomb
    | unknown => exact .second sent hfirst htomb
  | second sent hfirst htomb => cases hp
  | again sent again hfirst hsecond htomb =>
    cases hp
    dsimp only
    generalize hheld : reading.held did = held at hk hno
    cases held with
    | yes => exact settling (.ok ()) (by simp)
    | no =>
      apply settling
      intro e he hne
      obtain rfl : again = e := Except.error.inj he
      refine ⟨hno rfl, ?_, ?_⟩
      · intro _
        cases sent with
        | false =>
          rw [hfirst rfl]
          simp
        | true => exact hk again rfl hne rfl
      · intro _ hpost
        rcases hsecond hne with hsecond | hsecond
        · simp [hsecond] at hpost
        · simp [hsecond] at hpost
    | unknown =>
      by_cases hc : sent = false ∧ again ≠ .uncertain
      · rw [if_pos hc]
        apply settling
        intro e _ _
        exact hf.settled (Or.inl (hfirst hc.1)) (hsecond hc.2)
      · rw [if_neg hc]
        exact settling (.error .uncertain) (by simp)
  | retire => cases hp
  | retired htomb =>
    cases hp
    refine .done _ _ fun _ => Or.inr ?_
    have hretired := hf.retired.mpr htomb
    refine ⟨?_, ?_, ?_⟩ <;> simp [hretired]
  | done registered settled hset => cases hp

end At

namespace Processes

theorem posts_eq (h : d.Processes d') {sent : Sent} (hs : d.posts sent ≠ .flying) :
    d'.posts sent = d.posts sent := by
  cases h with
  | take flies | retire flies | refuse flies =>
    apply posts_posted_of_ne
    rintro rfl
    exact hs flies

theorem exists_flying (h : d.Processes d') : ∃ sent, d.posts sent = .flying := by
  cases h with
  | take flies | retire flies | refuse flies => exact ⟨_, flies⟩

theorem filing (h : d.Processes d') (hf : d.Filing) : d'.Filing := by
  have hkeep : ∀ {sent : Sent}, d.posts sent = .accepted → d'.posts sent = .accepted := by
    intro sent hpost
    rw [h.posts_eq (by simp [hpost]), hpost]
  cases h with
  | @take sent flies operation free =>
    refine ⟨?_, ?_, ?_⟩
    · intro _
      cases sent with
      | first => exact Or.inl (by simp)
      | second => exact Or.inr (by simp)
      | tombstone => exact absurd rfl operation
    · intro hr
      cases hr
    · intro hpost
      have hsame : d.posts .tombstone = .accepted :=
        (posts_posted_of_ne operation.symm _).symm.trans hpost
      have hretired := hf.retired.mpr hsame
      rw [free] at hretired
      cases hretired
  | retire flies live =>
    refine ⟨?_, fun _ => by simp, fun _ => rfl⟩
    intro hlive
    cases hlive
  | @refuse sent flies =>
    refine ⟨fun hlive => (hf.live hlive).imp hkeep hkeep, fun hr => hkeep (hf.retired.mp hr), ?_⟩
    intro hpost
    apply hf.retired.mpr
    by_cases hs : Sent.tombstone = sent
    · subst hs
      simp at hpost
    · exact (posts_posted_of_ne hs _).symm.trans hpost

/-- What can take the identifier no longer never can. -/
theorem settled (h : d.Processes d') (hs : d.Settled) : d'.Settled := by
  cases h with
  | @take sent flies operation free =>
    cases sent with
    | first => exact absurd flies (hs.first free)
    | second => exact absurd flies (hs.second free)
    | tombstone => exact absurd rfl operation
  | retire flies live => exact absurd live hs.filed
  | @refuse sent flies =>
    have hstill : ∀ other, d.posts other ≠ .flying → (d.posted sent .refused).posts other ≠ .flying := by
      intro other hother
      by_cases he : other = sent
      · subst he
        simp
      · rw [posts_posted_of_ne he]
        exact hother
    exact ⟨hs.filed, fun hn => hstill _ (hs.first hn), fun hn => hstill _ (hs.second hn)⟩

end Processes

end Directory

namespace Telling

variable {did : Did} {s s' : Telling} {e : Event}

/-- Where a signup is, with what that says of the guard. -/
def Stands (did : Did) (s : Telling) : TellingStage → Prop
  | .before => s.rollback = .discard ∧ s.directory = armed.directory
  | .telling rest => s.rollback = .keep ∧ s.directory.At did rest
  | .releasing registered => s.rollback = .discard → registered = .ok () ∨ s.directory.Settled
  | .ended => s.discarded = true → s.directory.Settled

structure Sound (did : Did) (s : Telling) : Prop where
  filing : s.directory.Filing
  stands : s.Stands did s.stage
  within : s.stage ≠ .ended → s.discarded = false

namespace Sound

theorem process (h : s.Sound did) {directory : Directory}
    (hs : s.directory.Processes directory) : Sound did { s with directory } := by
  refine ⟨hs.filing h.filing, ?_, h.within⟩
  have hstands := h.stands
  cases hstage : s.stage with
  | before =>
    rw [hstage] at hstands
    obtain ⟨sent, hflies⟩ := hs.exists_flying
    rw [hstands.2] at hflies
    cases hflies
  | telling rest =>
    rw [hstage] at hstands
    exact ⟨hstands.1, hstands.2.process (fun _ => hs.posts_eq) hs.settled⟩
  | releasing registered =>
    rw [hstage] at hstands
    exact fun hd => (hstands hd).imp_right hs.settled
  | ended =>
    rw [hstage] at hstands
    exact fun hd => hs.settled (hstands hd)

theorem dropped (h : s.Sound did) (hs : s.rollback = .discard → s.directory.Settled) :
    s.dropped.Sound did :=
  ⟨h.filing, fun hd => hs (of_decide_eq_true hd), fun hn => absurd rfl hn⟩

/-- A guard that is dropped while it is to discard is dropped where the directory cannot come to
hold the identifier. -/
theorem settled (h : s.Sound did) (hk : s.stage ≠ .releasing (.ok ())) (hn : s.stage ≠ .ended)
    (hd : s.rollback = .discard) : s.directory.Settled := by
  have hstands := h.stands
  cases hstage : s.stage with
  | before =>
    rw [hstage] at hstands
    rw [hstands.2]
    refine ⟨?_, ?_, ?_⟩ <;> simp [armed]
  | telling rest =>
    rw [hstage] at hstands
    rw [hstands.1] at hd
    cases hd
  | releasing registered =>
    rw [hstage] at hstands hk
    exact (hstands hd).resolve_left fun hr => hk (by rw [hr])
  | ended => exact absurd hstage hn

theorem step (h : s.Sound did) (hs : Step did s e s') (hk : s.Kept did e) : s'.Sound did := by
  have hstands := h.stands
  have hwithin := h.within
  cases hs with
  | tell at_ =>
    rw [at_] at hstands hwithin
    have hposts : ∀ sent, s.directory.posts sent = .unsent := by
      intro sent
      rw [hstands.2]
      rfl
    exact ⟨h.filing, ⟨rfl, .first (hposts _) (hposts _)⟩, fun _ => hwithin (by simp)⟩
  | @connect sent next at_ unsent =>
    rw [at_] at hstands
    refine ⟨h.filing.connect unsent, ?_, hwithin⟩
    dsimp only
    rw [at_]
    exact ⟨hstands.1, hstands.2.connect⟩
  | process hs => exact h.process hs
  | answer at_ ends =>
    rw [at_] at hstands hwithin
    exact ⟨h.filing, ⟨hstands.1, hstands.2.answer h.filing ends⟩, fun _ => hwithin (by simp)⟩
  | read at_ tells =>
    rw [at_] at hstands hwithin
    refine ⟨h.filing, ⟨hstands.1, hstands.2.read h.filing tells ?_⟩, fun _ => hwithin (by simp)⟩
    intro again hp
    apply hk again
    rw [at_, hp]
  | @answered registered settled at_ =>
    rw [at_] at hstands hwithin
    refine ⟨h.filing, ?_, fun _ => hwithin (by simp)⟩
    intro hd
    cases settled with
    | false =>
      rw [if_neg (by simp), hstands.1] at hd
      cases hd
    | true => exact hstands.2.of_done
  | refused at_ =>
    apply h.dropped
    apply h.settled
    · simp [at_]
    · simp [at_]
  | done at_ =>
    rw [at_] at hwithin
    refine ⟨h.filing, fun hd => ?_, fun hn => absurd rfl hn⟩
    have hnot := hwithin (by simp)
    replace hd : s.discarded = true := hd
    rw [hnot] at hd
    cases hd
  | drop within =>
    apply h.dropped
    exact h.settled hk within

end Sound

theorem Reachable.sound (h : Reachable did true s) : s.Sound did := by
  induction h with
  | armed => exact ⟨⟨by simp [Telling.armed], by simp [Telling.armed]⟩, ⟨rfl, rfl⟩, fun _ => rfl⟩
  | step _ hs hk ih => exact ih.step hs (hk rfl)

/-- A signup that has ended is over: the directory goes on without it. -/
theorem Step.of_ended (hs : Step did s e s') (he : s.stage = .ended) :
    s'.stage = .ended ∧ s'.discarded = s.discarded ∧ ∀ kept : Bool, kept = true → s.Kept did e := by
  cases hs with
  | process hs => exact ⟨he, rfl, fun _ _ => trivial⟩
  | drop within => exact absurd he within
  | tell at_ | connect at_ | answer at_ | read at_ | answered at_ | refused at_ | done at_ =>
    rw [he] at at_
    cases at_

/-- A signup is never undone where the directory holds its identifier or may still come to, in every
run whose steps are all kept. -/
theorem discard_final (h : Reachable did true s) (hd : s.discarded = true) :
    ∀ s', Later did s s' → s'.directory.filed ≠ .live := by
  have hended : s.stage = .ended := by
    by_contra hn
    rw [h.sound.within hn] at hd
    cases hd
  have hlater : ∀ s', Later did s s' →
      Reachable did true s' ∧ s'.stage = .ended ∧ s'.discarded = true := by
    intro s' hl
    induction hl with
    | refl => exact ⟨h, hended, hd⟩
    | tail _ hs ih =>
      obtain ⟨e, hs⟩ := hs
      obtain ⟨hreach, hstage, hdiscarded⟩ := ih
      obtain ⟨hstage', hdiscarded', hk⟩ := hs.of_ended hstage
      exact ⟨hreach.step hs (hk true), hstage', hdiscarded'.trans hdiscarded⟩
  intro s' hl
  obtain ⟨hreach, hstage, hdiscarded⟩ := hlater s' hl
  have hstands := hreach.sound.stands
  rw [hstage] at hstands
  exact (hstands hdiscarded).filed

open DagCbor

/-- A first attempt whose answer is lost is still on its way when the second cannot be made and the
directory has nothing: the signup is undone, and the identifier is taken after that. A signup dropped
as it is told that the directory has taken its identifier is undone too. -/
theorem not_discard_final : (∃ s : Telling, Reachable recordDid false s ∧ s.discarded = true ∧
      ∃ s', Later recordDid s s' ∧ s'.directory.filed = .live) ∧
    ∃ s : Telling, Reachable recordDid false s ∧ s.discarded = true ∧ s.directory.filed = .live := by
  have harmed : Reachable recordDid false armed := .armed
  have htold := harmed.step (.tell rfl) (by simp)
  have hsent := htold.step (.connect rfl rfl) (by simp)
  have hlate : ∀ (d : Directory) (sent : Sent), d.Ends sent .late := fun _ _ => trivial
  have hnothing : ∀ d : Directory, d.filed = .nothing → d.Tells recordDid (.status 404) := by
    intro d hd
    refine ⟨fun hy => absurd hy (by simp [ReadBack.held]), fun _ => ?_⟩
    rw [hd]
    simp
  have hmade : ∀ (d : Directory) (sent : Sent), d.posts sent = .unsent → d.Ends sent .connect :=
    fun _ _ h => h
  have htaken : ∀ (d : Directory) (sent : Sent), d.posts sent = .accepted → d.Ends sent (.status 200) :=
    fun _ _ h => h
  have htakes : ∀ d : Directory, d.posts .first = .flying → d.filed = .nothing →
      d.Processes ⟨.live, (d.posted .first .accepted).posts⟩ := fun _ h h' => .take h (by simp) h'
  constructor
  · have hlost := hsent.step (.answer rfl (hlate _ _)) (by simp)
    have hread := hlost.step (.read rfl (hnothing _ rfl)) (by simp)
    have hagain := hread.step (.answer rfl (hmade _ _ rfl)) (by simp)
    have hreadAgain := hagain.step (.read rfl (hnothing _ rfl)) (by simp)
    have hanswered := hreadAgain.step (.answered rfl) (by simp)
    have hundone := hanswered.step (.refused rfl) (by simp)
    exact ⟨_, hundone, rfl, _, .single ⟨.other, .process (htakes _ rfl rfl)⟩, rfl⟩
  · have hfiled := hsent.step (.process (htakes _ rfl rfl)) (by simp)
    have hok := hfiled.step (.answer rfl (htaken _ _ rfl)) (by simp)
    have hanswered := hok.step (.answered rfl) (by simp)
    have hdropped := hanswered.step (.drop (by simp)) (by simp)
    exact ⟨_, hdropped, rfl, rfl⟩

/-- A signup that the directory refuses is undone for good. -/
theorem discard_final_refused : ∃ s : Telling, s.discarded = true ∧
    ∀ s', Later recordDid s s' → s'.directory.filed ≠ .live := by
  have harmed : Reachable recordDid true armed := .armed
  have htold := harmed.step (.tell rfl) fun _ => trivial
  have hsent := htold.step (.connect rfl rfl) fun _ => trivial
  have hno : ∀ (d : Directory) (sent : Sent), d.posts sent = .refused → d.Ends sent (.status 400) :=
    fun _ _ h => h
  have hrefuses : ∀ d : Directory, d.posts .first = .flying →
      d.Processes (d.posted .first .refused) := fun _ h => .refuse h
  have hrefused := hsent.step (.process (hrefuses _ rfl)) fun _ => trivial
  have hanswer := hrefused.step (.answer rfl (hno _ _ rfl)) fun _ => trivial
  have hanswered := hanswer.step (.answered rfl) fun _ => trivial
  have hundone := hanswered.step (.refused rfl) fun _ => trivial
  exact ⟨_, rfl, discard_final hundone rfl⟩

end Telling

end Manapds
