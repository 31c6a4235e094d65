import Mathlib.Tactic.SplitIfs

/-!
# Programs that ask questions

A `Program` is a finite tree of questions to an environment and continuations for the answers.
Running one against a fixed environment answers every question from that environment; the tree
itself says nothing about when the questions are put, so the same program can be run alone or one
question at a time between the questions of others.

A `Routine` is a program that also carries a state and may stop with an error. The state survives
an error, as it does for a value held by reference in an imperative program.
-/

namespace QueryProgram

inductive Program (Q : Type) (A : Q → Type) (α : Type) : Type where
  | done (a : α)
  | ask (q : Q) (next : A q → Program Q A α)

variable {Q : Type} {A : Q → Type} {α β γ : Type}

namespace Program

def bind : Program Q A α → (α → Program Q A β) → Program Q A β
  | .done a, f => f a
  | .ask q next, f => .ask q (fun x => (next x).bind f)

/-- Puts every question as one of a wider kind. -/
def via {Q' : Type} {A' : Q' → Type} (f : Q → Q') (g : ∀ q, A' (f q) → A q) :
    Program Q A α → Program Q' A' α
  | .done a => .done a
  | .ask q next => .ask (f q) fun x => (next (g q x)).via f g

/-- All questions are answered by the one environment. -/
def run (env : ∀ q, A q) : Program Q A α → α
  | .done a => a
  | .ask q next => (next (env q)).run env

@[simp] theorem run_done (env : ∀ q, A q) (a : α) : (done a : Program Q A α).run env = a := rfl

@[simp] theorem run_ask (env : ∀ q, A q) (q : Q) (next : A q → Program Q A α) :
    (ask q next).run env = (next (env q)).run env := rfl

@[simp] theorem run_bind (env : ∀ q, A q) (p : Program Q A α) (f : α → Program Q A β) :
    (p.bind f).run env = (f (p.run env)).run env := by
  induction p with
  | done a => rfl
  | ask q next ih => exact ih (env q)

/-- What a program can come to where `allowed` says which answers a question can be given. A
question may be answered in more than one way. -/
def Yields (allowed : ∀ q, A q → Prop) : Program Q A α → α → Prop
  | .done a, r => r = a
  | .ask q next, r => ∃ x, allowed q x ∧ (next x).Yields allowed r

theorem yields_bind {allowed : ∀ q, A q → Prop} {p : Program Q A α} {f : α → Program Q A β} {r : β} :
    (p.bind f).Yields allowed r ↔ ∃ a, p.Yields allowed a ∧ (f a).Yields allowed r := by
  induction p with
  | done a =>
    constructor
    · intro h
      exact ⟨a, rfl, h⟩
    · rintro ⟨_, rfl, h⟩
      exact h
  | ask q next ih =>
    constructor
    · rintro ⟨x, hx, h⟩
      obtain ⟨a, ha, h⟩ := (ih x).mp h
      exact ⟨a, ⟨x, hx, ha⟩, h⟩
    · rintro ⟨a, ⟨x, hx, ha⟩, h⟩
      exact ⟨x, hx, (ih x).mpr ⟨a, ha, h⟩⟩

theorem yields_via {Q' : Type} {A' : Q' → Type} {f : Q → Q'} {g : ∀ q, A' (f q) → A q}
    {allowed : ∀ q, A' q → Prop} {p : Program Q A α} {r : α} : (p.via f g).Yields allowed r ↔
      p.Yields (fun q x => ∃ y, allowed (f q) y ∧ x = g q y) r := by
  induction p with
  | done a => rfl
  | ask q next ih =>
    constructor
    · rintro ⟨y, hy, h⟩
      exact ⟨g q y, ⟨y, hy, rfl⟩, (ih _).mp h⟩
    · rintro ⟨_, ⟨y, hy, rfl⟩, h⟩
      exact ⟨y, hy, (ih _).mpr h⟩

theorem Yields.mono {allowed allowed' : ∀ q, A q → Prop} (ha : ∀ q x, allowed q x → allowed' q x)
    {p : Program Q A α} {r : α} (h : p.Yields allowed r) : p.Yields allowed' r := by
  induction p with
  | done a => exact h
  | ask q next ih =>
    obtain ⟨x, hx, h⟩ := h
    exact ⟨x, ha q x hx, ih x h⟩

/-- Where every question has one answer a program comes to one thing, which is what it is run to. -/
theorem yields_env {env : ∀ q, A q} {p : Program Q A α} {r : α} :
    p.Yields (fun q x => x = env q) r ↔ r = p.run env := by
  induction p with
  | done a => rfl
  | ask q next ih =>
    constructor
    · rintro ⟨_, rfl, h⟩
      exact (ih _).mp h
    · intro h
      exact ⟨_, rfl, (ih _).mpr h⟩

/-- The program comes to this and nothing else. -/
def Comes (allowed : ∀ q, A q → Prop) (p : Program Q A α) (a : α) : Prop :=
  ∀ r, p.Yields allowed r ↔ r = a

theorem comes_done (allowed : ∀ q, A q → Prop) (a : α) : Comes allowed (.done a : Program Q A α) a :=
  fun _ => Iff.rfl

theorem Comes.bind {allowed : ∀ q, A q → Prop} {p : Program Q A α} {f : α → Program Q A β} {a : α}
    {b : β} (hp : p.Comes allowed a) (hf : (f a).Comes allowed b) : (p.bind f).Comes allowed b := by
  intro r
  rw [yields_bind]
  constructor
  · rintro ⟨a', ha, hr⟩
    obtain rfl := (hp a').mp ha
    exact (hf r).mp hr
  · intro hr
    exact ⟨a, (hp a).mpr rfl, (hf r).mpr hr⟩

theorem Comes.ask {allowed : ∀ q, A q → Prop} {q : Q} {next : A q → Program Q A α} {x : A q} {a : α}
    (hq : ∀ y, allowed q y ↔ y = x) (hn : (next x).Comes allowed a) :
    (Program.ask q next).Comes allowed a := by
  intro r
  constructor
  · rintro ⟨y, hy, hr⟩
    obtain rfl := (hq y).mp hy
    exact (hn r).mp hr
  · intro hr
    exact ⟨x, (hq x).mpr rfl, (hn r).mpr hr⟩

/-- Every question is put to a machine, which moves with it. -/
def play {W : Type} (act : ∀ q, W → A q × W) : Program Q A α → W → α × W
  | .done a, w => (a, w)
  | .ask q next, w => (next (act q w).1).play act (act q w).2

theorem play_bind {W : Type} (act : ∀ q, W → A q × W) (p : Program Q A α) (f : α → Program Q A β)
    (w : W) : (p.bind f).play act w = (f (p.play act w).1).play act (p.play act w).2 := by
  induction p generalizing w with
  | done a => rfl
  | ask q next ih => exact ih (act q w).1 (act q w).2

/-- A state that is moved by the questions of a program and their answers, and what is asked of the
questions that may be put where it has got to. -/
structure Watch (Q : Type) (A : Q → Type) (σ : Type) where
  demand : σ → Q → Prop
  move : ∀ q, A q → σ → σ

/-- Whatever the answers are, a program puts no question that may not be put, and comes to what
meets `post`. -/
def Meets {σ : Type} (watch : Watch Q A σ) (post : α → σ → Prop) : Program Q A α → σ → Prop
  | .done a, x => post a x
  | .ask q next, x => watch.demand x q ∧ ∀ y, (next y).Meets watch post (watch.move q y x)

section

variable {σ : Type} {watch : Watch Q A σ} {post : α → σ → Prop} {x : σ}

/-- The rule of consequence. -/
theorem Meets.imp {p : Program Q A α} {last : α → σ → Prop} (h : p.Meets watch post x)
    (hp : ∀ a x, post a x → last a x) : p.Meets watch last x := by
  induction p generalizing x with
  | done a => exact hp a x h
  | ask q next ih => exact ⟨h.1, fun y => ih y (h.2 y)⟩

/-- The rule of choice. -/
theorem Meets.ite {c : Prop} [Decidable c] {p p' : Program Q A α}
    (h : c → p.Meets watch post x) (h' : ¬c → p'.Meets watch post x) :
    (if c then p else p').Meets watch post x := by
  split_ifs with hc
  · exact h hc
  · exact h' hc

/-- The rule of sequence. -/
theorem Meets.bind {p : Program Q A α} {f : α → Program Q A β} {last : β → σ → Prop}
    (h : p.Meets watch post x) (hf : ∀ a x, post a x → (f a).Meets watch last x) :
    (p.bind f).Meets watch last x := by
  induction p generalizing x with
  | done a => exact hf a x h
  | ask q next ih => exact ⟨h.1, fun y => ih y (h.2 y)⟩

end

/-- One question, and its answer. -/
def query (q : Q) : Program Q A (A q) := .ask q .done

instance : Monad (Program Q A) where
  pure := done
  bind := bind

section

variable {σ : Type} {watch : Watch Q A σ} {J : σ → Prop} {x : σ}

/-- The rule of a loop, which keeps to `J`. -/
theorem Meets.forM {f : α → Program Q A PUnit} {l : List α}
    (h : ∀ a ∈ l, ∀ x, J x → (f a).Meets watch (fun _ => J) x) (hx : J x) :
    (l.forM f).Meets watch (fun _ => J) x := by
  induction l generalizing x with
  | nil => exact hx
  | cons a l ih =>
    apply (h a List.mem_cons_self x hx).bind
    exact fun _ x hx => ih (fun b hb => h b (List.mem_cons_of_mem a hb)) hx

/-- The rule of a loop that carries a value along. -/
theorem Meets.foldlM {f : β → α → Program Q A β} {l : List α}
    (h : ∀ b, ∀ a ∈ l, ∀ x, J x → (f b a).Meets watch (fun _ => J) x) (b : β) (hx : J x) :
    (l.foldlM f b).Meets watch (fun _ => J) x := by
  induction l generalizing b x with
  | nil => exact hx
  | cons a l ih =>
    apply (h b a List.mem_cons_self x hx).bind
    exact fun b x hx => ih (fun b c hc => h b c (List.mem_cons_of_mem a hc)) b hx

end

@[simp] theorem run_pure (env : ∀ q, A q) (a : α) :
    (pure a : Program Q A α).run env = a := rfl

@[simp] theorem run_monad_bind (env : ∀ q, A q) (p : Program Q A α) (f : α → Program Q A β) :
    (p >>= f).run env = (f (p.run env)).run env := run_bind env p f

end Program

/-- A program with a state `S` that may fail with an `E`, keeping the state it had reached. -/
def Routine (Q : Type) (A : Q → Type) (S E α : Type) : Type :=
  S → Program Q A (Except E α × S)

namespace Routine

variable {S E : Type}

protected def pure (a : α) : Routine Q A S E α := fun s => .done (.ok a, s)

protected def bind (t : Routine Q A S E α) (f : α → Routine Q A S E β) : Routine Q A S E β := fun s =>
  (t s).bind fun
    | (.ok a, s') => f a s'
    | (.error e, s') => .done (.error e, s')

instance : Monad (Routine Q A S E) where
  pure := Routine.pure
  bind := Routine.bind

def throw (e : E) : Routine Q A S E α := fun s => .done (.error e, s)

def ask (q : Q) : Routine Q A S E (A q) := fun s => .ask q fun a => .done (.ok a, s)

def get : Routine Q A S E S := fun s => .done (.ok s, s)

def set (s : S) : Routine Q A S E Unit := fun _ => .done (.ok (), s)

def modify (f : S → S) : Routine Q A S E Unit := fun s => .done (.ok (), f s)

def ofExcept : Except E α → Routine Q A S E α
  | .ok a => Routine.pure a
  | .error e => throw e

/-- Runs a routine and turns what it came to, value or error, into a value. -/
def attempt (t : Routine Q A S E α) : Routine Q A S E (Except E α) := fun s =>
  (t s).bind fun (r, s') => .done (.ok r, s')

def exec (env : ∀ q, A q) (t : Routine Q A S E α) (s : S) : Except E α × S := (t s).run env

variable (env : ∀ q, A q) (s : S)

@[simp] theorem exec_pure (a : α) : exec env (pure a : Routine Q A S E α) s = (.ok a, s) := rfl

@[simp] theorem exec_throw (e : E) :
    exec env (throw e : Routine Q A S E α) s = (.error e, s) := rfl

@[simp] theorem exec_ask (q : Q) :
    exec env (ask q : Routine Q A S E (A q)) s = (.ok (env q), s) := rfl

@[simp] theorem exec_get : exec env (get : Routine Q A S E S) s = (.ok s, s) := rfl

@[simp] theorem exec_set (s' : S) :
    exec env (set s' : Routine Q A S E Unit) s = (.ok (), s') := rfl

@[simp] theorem exec_ofExcept_ok (a : α) :
    exec env (ofExcept (.ok a) : Routine Q A S E α) s = (.ok a, s) := rfl

@[simp] theorem exec_ofExcept_error (e : E) :
    exec env (ofExcept (.error e) : Routine Q A S E α) s = (.error e, s) := rfl

@[simp] theorem exec_attempt (t : Routine Q A S E α) :
    exec env t.attempt s = (.ok (exec env t s).1, (exec env t s).2) := by
  simp [exec, attempt]

theorem exec_bind (t : Routine Q A S E α) (f : α → Routine Q A S E β) :
    exec env (t >>= f) s = match exec env t s with
      | (.ok a, s') => exec env (f a) s'
      | (.error e, s') => (.error e, s') := by
  change ((t s).bind _).run env = _
  rw [Program.run_bind]
  change _ = match (t s).run env with
      | (.ok a, s') => exec env (f a) s'
      | (.error e, s') => (.error e, s')
  cases (t s).run env with
  | mk r s' => cases r <;> rfl

/-- The rule by which a proof follows a routine step by step. -/
theorem exec_bind_ok {t : Routine Q A S E α} {s' : S} {a : α} (h : exec env t s = (.ok a, s'))
    (f : α → Routine Q A S E β) : exec env (t >>= f) s = exec env (f a) s' := by
  rw [exec_bind, h]

theorem exec_bind_error {t : Routine Q A S E α} {s' : S} {e : E}
    (h : exec env t s = (.error e, s')) (f : α → Routine Q A S E β) :
    exec env (t >>= f) s = (.error e, s') := by
  rw [exec_bind, h]

/-- What came to a value came to one at every step. -/
theorem exec_bind_eq_ok {t : Routine Q A S E α} {f : α → Routine Q A S E β} {s' : S} {b : β}
    (h : exec env (t >>= f) s = (.ok b, s')) :
    ∃ a s'', exec env t s = (.ok a, s'') ∧ exec env (f a) s'' = (.ok b, s') := by
  rw [exec_bind] at h
  cases ht : exec env t s with
  | mk r s'' =>
    rw [ht] at h
    cases r with
    | ok a => exact ⟨a, s'', rfl, h⟩
    | error e => cases h

theorem exec_ofExcept_eq_ok {r : Except E α} {s' : S} {a : α}
    (h : exec env (ofExcept r : Routine Q A S E α) s = (.ok a, s')) : r = .ok a ∧ s' = s := by
  cases r with
  | ok a' =>
    cases h
    exact ⟨rfl, rfl⟩
  | error e => cases h

/-! ## Routines in more than one environment -/

variable {allowed : ∀ q, A q → Prop} {s s' : S}

theorem comes_bind {t : Routine Q A S E α} {f : α → Routine Q A S E β} {a : α}
    {v : Except E β × S} (ht : (t s).Comes allowed (.ok a, s')) (hf : (f a s').Comes allowed v) :
    ((t >>= f) s).Comes allowed v := ht.bind hf

theorem comes_bind_error {t : Routine Q A S E α} {f : α → Routine Q A S E β} {e : E}
    (ht : (t s).Comes allowed (.error e, s')) : ((t >>= f) s).Comes allowed (.error e, s') :=
  ht.bind (Program.comes_done allowed _)

theorem comes_ofExcept (r : Except E α) :
    ((ofExcept r : Routine Q A S E α) s).Comes allowed (r, s) := by
  cases r <;> exact Program.comes_done allowed _

theorem Yields.bind_ok {t : Routine Q A S E α} {f : α → Routine Q A S E β} {a : α}
    {v : Except E β × S} (ht : (t s).Yields allowed (.ok a, s')) (hf : (f a s').Yields allowed v) :
    ((t >>= f) s).Yields allowed v := Program.yields_bind.mpr ⟨_, ht, hf⟩

/-- What came to a value came to one at every step. -/
theorem yields_bind_ok {t : Routine Q A S E α} {f : α → Routine Q A S E β} {b : β}
    (h : ((t >>= f) s).Yields allowed (.ok b, s')) :
    ∃ a s'', (t s).Yields allowed (.ok a, s'') ∧ (f a s'').Yields allowed (.ok b, s') := by
  obtain ⟨⟨r, s''⟩, ht, h⟩ := Program.yields_bind.mp h
  cases r with
  | ok a => exact ⟨a, s'', ht, h⟩
  | error e => cases h

/-! ## What a routine keeps to -/

section

variable {σ : Type} {watch : Program.Watch Q A σ} {J : S → σ → Prop}

/-- However it ends, a routine puts no question that may not be put and keeps to `J`. -/
def Stays (watch : Program.Watch Q A σ) (J : S → σ → Prop) (t : Routine Q A S E α) : Prop :=
  ∀ s x, J s x → (t s).Meets watch (fun r x => J r.2 x) x

theorem Stays.bind {t : Routine Q A S E α} {f : α → Routine Q A S E β} (ht : t.Stays watch J)
    (hf : ∀ a, (f a).Stays watch J) : (t >>= f).Stays watch J := by
  intro s x hs
  apply (ht s x hs).bind
  intro r x hr
  obtain ⟨r, s'⟩ := r
  cases r with
  | ok a => exact hf a s' x hr
  | error e => exact hr

theorem Stays.forM {f : α → Routine Q A S E PUnit} {l : List α}
    (h : ∀ a ∈ l, (f a).Stays watch J) : (l.forM f).Stays watch J := by
  induction l with
  | nil => exact fun _ _ hs => hs
  | cons a l ih =>
    apply Stays.bind (h a List.mem_cons_self)
    intro _
    exact ih fun b hb => h b (List.mem_cons_of_mem a hb)

end

end Routine

end QueryProgram
