import Mathlib.Init

/-!
# Rules for transactions

A transaction is an `EStateM` computation: it changes a state step by step and may stop with an
error, in the state it had reached. `Keeps P` says that a computation that comes to a value leaves
`P` true, `Settles P` that one does so however it ends, and `Goes P x Q` that from where `P` is true
it comes to a value and leaves `Q` true. All are put together along the sequence of the computation.
-/

namespace Transaction

variable {ε σ α β : Type} {P Q R : σ → Prop}

/-- The state a computation ends in, whatever it came to. -/
def final : EStateM.Result ε σ α → σ
  | .ok _ s => s
  | .error _ s => s

def Keeps (P : σ → Prop) (x : EStateM ε σ α) : Prop := ∀ s a s', P s → x s = .ok a s' → P s'

def Settles (P : σ → Prop) (x : EStateM ε σ α) : Prop := ∀ s, P s → P (final (x s))

def Goes (P : σ → Prop) (x : EStateM ε σ α) (Q : σ → Prop) : Prop :=
  ∀ s, P s → ∃ a s', x s = .ok a s' ∧ Q s'

theorem bind_eq_ok {x : EStateM ε σ α} {f : α → EStateM ε σ β} {s s' : σ} {b : β}
    (h : (x >>= f) s = .ok b s') : ∃ a t, x s = .ok a t ∧ f a t = .ok b s' := by
  change EStateM.bind x f s = _ at h
  unfold EStateM.bind at h
  cases hx : x s with
  | ok a t =>
    rw [hx] at h
    exact ⟨a, t, rfl, h⟩
  | error e t =>
    rw [hx] at h
    cases h

@[simp] theorem modify_apply (f : σ → σ) (s : σ) :
    (modify f : EStateM ε σ PUnit) s = .ok ⟨⟩ (f s) := rfl

theorem modify_eq_ok {f : σ → σ} {s s' : σ} {u : PUnit}
    (h : (modify f : EStateM ε σ PUnit) s = .ok u s') : s' = f s := by
  cases h
  rfl

theorem forM_cons_eq_ok {f : α → EStateM ε σ PUnit} {a : α} {l : List α} {s s' : σ} {u : PUnit}
    (h : (a :: l).forM f s = .ok u s') : ∃ t, f a s = .ok ⟨⟩ t ∧ l.forM f t = .ok u s' := by
  obtain ⟨v, t, ha, hl⟩ := bind_eq_ok (x := f a) (f := fun _ => l.forM f) h
  exact ⟨t, ha, hl⟩

namespace Keeps

theorem modify {f : σ → σ} (h : ∀ s, P s → P (f s)) :
    Keeps P (modify f : EStateM ε σ PUnit) := by
  intro s a s' hs he
  rw [modify_eq_ok he]
  exact h s hs

theorem bind {x : EStateM ε σ α} {f : α → EStateM ε σ β} (hx : Keeps P x)
    (hf : ∀ a, Keeps P (f a)) : Keeps P (x >>= f) := by
  intro s b s' hs he
  obtain ⟨a, t, ha, hb⟩ := bind_eq_ok he
  exact hf a t b s' (hx s a t hs ha) hb

theorem forM {f : α → EStateM ε σ PUnit} {l : List α} (h : ∀ a ∈ l, Keeps P (f a)) :
    Keeps P (l.forM f) := by
  induction l with
  | nil =>
    intro s a s' hs he
    cases he
    exact hs
  | cons a l ih =>
    apply bind (h a List.mem_cons_self)
    intro _
    exact ih fun b hb => h b (List.mem_cons_of_mem a hb)

end Keeps

namespace Settles

theorem modify {f : σ → σ} (h : ∀ s, P s → P (f s)) :
    Settles P (modify f : EStateM ε σ PUnit) := h

theorem bind {x : EStateM ε σ α} {f : α → EStateM ε σ β} (hx : Settles P x)
    (hf : ∀ a, Settles P (f a)) : Settles P (x >>= f) := by
  intro s hs
  have hs' := hx s hs
  change P (final (EStateM.bind x f s))
  unfold EStateM.bind
  cases he : x s with
  | ok a t =>
    rw [he] at hs'
    exact hf a t hs'
  | error e t =>
    rw [he] at hs'
    exact hs'

theorem forM {f : α → EStateM ε σ PUnit} {l : List α} (h : ∀ a ∈ l, Settles P (f a)) :
    Settles P (l.forM f) := by
  induction l with
  | nil => exact fun s hs => hs
  | cons a l ih =>
    apply bind (h a List.mem_cons_self)
    intro _
    exact ih fun b hb => h b (List.mem_cons_of_mem a hb)

end Settles

namespace Goes

theorem modify {f : σ → σ} (h : ∀ s, P s → Q (f s)) :
    Goes P (modify f : EStateM ε σ PUnit) Q := fun s hs => ⟨⟨⟩, f s, rfl, h s hs⟩

theorem bind {x : EStateM ε σ α} {f : α → EStateM ε σ β} (hx : Goes P x R)
    (hf : ∀ a, Goes R (f a) Q) : Goes P (x >>= f) Q := by
  intro s hs
  obtain ⟨a, t, ha, ht⟩ := hx s hs
  obtain ⟨b, s', hb, hq⟩ := hf a t ht
  refine ⟨b, s', ?_, hq⟩
  change EStateM.bind x f s = _
  unfold EStateM.bind
  rw [ha]
  exact hb

theorem forM {f : α → EStateM ε σ PUnit} {l : List α} (h : ∀ a ∈ l, Goes P (f a) P) :
    Goes P (l.forM f) P := by
  induction l with
  | nil => exact fun s hs => ⟨⟨⟩, s, rfl, hs⟩
  | cons a l ih =>
    apply bind (h a List.mem_cons_self)
    intro _
    exact ih fun b hb => h b (List.mem_cons_of_mem a hb)

end Goes

/-- Every step of a loop that came to its end was taken from a state the loop keeps to. -/
theorem exists_step_of_mem {f : α → EStateM ε σ PUnit} {l : List α} (hk : ∀ a ∈ l, Keeps P (f a))
    {s s' : σ} {u : PUnit} (hs : P s) (hl : l.forM f s = .ok u s') {a : α} (ha : a ∈ l) :
    ∃ t t', P t ∧ f a t = .ok ⟨⟩ t' := by
  induction l generalizing s with
  | nil => cases ha
  | cons b l ih =>
    obtain ⟨t, hb, hl⟩ := forM_cons_eq_ok hl
    rcases List.mem_cons.mp ha with rfl | ha
    · exact ⟨s, t, hs, hb⟩
    · exact ih (fun c hc => hk c (List.mem_cons_of_mem b hc)) (hk b List.mem_cons_self s _ t hs hb)
        hl ha

/-- A part of the state that every step moves by a function of its own is moved by a fold. -/
theorem forM_fold {γ : Type} {f : α → EStateM ε σ PUnit} {g : σ → γ} {move : γ → α → γ}
    (h : ∀ a s s', f a s = .ok ⟨⟩ s' → g s' = move (g s) a) {l : List α} {s s' : σ} {u : PUnit}
    (hl : l.forM f s = .ok u s') : g s' = l.foldl move (g s) := by
  induction l generalizing s with
  | nil =>
    cases hl
    rfl
  | cons a l ih =>
    obtain ⟨t, ha, hl⟩ := forM_cons_eq_ok hl
    rw [List.foldl_cons, ← h a s t ha]
    exact ih hl

end Transaction
