/-!
# Procedures on a state that may fail

A procedure reads and writes a state and returns a result or an error. What it has done before
it fails stays done. `Proc.wp` is the condition on the state before it under which it ends as
wished, with one rule for each way to build a procedure.
-/

namespace SavannahNode

/-- A procedure on a state `σ` that returns an `α` or fails with an `ε`. -/
abbrev Proc (σ ε α : Type) := ExceptT ε (StateM σ) α

namespace Proc

variable {σ ε α β : Type}

/-- The result and the state a procedure ends with. -/
def exec (x : Proc σ ε α) (s : σ) : Except ε α × σ := x s

/-- Return an error instead of failing. -/
def attempt (x : Proc σ ε α) : Proc σ ε (Except ε α) := fun s => (.ok (x.exec s).1, (x.exec s).2)

/-- Read from the state. -/
def read (f : σ → α) : Proc σ ε α := fun s => (.ok (f s), s)

/-- Change the state. -/
def update (f : σ → σ) : Proc σ ε Unit := fun s => (.ok (), f s)

/-- Fail. -/
def fail (e : ε) : Proc σ ε α := fun s => (.error e, s)

/-- The procedure ends with a result and a state that satisfy `Q`. -/
def wp (x : Proc σ ε α) (Q : Except ε α → σ → Prop) (s : σ) : Prop := Q (x.exec s).1 (x.exec s).2

/-- What must hold between the two parts of a procedure. -/
def Between (f : α → Proc σ ε β) (Q : Except ε β → σ → Prop) : Except ε α → σ → Prop
  | .ok a, s => (f a).wp Q s
  | .error e, s => Q (.error e) s

variable {x : Proc σ ε α} {f : α → Proc σ ε β} {Q Q' : Except ε α → σ → Prop}
  {R : Except ε β → σ → Prop} {s : σ}

theorem wp_mono (h : ∀ r s', Q r s' → Q' r s') (hx : x.wp Q s) : x.wp Q' s := h _ _ hx

theorem wp_congr {y : Proc σ ε α} (h : x.exec s = y.exec s) : x.wp Q s ↔ y.wp Q s := by
  rw [wp, wp, h]

@[simp] theorem wp_pure (a : α) : (pure a : Proc σ ε α).wp Q s ↔ Q (.ok a) s := Iff.rfl

@[simp] theorem wp_update {Q : Except ε Unit → σ → Prop} (g : σ → σ) :
    (update g : Proc σ ε Unit).wp Q s ↔ Q (.ok ()) (g s) := Iff.rfl

@[simp] theorem wp_attempt {Q : Except ε (Except ε α) → σ → Prop} :
    x.attempt.wp Q s ↔ x.wp (fun r => Q (.ok r)) s := Iff.rfl

theorem exec_bind : (x >>= f : Proc σ ε β).exec s =
    (ExceptT.bindCont f (x.exec s).1 : StateM σ (Except ε β)) (x.exec s).2 := rfl

theorem wp_bind : (x >>= f : Proc σ ε β).wp R s ↔ x.wp (Between f R) s := by
  rw [wp, exec_bind, wp]
  cases (x.exec s).1 with
  | ok a => exact Iff.rfl
  | error e => exact Iff.rfl

@[simp] theorem between_ok (a : α) : Between f R (.ok a) s ↔ (f a).wp R s := Iff.rfl

@[simp] theorem wp_read_bind (g : σ → α) :
    (read g >>= f : Proc σ ε β).wp R s ↔ (f (g s)).wp R s := Iff.rfl

@[simp] theorem wp_update_bind {f : Unit → Proc σ ε β} (g : σ → σ) :
    (update g >>= f : Proc σ ε β).wp R s ↔ (f ()).wp R (g s) := Iff.rfl

/-- The procedure returns a result and a state that satisfy `Q`, or an error that satisfies `E`. -/
def Ends (E : ε → Prop) (Q : α → σ → Prop) : Except ε α → σ → Prop
  | .ok a, s => Q a s
  | .error e, _ => E e

section Ends

variable {E : ε → Prop} {P : α → σ → Prop} {R : β → σ → Prop}

/-- One procedure after another. -/
theorem ends_bind (hx : x.wp (Ends E P) s) (hf : ∀ a s', P a s' → (f a).wp (Ends E R) s') :
    (x >>= f : Proc σ ε β).wp (Ends E R) s := by
  rw [wp_bind]
  refine wp_mono (fun r s' hr => ?_) hx
  cases r with
  | ok a => exact hf a s' hr
  | error e => exact hr

end Ends

/-- The procedure cannot tell apart states that `S` relates. -/
def Respects (S : σ → σ → Prop) (x : Proc σ ε α) : Prop :=
  ∀ s t, S s t → (x.exec s).1 = (x.exec t).1 ∧ S (x.exec s).2 (x.exec t).2

theorem Respects.bind {S : σ → σ → Prop} (hx : x.Respects S) (hf : ∀ a, (f a).Respects S) :
    (x >>= f : Proc σ ε β).Respects S := by
  intro s t h
  obtain ⟨hr, h⟩ := hx s t h
  rw [exec_bind, exec_bind, hr]
  cases (x.exec t).1 with
  | ok a => exact hf a _ _ h
  | error e => exact ⟨rfl, h⟩

end Proc

end SavannahNode
