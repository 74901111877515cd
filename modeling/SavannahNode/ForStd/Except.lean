import Mathlib.Data.List.Forall2

/-!
# Computations that may fail

Inversion of `Except` computations that return, and the invariant rule of a loop whose body
may fail.
-/

namespace Except

open Except

universe u v w

variable {ε : Type u} {α β : Type v}

variable {x : Except ε α} {f : α → Except ε β} {a : α} {e : ε} {c : Prop} {o : Option α}
  [Decidable c]

theorem bind_eq_ok {b : β} : x >>= f = .ok b ↔ ∃ a, x = .ok a ∧ f a = .ok b := by
  cases x with
  | error e =>
    constructor
    · intro h
      cases h
    · rintro ⟨a, h, -⟩
      cases h
  | ok a =>
    constructor
    · exact fun h => ⟨a, rfl, h⟩
    rintro ⟨a', h, h'⟩
    cases h
    exact h'

/-- A computation after a part that returns. -/
theorem bind_of_ok (hx : x = .ok a) : x >>= f = f a := by
  rw [hx]
  rfl

/-- A computation that starts with a check. -/
theorem then_eq_ok {β : Type} {x : Except ε Unit} {f : Unit → Except ε β} {b : β} :
    x >>= f = .ok b ↔ x = .ok () ∧ f () = .ok b := by
  rw [bind_eq_ok]
  constructor
  · rintro ⟨u, hx, hf⟩
    exact ⟨hx, hf⟩
  · exact fun h => ⟨(), h⟩

/-- For the checks among the parts of a computation, after `bind_eq_ok`. -/
theorem exists_unit {p : Unit → Prop} : (∃ u, p u) ↔ p () := Unique.exists_iff

/-- A computation fails in its first part or in the rest. -/
theorem bind_eq_error : x >>= f = .error e ↔ x = .error e ∨ ∃ a, x = .ok a ∧ f a = .error e := by
  cases x with
  | error e' =>
    constructor
    · exact fun h => .inl (congrArg error (error.inj h))
    rintro (h | ⟨a, h, -⟩)
    · exact congrArg error (error.inj h)
    · cases h
  | ok a =>
    constructor
    · exact fun h => .inr ⟨a, rfl, h⟩
    rintro (h | ⟨a', h, h'⟩)
    · cases h
    · cases h
      exact h'

theorem mapError_eq_ok {ε' : Type w} {f : ε → ε'} : x.mapError f = .ok a ↔ x = .ok a := by
  cases x with
  | error e =>
    constructor <;>
    · intro h
      cases h
  | ok a' =>
    constructor
    · exact fun h => congrArg _ (ok.inj h)
    · exact fun h => congrArg _ (ok.inj h)

/-- Fail if the condition holds. -/
def failIf (c : Prop) [Decidable c] (e : ε) : Except ε Unit := if c then .error e else .ok ()

/-- Run a check only if the condition holds. -/
def onlyIf (c : Bool) (x : Except ε Unit) : Except ε Unit := if c then x else .ok ()

/-- The value, if there is one. -/
def ofOption (e : ε) : Option α → Except ε α
  | none => .error e
  | some a => .ok a

theorem failIf_eq_ok {u : Unit} : failIf c e = .ok u ↔ ¬c := by
  rw [failIf]
  split
  · exact iff_of_false (fun h => by cases h) (not_not_intro ‹_›)
  · exact iff_of_true rfl ‹_›

theorem failIf_of_not (h : ¬c) : failIf c e = .ok () := failIf_eq_ok.mpr h

theorem failIf_eq_error {e' : ε} (h : failIf c e = .error e') : e' = e := by
  rw [failIf] at h
  split at h
  · exact (error.inj h).symm
  · cases h

theorem onlyIf_eq_ok {c : Bool} {x : Except ε Unit} {u : Unit} (hc : c = true) :
    onlyIf c x = .ok u ↔ x = .ok () := by
  rw [onlyIf, if_pos hc]

theorem ofOption_eq_ok : ofOption e o = .ok a ↔ o = some a := by
  cases o with
  | none =>
    constructor <;>
    · intro h
      cases h
  | some a' => exact ⟨fun h => congrArg some (ok.inj h), fun h => congrArg ok (Option.some.inj h)⟩

theorem ofOption_eq_error {e' : ε} (h : ofOption e o = .error e') : o = none ∧ e' = e := by
  cases o with
  | none => exact ⟨rfl, (error.inj h).symm⟩
  | some a => cases h

/-- If the computation fails, the error has the property. -/
structure FailsOnly (x : Except ε α) (P : ε → Prop) : Prop where
  of_error : ∀ e, x = .error e → P e

section

variable {P : ε → Prop} {e : ε} {c : Prop} [Decidable c]

@[simp] theorem failsOnly_ok (a : α) : (ok a : Except ε α).FailsOnly P := by
  constructor
  intro e h
  cases h

@[simp] theorem failsOnly_pure (a : α) : (pure a : Except ε α).FailsOnly P := failsOnly_ok a

@[simp] theorem failsOnly_error_iff : (error e : Except ε α).FailsOnly P ↔ P e := by
  refine ⟨fun h => h.of_error e rfl, fun h => ⟨?_⟩⟩
  intro e' he'
  cases he'
  exact h

/-- A computation fails as its parts do. -/
@[simp] theorem failsOnly_bind_iff {x : Except ε α} {f : α → Except ε β} :
    (x >>= f).FailsOnly P ↔ x.FailsOnly P ∧ ∀ a, x = .ok a → (f a).FailsOnly P := by
  constructor
  · refine fun h => ⟨⟨fun e he => ?_⟩, fun a ha => ⟨fun e he => ?_⟩⟩
    · exact h.of_error e (bind_eq_error.mpr (.inl he))
    · exact h.of_error e (bind_eq_error.mpr (.inr ⟨a, ha, he⟩))
  rintro ⟨hx, hf⟩
  constructor
  intro e h
  rcases bind_eq_error.mp h with h | ⟨a, ha, h⟩
  · exact hx.of_error e h
  · exact (hf a ha).of_error e h

@[simp] theorem failsOnly_failIf (h : P e) : (failIf c e).FailsOnly P := by
  constructor
  intro e' he'
  rw [failIf_eq_error he']
  exact h

@[simp] theorem failsOnly_ite_iff {x y : Except ε α} :
    (if c then x else y).FailsOnly P ↔ (c → x.FailsOnly P) ∧ (¬c → y.FailsOnly P) := by
  split <;> simp [*]

@[simp] theorem failsOnly_onlyIf_iff {c : Bool} {x : Except ε Unit} :
    (onlyIf c x).FailsOnly P ↔ (c = true → x.FailsOnly P) := by
  cases c <;> simp [onlyIf]

@[simp] theorem failsOnly_ofOption (h : P e) : (ofOption e o).FailsOnly P := by
  constructor
  intro e' he'
  rw [(ofOption_eq_error he').2]
  exact h

end

/-- The error of a computation that fails. -/
def failure : Except ε α → Option ε
  | .error e => some e
  | .ok _ => none

theorem failure_eq_some : x.failure = some e ↔ x = .error e := by
  cases x with
  | error e' => exact ⟨fun h => congrArg _ (Option.some.inj h), fun h => congrArg _ (error.inj h)⟩
  | ok a =>
    constructor <;>
    · intro h
      cases h

/-- A computation returns, by what can be evaluated of its result. -/
theorem exists_of_observed {f : α → β} {b : β} (h : x.toOption.map f = some b) :
    ∃ a, x = .ok a ∧ f a = b := by
  cases x with
  | error e => cases h
  | ok a => exact ⟨a, rfl, Option.some.inj h⟩

end Except

namespace List

universe u v w

variable {ε : Type u} {σ : Type v} {α : Type w}

variable {l : List α} {β : Type w} {P : ε → Prop} {f : σ → α → Except ε σ} {r : List β}

theorem forM_eq_ok {f : α → Except ε PUnit} {u : PUnit} :
    l.forM f = .ok u ↔ ∀ a ∈ l, f a = .ok .unit := by
  induction l with
  | nil => exact iff_of_true rfl fun a ha => absurd ha not_mem_nil
  | cons b l ih =>
    rw [forall_mem_cons, ← ih]
    exact Except.bind_eq_ok.trans Unique.exists_iff

/-- The results of a computation on every element. -/
theorem mapM_ok {f : α → Except ε β} (h : l.mapM f = .ok r) :
    Forall₂ (fun a b => f a = .ok b) l r := by
  induction l generalizing r with
  | nil =>
    cases h
    exact .nil
  | cons a l ih =>
    rw [mapM_cons] at h
    obtain ⟨b, hb, h⟩ := Except.bind_eq_ok.mp h
    obtain ⟨r', hr', h⟩ := Except.bind_eq_ok.mp h
    cases h
    exact .cons hb (ih hr')

/-- Every result comes from an element. -/
theorem Forall₂.exists_left {R : α → β → Prop} (h : Forall₂ R l r) {b : β} (hb : b ∈ r) :
    ∃ a ∈ l, R a b := by
  induction h with
  | nil => exact absurd hb not_mem_nil
  | cons hab _ ih =>
    rcases mem_cons.mp hb with rfl | hb
    · exact ⟨_, mem_cons_self, hab⟩
    obtain ⟨a, ha, hR⟩ := ih hb
    exact ⟨a, mem_cons_of_mem _ ha, hR⟩

@[simp] theorem failsOnly_forM {f : α → Except ε PUnit} (h : ∀ a, (f a).FailsOnly P) :
    (forM l f).FailsOnly P := by
  induction l with
  | nil => exact Except.failsOnly_ok _
  | cons a l ih => simp [h a, ih]

@[simp] theorem failsOnly_mapM {f : α → Except ε β} (h : ∀ a, (f a).FailsOnly P) :
    (l.mapM f).FailsOnly P := by
  induction l with
  | nil => simp
  | cons a l ih =>
    rw [mapM_cons, Except.failsOnly_bind_iff]
    exact ⟨h a, fun _ _ => Except.failsOnly_bind_iff.mpr ⟨ih, fun _ _ => Except.failsOnly_ok _⟩⟩

@[simp] theorem failsOnly_foldlM (h : ∀ s a, (f s a).FailsOnly P) (s : σ) :
    (l.foldlM f s).FailsOnly P := by
  induction l generalizing s with
  | nil => simp
  | cons a l ih => simp [h s a, ih]

/-- What every iteration that returns keeps, a loop that returns keeps. -/
theorem foldlM_ok {P : σ → Prop} {s s' : σ} (h : l.foldlM f s = .ok s') (hs : P s)
    (hstep : ∀ s a s', a ∈ l → P s → f s a = .ok s' → P s') : P s' := by
  induction l generalizing s with
  | nil => exact Except.ok.inj h ▸ hs
  | cons a l ih =>
    obtain ⟨s1, hs1, h⟩ := Except.bind_eq_ok.mp h
    exact ih h (hstep s a s1 mem_cons_self hs hs1) fun s b s' hb =>
      hstep s b s' (mem_cons_of_mem a hb)

/-- The same with the iterations done so far. -/
theorem foldlM_ok_history {P : List α → σ → Prop} {s s' : σ} (h : l.foldlM f s = .ok s')
    (hs : P [] s) (hstep : ∀ done a rest s s', l = done ++ a :: rest → P done s → f s a = .ok s' →
      P (done ++ [a]) s') : P l s' := by
  suffices hall : ∀ (rest done : List α) (s : σ), l = done ++ rest → P done s →
      rest.foldlM f s = .ok s' → P l s' from hall l [] s rfl hs h
  intro rest
  induction rest with
  | nil =>
    intro done s hl hs h
    rw [append_nil] at hl
    rw [hl, ← Except.ok.inj h]
    exact hs
  | cons a rest ih =>
    intro done s hl hs h
    obtain ⟨s1, hs1, h⟩ := Except.bind_eq_ok.mp h
    exact ih (done ++ [a]) s1 (by simp [hl]) (hstep done a rest s s1 hl hs hs1) h

end List
