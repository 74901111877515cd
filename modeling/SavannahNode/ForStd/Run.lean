/-!
# Runs of a machine

A run applies a list of operations to a state, one after the other. Its properties
often talk about the operations so far as well as about the state, so the induction
rules here carry the history along: it grows at its end.
-/

namespace List

universe u v w

variable {σ : Type u} {α : Type v}

variable {f : σ → α → Option σ} {s s' : σ} {ops l : List α} {P : σ → α → Prop} {I : σ → Prop}
  {β : Type w} {a : α}

/-- A property of history and state that every operation keeps holds after every run. -/
theorem foldl_history {P : List α → σ → Prop} {f : σ → α → σ} (hinit : P [] s)
    (hstep : ∀ hist s a, P hist s → P (hist ++ [a]) (f s a)) (ops : List α) :
    P ops (ops.foldl f s) := by
  suffices h : ∀ (ops hist : List α) (s : σ), P hist s → P (hist ++ ops) (ops.foldl f s) from
    h ops [] s hinit
  intro ops
  induction ops with
  | nil =>
    intro hist s h
    simpa using h
  | cons a ops ih =>
    intro hist s h
    have := ih (hist ++ [a]) (f s a) (hstep hist s a h)
    simpa using this

/-- The same for operations that can fail: if none does where the property holds, the run
    succeeds. A step may use where in the list it stands. -/
theorem foldlM_history {P : List α → σ → Prop} (hinit : P [] s)
    (hstep : ∀ hist a rest s, ops = hist ++ a :: rest → P hist s →
      ∃ s', f s a = some s' ∧ P (hist ++ [a]) s') :
    ∃ s', ops.foldlM f s = some s' ∧ P ops s' := by
  suffices h : ∀ (rest hist : List α) (s : σ), ops = hist ++ rest → P hist s →
      ∃ s', rest.foldlM f s = some s' ∧ P ops s' from h ops [] s rfl hinit
  intro rest
  induction rest with
  | nil =>
    intro hist s hops h
    rw [append_nil] at hops
    exact ⟨s, rfl, hops ▸ h⟩
  | cons a rest ih =>
    intro hist s hops h
    obtain ⟨s', hs', h'⟩ := hstep hist a rest s hops h
    obtain ⟨s'', hs'', h''⟩ := ih (hist ++ [a]) s' (by simp [hops]) h'
    exact ⟨s'', by rw [foldlM_cons, hs']; exact hs'', h''⟩

/-- `P` holds of every operation of a run and the state it is applied to. -/
def Throughout (P : σ → α → Prop) (f : σ → α → Option σ) : σ → List α → Prop
  | _, [] => True
  | s, a :: ops => P s a ∧ ∀ s', f s a = some s' → Throughout P f s' ops

/-- What every operation that meets a condition keeps, a run keeps that meets it throughout;
    and if no such operation fails, neither does the run. -/
theorem Throughout.foldlM (hstep : ∀ s a, I s → P s a → ∃ s', f s a = some s' ∧ I s') (h : I s)
    (hops : Throughout P f s ops) : ∃ s', ops.foldlM f s = some s' ∧ I s' := by
  induction ops generalizing s with
  | nil => exact ⟨s, rfl, h⟩
  | cons a ops ih =>
    obtain ⟨s', hs', h'⟩ := hstep s a h hops.1
    obtain ⟨s'', hs'', h''⟩ := ih h' (hops.2 s' hs')
    exact ⟨s'', by rw [foldlM_cons, hs']; exact hs'', h''⟩

/-- The same for runs in which operations may fail, as long as the run does not. -/
theorem Throughout.of_foldlM (hstep : ∀ s a s', I s → P s a → f s a = some s' → I s') (h : I s)
    (hops : Throughout P f s ops) (hrun : ops.foldlM f s = some s') : I s' := by
  induction ops generalizing s with
  | nil =>
    cases hrun
    exact h
  | cons a ops ih =>
    obtain ⟨s1, hs1, hrun⟩ := Option.bind_eq_some_iff.mp hrun
    exact ih (hstep s a s1 h hops.1 hs1) (hops.2 s1 hs1) hrun

/-- What every operation keeps that does not fail, a run keeps. -/
theorem foldlM_keeps (hstep : ∀ s a s', I s → f s a = some s' → I s') (h : I s)
    (hrun : ops.foldlM f s = some s') : I s' := by
  induction ops generalizing s with
  | nil =>
    cases hrun
    exact h
  | cons a ops ih =>
    obtain ⟨s1, hs1, hrun⟩ := Option.bind_eq_some_iff.mp hrun
    exact ih (hstep s a s1 h hs1) hrun

/-- What no operation changes, a run does not change. -/
theorem foldl_frame {g : σ → β} {f : σ → α → σ} (h : ∀ s a, g (f s a) = g s) (l : List α) (s : σ) :
    g (l.foldl f s) = g s := by
  induction l generalizing s with
  | nil => rfl
  | cons a l ih => rw [foldl_cons, ih, h]

/-- `P` holds of every element of a list and those before it. -/
def AtEach (P : List α → α → Prop) (l : List α) : Prop :=
  ∀ pre a post, l = pre ++ a :: post → P pre a

theorem atEach_nil (P : List α → α → Prop) : AtEach P [] := by
  intro pre a post h
  simp at h

theorem atEach_cons {P : List α → α → Prop} :
    AtEach P (a :: l) ↔ P [] a ∧ AtEach (fun pre => P (a :: pre)) l := by
  constructor
  · intro h
    refine ⟨h [] a l rfl, fun pre b post hl => ?_⟩
    exact h (a :: pre) b post (by rw [hl, cons_append])
  intro h pre b post hl
  cases pre with
  | nil =>
    cases hl
    exact h.1
  | cons c pre =>
    cases hl
    exact h.2 pre b post rfl

instance decidableAtEach : (P : List α → α → Prop) → [∀ pre a, Decidable (P pre a)] →
    (l : List α) → Decidable (AtEach P l)
  | P, _, [] => .isTrue (atEach_nil P)
  | P, _, a :: l =>
    have := decidableAtEach (fun pre => P (a :: pre)) l
    decidable_of_iff' _ atEach_cons

theorem atEach_concat {P : List α → α → Prop} : AtEach P (l ++ [a]) ↔ AtEach P l ∧ P l a := by
  constructor
  · intro h
    constructor
    · intro pre b post hl
      exact h pre b (post ++ [a]) (by rw [hl, append_assoc, cons_append])
    · exact h l a [] rfl
  intro h pre b post hl
  -- the element is the last one, or it was in the list already
  rcases eq_nil_or_concat post with rfl | ⟨post', c, rfl⟩
  · obtain ⟨rfl, hab⟩ := append_inj' hl rfl
    cases hab
    exact h.2
  rw [concat_eq_append, ← cons_append, ← append_assoc] at hl
  exact h.1 pre b post' (append_inj_left' hl rfl)

/-- What every operation keeps that meets a condition, a run keeps that meets it at each. -/
theorem AtEach.foldl {f : σ → α → σ} {C : σ → α → Prop} (hinit : I s)
    (hstep : ∀ s a, I s → C s a → I (f s a)) (h : AtEach (fun pre a => C (pre.foldl f s) a) ops) :
    I (ops.foldl f s) := by
  have hist := foldl_history (f := f) (s := s)
    (P := fun hist s' => s' = hist.foldl f s ∧
      (AtEach (fun pre a => C (pre.foldl f s) a) hist → I s'))
    ⟨rfl, fun _ => hinit⟩ ?_ ops
  · exact hist.2 h
  · intro hist s' a hs'
    refine ⟨by rw [foldl_append, hs'.1]; rfl, fun hat => ?_⟩
    obtain ⟨hpre, ha⟩ := atEach_concat.mp hat
    exact hstep s' a (hs'.2 hpre) (hs'.1 ▸ ha)

/-- An observer that folds over a list has come to `o`, and each element was justified by what
    the observer had seen before it. -/
structure Observed {β : Type w} (observe : β → α → β) (init : β) (P : β → α → Prop) (l : List α)
    (o : β) : Prop where
  current : l.foldl observe init = o
  justified : AtEach (fun pre a => P (pre.foldl observe init) a) l

theorem Observed.nil (observe : β → α → β) (init : β) (P : β → α → Prop) :
    Observed observe init P [] init := ⟨rfl, atEach_nil _⟩

theorem Observed.concat {observe : β → α → β} {init o : β} {P : β → α → Prop}
    (h : Observed observe init P l o) (ha : P o a) :
    Observed observe init P (l ++ [a]) (observe o a) := by
  refine ⟨?_, atEach_concat.mpr ⟨h.justified, ?_⟩⟩
  · rw [foldl_append, h.current]
    rfl
  · rw [h.current]
    exact ha

end List
