import SavannahNode.ForStd.Run

/-!
# Streaks

A counter that a success raises, a failure clears and everything else leaves alone, run
over a list of events. `c : α → Option Bool` says what an event is to the counter:
`some true` a success, `some false` a failure, `none` neither.
-/

namespace List

universe u

variable {α : Type u} {c d : α → Option Bool}

/-- The effect of one event on a streak. -/
def streakStep (n : Nat) : Option Bool → Nat
  | none => n
  | some true => n + 1
  | some false => 0

/-- The number of successes since the last failure. -/
def streak (c : α → Option Bool) (l : List α) : Nat := l.foldl (fun n a => streakStep n (c a)) 0

@[simp] theorem streak_concat (l : List α) (a : α) :
    (l ++ [a]).streak c = streakStep (l.streak c) (c a) := by
  simp [streak]

/-- With fewer events counted as failures the streak is longer. -/
theorem streak_le (h : ∀ a, c a = d a ∨ (c a = some false ∧ d a = some true)) (l : List α) :
    l.streak c ≤ l.streak d := by
  refine foldl_history (P := fun hist n => n ≤ hist.streak d) (Nat.le_refl 0) ?_ l
  intro hist n a hle
  rw [streak_concat]
  rcases h a with heq | ⟨hc, hd⟩
  · rw [heq]
    cases d a with
    | none => exact hle
    | some outcome =>
      cases outcome with
      | true => exact Nat.succ_le_succ hle
      | false => exact Nat.le_refl 0
  rw [hc, hd]
  exact Nat.zero_le _

/-- A streak is a final segment without failures. -/
theorem exists_segment_streak (c : α → Option Bool) (l : List α) :
    ∃ before seg, l = before ++ seg ∧ (∀ a ∈ seg, c a ≠ some false) ∧
      seg.countP (c · == some true) = l.streak c := by
  refine foldl_history (P := fun hist n => ∃ before seg, hist = before ++ seg ∧
    (∀ a ∈ seg, c a ≠ some false) ∧ seg.countP (c · == some true) = n)
    ⟨[], [], rfl, by simp, rfl⟩ ?_ l
  rintro hist n a ⟨before, seg, rfl, hseg, hn⟩
  by_cases hca : c a = some false
  · -- a failure starts a new, empty segment
    exact ⟨before ++ seg ++ [a], [], by simp, by simp, by simp [hca, streakStep]⟩
  refine ⟨before, seg ++ [a], by simp, ?_, ?_⟩
  · intro x hx
    rcases mem_append.mp hx with hx | hx
    · exact hseg x hx
    rw [mem_singleton.mp hx]
    exact hca
  rw [countP_append, hn, countP_singleton]
  cases h : c a with
  | none => simp [streakStep]
  | some outcome =>
    cases outcome with
    | true => simp [streakStep]
    | false => exact absurd h hca

end List
