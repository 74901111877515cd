import Mathlib.Data.Finmap

/-!
# Finite maps with values of one type

`Finmap` lemmas for maps whose values all have the same type: a lookup after an update is
an `if`, and `mapValues` changes every value in place.
-/

namespace Finmap

universe u v w

variable {α : Type u} {β : Type v} {γ : Type w} [DecidableEq α]

section

variable (s : Finmap fun _ : α => β)

theorem lookup_insert_ite (a a' : α) (b : β) :
    (s.insert a b).lookup a' = if a' = a then some b else s.lookup a' := by
  split
  · rename_i h
    subst h
    exact lookup_insert s
  · exact lookup_insert_of_ne s ‹_›

/-- The same for a key that was in the map, as a change of its value. -/
theorem lookup_insert_map (f : β → β) {s : Finmap fun _ : α => β} {a : α} {b : β}
    (h : s.lookup a = some b) (a' : α) :
    (s.insert a (f b)).lookup a' = (s.lookup a').map fun c => if a' = a then f c else c := by
  rw [lookup_insert_ite]
  split
  · rename_i ha
    subst ha
    simp [h]
  · simp

theorem lookup_erase_ite (a a' : α) :
    (s.erase a).lookup a' = if a' = a then none else s.lookup a' := by
  split
  · rename_i h
    subst h
    exact lookup_erase _ s
  · exact lookup_erase_ne ‹_›

theorem keys_insert (a : α) (b : β) : (s.insert a b).keys = Insert.insert a s.keys := by
  ext a'
  rw [mem_keys, mem_insert, Finset.mem_insert, mem_keys]

theorem mem_keys_iff (a : α) : a ∈ s.keys ↔ ∃ b, s.lookup a = some b := mem_keys.trans mem_iff

end

/-- Apply a function to every value. -/
def mapValues (f : α → β → γ) (s : Finmap fun _ : α => β) : Finmap fun _ : α => γ where
  entries := s.entries.map fun e => ⟨e.1, f e.1 e.2⟩
  nodupKeys := by
    obtain ⟨entries, h⟩ := s
    induction entries using Quotient.inductionOn with
    | h l =>
      have hkeys : (l.map fun e : (_ : α) × β => (⟨e.1, f e.1 e.2⟩ : (_ : α) × γ)).keys = l.keys := by
        simp [List.keys, List.map_map, Function.comp_def]
      exact (congrArg List.Nodup hkeys).mpr h

theorem lookup_mapValues (f : α → β → γ) (s : Finmap fun _ : α => β) (a : α) :
    (s.mapValues f).lookup a = (s.lookup a).map (f a) := by
  induction s using Finmap.induction_on with
  | H s =>
    obtain ⟨l, h⟩ := s
    show (l.map fun e : (_ : α) × β => (⟨e.1, f e.1 e.2⟩ : (_ : α) × γ)).dlookup a =
      (l.dlookup a).map (f a)
    clear h
    induction l with
    | nil => rfl
    | cons e l ih =>
      obtain ⟨k, b⟩ := e
      rw [List.map_cons]
      by_cases hk : k = a
      · subst hk
        simp
      · rw [List.dlookup_cons_ne _ _ (Ne.symm hk), List.dlookup_cons_ne _ _ (Ne.symm hk), ih]

end Finmap
