import Mathlib.Algebra.Order.BigOperators.Group.Finset
import SavannahNode.ForStd.Finmap

/-!
# Ballots

Voters are asked, each under a ticket, which candidates they support. The first answer of a
voter under its ticket counts; every other message does not. A candidate is supported by the
total weight of the voters that listed it.
-/

namespace SavannahNode

/-- The tickets that were handed out and the answers that came back. -/
structure Ballot (ν ρ κ : Type) where
  asked : Finmap fun _ : ν => ρ
  answers : Finmap fun _ : ν => List κ

namespace Ballot

variable {ν ρ κ : Type} [DecidableEq ν]

/-- Nobody was asked. -/
def empty : Ballot ν ρ κ := ⟨∅, ∅⟩

/-! ## Asking -/

section

variable (b : Ballot ν ρ κ) (voters : List ν) (ticket : ρ)

/-- Ask the voters under one ticket. -/
def ask : Ballot ν ρ κ :=
  { b with asked := voters.foldl (fun asked n => asked.insert n ticket) b.asked }

@[simp] theorem answers_ask : (b.ask voters ticket).answers = b.answers := rfl

theorem lookup_ask (n : ν) :
    (b.ask voters ticket).asked.lookup n = if n ∈ voters then some ticket else b.asked.lookup n := by
  show (voters.foldl _ b.asked).lookup n = _
  generalize b.asked = asked
  induction voters generalizing asked with
  | nil => simp
  | cons v voters ih =>
    rw [List.foldl_cons, ih, Finmap.lookup_insert_ite]
    by_cases hn : n ∈ voters
    · simp [hn]
    by_cases hv : n = v
    · simp [hv]
    · simp [hn, hv]

/-! ## Answering -/

/-- The voter answered and listed the candidate. -/
def Lists (n : ν) (k : κ) : Prop := ∃ l ∈ b.answers.lookup n, k ∈ l

end

section

variable [DecidableEq ρ]

/-- The voter was asked under this ticket and has not answered. -/
def Open (b : Ballot ν ρ κ) (n : ν) (ticket : ρ) : Prop :=
  b.asked.lookup n = some ticket ∧ n ∉ b.answers.keys

instance (b : Ballot ν ρ κ) (n : ν) (ticket : ρ) : Decidable (b.Open n ticket) :=
  inferInstanceAs (Decidable (_ ∧ _))

/-- A message with a ticket: it counts if it is the first one under the ticket of its voter. -/
def reply (b : Ballot ν ρ κ) (n : ν) (ticket : ρ) (listed : List κ) : Ballot ν ρ κ :=
  if b.Open n ticket then { b with answers := b.answers.insert n listed } else b

@[simp] theorem asked_reply (b : Ballot ν ρ κ) (n : ν) (ticket : ρ) (l : List κ) :
    (b.reply n ticket l).asked = b.asked := by
  unfold reply
  split <;> rfl

variable {b : Ballot ν ρ κ} {n : ν} {ticket : ρ}

theorem reply_of_open (h : b.Open n ticket) (l : List κ) :
    b.reply n ticket l = { b with answers := b.answers.insert n l } := if_pos h

theorem keys_reply_ne_empty (h : b.Open n ticket) (l : List κ) :
    (b.reply n ticket l).answers.keys ≠ ∅ := by
  rw [reply_of_open h, Finmap.keys_insert]
  exact Finset.insert_ne_empty _ _

/-- What a voter lists is not changed by the answers of the others. -/
theorem lists_reply_of_open (h : b.Open n ticket) (l : List κ) (m : ν) (k : κ) :
    (b.reply n ticket l).Lists m k ↔ b.Lists m k ∨ (m = n ∧ k ∈ l) := by
  rw [reply_of_open h]
  unfold Lists
  by_cases hm : m = n
  · subst hm
    have hnone : b.answers.lookup m = none := Finmap.lookup_eq_none.mpr h.2
    simp [hnone]
  · simp [hm]

end

/-! ## Support -/

section

variable [DecidableEq κ]

instance (b : Ballot ν ρ κ) (n : ν) (k : κ) : Decidable (b.Lists n k) :=
  inferInstanceAs (Decidable (∃ l, b.answers.lookup n = some l ∧ k ∈ l))

/-- The voters that listed the candidate. -/
def supporters (b : Ballot ν ρ κ) (k : κ) : Finset ν := b.answers.keys.filter (b.Lists · k)

/-- The total weight of the voters that listed the candidate. -/
def support (b : Ballot ν ρ κ) (weight : ν → Nat) (k : κ) : Nat := ∑ n ∈ b.supporters k, weight n

variable {b : Ballot ν ρ κ}

theorem mem_supporters {n : ν} {k : κ} : n ∈ b.supporters k ↔ b.Lists n k := by
  unfold supporters
  rw [Finset.mem_filter, Finmap.mem_keys_iff]
  constructor
  · intro h
    exact h.2
  intro h
  obtain ⟨l, hl, hk⟩ := h
  exact ⟨⟨l, hl⟩, l, hl, hk⟩

@[simp] theorem support_empty (weight : ν → Nat) (k : κ) :
    (empty : Ballot ν ρ κ).support weight k = 0 := rfl

/-- No candidate has more support than the whole electorate has weight. -/
theorem support_le {voters : Finset ν} (h : b.answers.keys ⊆ voters) (weight : ν → Nat) (k : κ) :
    b.support weight k ≤ ∑ n ∈ voters, weight n :=
  Finset.sum_le_sum_of_subset ((Finset.filter_subset _ _).trans h)

variable [DecidableEq ρ]

theorem support_reply_of_open {n : ν} {ticket : ρ} (h : b.Open n ticket) (l : List κ)
    (weight : ν → Nat) (k : κ) :
    (b.reply n ticket l).support weight k = b.support weight k + if k ∈ l then weight n else 0 := by
  -- the voter is a new supporter, or the supporters are the same
  have hn : n ∉ b.supporters k := fun hn => h.2 (Finset.mem_filter.mp hn).1
  unfold support
  by_cases hk : k ∈ l
  · have hsupp : (b.reply n ticket l).supporters k = insert n (b.supporters k) := by
      ext m
      rw [mem_supporters, lists_reply_of_open h, Finset.mem_insert, mem_supporters]
      simp [hk, or_comm]
    rw [hsupp, Finset.sum_insert hn, if_pos hk]
    omega
  have hsupp : (b.reply n ticket l).supporters k = b.supporters k := by
    ext m
    rw [mem_supporters, lists_reply_of_open h, mem_supporters]
    simp [hk]
  rw [hsupp, if_neg hk]
  omega

end

end Ballot

end SavannahNode
