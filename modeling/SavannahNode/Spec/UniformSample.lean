import SavannahNode.ForStd.Finmap
import SavannahNode.ForStd.Run
import SavannahNode.Native.Sampler

/-!
# Sampling without replacement

`uniformReplacer` keeps a shuffled array as the positions where it is not the identity. The
entries that are not drawn yet are the values that are left (`Left`), each once, so what is
drawn tells the random numbers, and every choice of values comes from some.
-/

namespace SavannahNode.Sampler.UniformReplacer

/-- The entry of the array at a position. -/
def entry (s : UniformReplacer) (i : Nat) : Nat := get s.drawn i i

/-- The entries from `drawsCount` on are the values in `U`, each once. -/
def Left (s : UniformReplacer) (U : Set Nat) : Prop :=
  Set.BijOn s.entry (Set.Ico s.drawsCount s.length) U

/-- The random numbers for the next values: the one for value `j` is less than `m - j`. -/
def Draws : Nat → List Nat → Prop
  | _, [] => True
  | m, r :: rs => r < m ∧ Draws (m - 1) rs

/-- Different values out of `U`. -/
def Picks (U : Set Nat) (k : Nat) : Set (List Nat) :=
  { out | out.length = k ∧ out.Nodup ∧ ∀ x ∈ out, x ∈ U }

/-- Position `c` takes the place of position `d`. -/
theorem bijOn_replace {c d n : Nat} (hcd : c ≤ d) (hdn : d < n) :
    Set.BijOn (fun i => if i = d then c else i) (Set.Ico (c + 1) n) (Set.Ico c n \ {d}) := by
  refine ⟨fun i hi => ?_, fun i hi j hj hij => ?_, fun j hj => ?_⟩
  · simp only [Set.mem_Ico, Set.mem_sdiff, Set.mem_singleton_iff] at hi ⊢
    split <;> omega
  · simp only [Set.mem_Ico] at hi hj
    dsimp only at hij
    split at hij <;> split at hij <;> omega
  simp only [Set.mem_Ico, Set.mem_sdiff, Set.mem_singleton_iff, Set.mem_image] at hj ⊢
  by_cases hjc : j = c
  · exact ⟨d, by omega, by rw [if_pos rfl, hjc]⟩
  · exact ⟨j, by omega, if_neg hj.2⟩

theorem get_insert (m : Finmap fun _ : Nat => Nat) (key v i d : Nat) :
    get (m.insert key v) i d = if i = key then v else get m i d := by
  rw [get, Finmap.lookup_insert_ite]
  split <;> rfl

variable {s : UniformReplacer} {U : Set Nat} {r : Nat} {rs rs' out : List Nat}

/-- A draw: the first entry that was left takes the place of the drawn one. -/
theorem left_next (h : s.Left U) (hr : r < s.length - s.drawsCount) :
    (s.next r).2.length - (s.next r).2.drawsCount = s.length - s.drawsCount - 1 ∧
      (s.next r).2.Left (U \ {s.entry (r + s.drawsCount)}) ∧
      ∀ rs, (s.sampleLoop (r :: rs)).1 =
        ((s.next r).2.sampleLoop rs).1.map (s.entry (r + s.drawsCount) :: ·) := by
  have hdraw : r + s.drawsCount ∈ Set.Ico s.drawsCount s.length := ⟨by omega, by omega⟩
  have hnext : s.next r = _ := if_neg (show ¬s.drawsCount ≥ s.length by omega)
  refine ⟨by rw [hnext]; exact Nat.sub_add_eq .., ?_, fun rs => by rw [sampleLoop, hnext]; rfl⟩
  rw [hnext]
  refine ((h.sdiff_singleton hdraw).comp (bijOn_replace hdraw.1 hdraw.2)).congr fun i _ => ?_
  show s.entry (if i = _ then _ else i) = get _ i i
  rw [get_insert]
  split <;> rfl

theorem exists_sampleLoop (h : s.Left U) (hrs : Draws (s.length - s.drawsCount) rs) :
    ∃ out ∈ Picks U rs.length, (s.sampleLoop rs).1 = some out := by
  induction rs generalizing s U with
  | nil => exact ⟨[], ⟨rfl, .nil, by simp⟩, rfl⟩
  | cons r rs ih =>
    obtain ⟨hm, hleft, hcons⟩ := left_next h hrs.1
    obtain ⟨out, ⟨hk, hnodup, hmem⟩, hout⟩ := ih hleft (hm ▸ hrs.2)
    refine ⟨_ :: out, ⟨congrArg Nat.succ hk, ?_, ?_⟩, by rw [hcons, hout]; rfl⟩
    · exact List.nodup_cons.mpr ⟨fun hin => (hmem _ hin).2 rfl, hnodup⟩
    · have hr := hrs.1
      exact List.forall_mem_cons.mpr ⟨h.mapsTo ⟨by omega, by omega⟩, fun x hx => (hmem x hx).1⟩

/-- The first value tells the first random number, and with it what is left. -/
theorem sampleLoop_inj (h : s.Left U) (hrs : Draws (s.length - s.drawsCount) rs)
    (hrs' : Draws (s.length - s.drawsCount) rs') (hlen : rs.length = rs'.length)
    (heq : (s.sampleLoop rs).1 = (s.sampleLoop rs').1) : rs = rs' := by
  induction rs generalizing s U rs' with
  | nil => exact (List.eq_nil_of_length_eq_zero hlen.symm).symm
  | cons r rs ih =>
    cases rs' with
    | nil => cases hlen
    | cons r' rs' =>
      obtain ⟨hr, hrs⟩ := hrs
      obtain ⟨hr', hrs'⟩ := hrs'
      obtain ⟨hm, hleft, hcons⟩ := left_next h hr
      obtain ⟨hm', hleft', hcons'⟩ := left_next h hr'
      obtain ⟨out, -, hout⟩ := exists_sampleLoop hleft (hm ▸ hrs)
      obtain ⟨out', -, hout'⟩ := exists_sampleLoop hleft' (hm' ▸ hrs')
      rw [hcons, hcons', hout, hout'] at heq
      obtain ⟨hret, rfl⟩ := List.cons.inj (Option.some.inj heq)
      obtain rfl := Nat.add_right_cancel (h.injOn ⟨by omega, by omega⟩ ⟨by omega, by omega⟩ hret)
      rw [ih hleft (hm ▸ hrs) (hm ▸ hrs') (Nat.succ.inj hlen) (hout.trans hout'.symm)]

theorem exists_draws (h : s.Left U) (hout : out ∈ Picks U out.length) :
    ∃ rs, rs.length = out.length ∧ Draws (s.length - s.drawsCount) rs ∧
      (s.sampleLoop rs).1 = some out := by
  induction out generalizing s U with
  | nil => exact ⟨[], rfl, trivial, rfl⟩
  | cons x out ih =>
    obtain ⟨-, hnodup, hmem⟩ := hout
    rw [List.nodup_cons] at hnodup
    rw [List.forall_mem_cons] at hmem
    obtain ⟨i, ⟨hge, hlt⟩, rfl⟩ := h.surjOn hmem.1
    obtain ⟨r, rfl⟩ := Nat.exists_eq_add_of_le' hge
    have hr : r < s.length - s.drawsCount := by omega
    obtain ⟨hm, hleft, hcons⟩ := left_next h hr
    obtain ⟨rs, hk, hrs, hloop⟩ := ih hleft
      ⟨rfl, hnodup.2, fun x hx => ⟨hmem.2 x hx, fun heq => hnodup.1 (heq ▸ hx)⟩⟩
    exact ⟨r :: rs, congrArg Nat.succ hk, ⟨hr, hm ▸ hrs⟩, by rw [hcons, hloop]; rfl⟩

theorem sampleLoop_none (h : s.length - s.drawsCount < rs.length) : (s.sampleLoop rs).1 = none := by
  induction rs generalizing s with
  | nil => cases h
  | cons r rs ih =>
    rw [List.length_cons] at h
    rw [sampleLoop, next]
    by_cases hend : s.drawsCount ≥ s.length
    · rw [if_pos hend]
    rw [if_neg hend]
    exact Option.map_eq_none_iff.mpr (ih (by dsimp only; omega))

theorem next_length (s : UniformReplacer) (r : Nat) : (s.next r).2.length = s.length := by
  rw [next]
  split <;> rfl

theorem sampleLoop_length (s : UniformReplacer) (rs : List Nat) :
    (s.sampleLoop rs).2.length = s.length := by
  induction rs generalizing s with
  | nil => rfl
  | cons r rs ih =>
    rw [← next_length s r, sampleLoop]
    rcases s.next r with ⟨_ | ret, s'⟩
    · rfl
    · exact ih s'

/-- The array is new after `Reset`, whatever was drawn. -/
theorem reset_step (s : UniformReplacer) (op : Op) : (s.step op).reset = s.reset := by
  have hlength : (s.step op).length = s.length := by
    cases op with
    | sample rs => exact sampleLoop_length s.reset rs
    | next r => exact next_length s r
    | reset => rfl
  rw [reset, hlength, reset]

/-- After any calls, `Sample` maps the results of the random numbers one to one onto the
sequences of `k` different values below the length, refuses to draw one more than there are,
and does what it did at first. -/
theorem sample_bijOn {n : Nat} {s₀ : UniformReplacer} (h : init n = some s₀) (ops : List Op) :
    (∀ k ≤ n, Set.BijOn (fun rs => ((ops.foldl step s₀).sample rs).1)
      { rs | rs.length = k ∧ Draws n rs } (some '' Picks (Set.Iio n) k)) ∧
    (∀ rs, n < rs.length → ((ops.foldl step s₀).sample rs).1 = none) ∧
    (ops.foldl step s₀).reset = s₀ ∧ ∀ rs, (ops.foldl step s₀).sample rs = s₀.sample rs := by
  obtain ⟨-, h⟩ | ⟨-, h⟩ := ite_eq_iff.mp h <;> cases h
  have hreset := List.foldl_frame reset_step ops ⟨n, ∅, 0⟩
  simp only [sample, hreset]
  have hleft : (reset ⟨n, ∅, 0⟩).Left (Set.Iio n) := Set.Ico_bot (a := n) ▸ Set.bijOn_id _
  refine ⟨fun k _ => ⟨?_, ?_, ?_⟩, fun rs hrs => sampleLoop_none hrs, rfl, fun _ => trivial⟩
  · rintro rs ⟨rfl, hrs⟩
    obtain ⟨out, hout, hloop⟩ := exists_sampleLoop hleft hrs
    exact ⟨out, hout, hloop.symm⟩
  · rintro rs ⟨hk, hrs⟩ rs' ⟨hk', hrs'⟩ heq
    exact sampleLoop_inj hleft hrs hrs' (hk.trans hk'.symm) heq
  rintro _ ⟨out, hout, rfl⟩
  obtain ⟨rs, hk, hrs, hloop⟩ := exists_draws hleft (hout.1 ▸ hout)
  exact ⟨rs, ⟨hk.trans hout.1, hrs⟩, hloop⟩

theorem sample_bijOn_five : ∃ s₀, init 5 = some s₀ ∧
    ((List.foldl step s₀ [.sample [4, 0], .next 2]).sample [4, 3, 0]).1 = some [4, 0, 2] ∧
    ∀ rs, (List.foldl step s₀ [.sample [4, 0], .next 2]).sample rs = s₀.sample rs :=
  ⟨_, rfl, by decide, (sample_bijOn (n := 5) rfl _).2.2.2⟩

end SavannahNode.Sampler.UniformReplacer
