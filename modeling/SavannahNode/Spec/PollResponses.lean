import SavannahNode.Spec.AvalancheEarlyTermination
import SavannahNode.Spec.EarlyTermination
import Mathlib.Data.List.TakeWhile
import Mathlib.Order.Interval.Finset.Nat

/-!
# What a poll counts

A sampled validator counts once in a poll, as often as it was sampled, and for its first
response. An avalanche poll gives every sample of a validator a bit of its own. The bits are
those of a 64-bit word, so this holds exactly for samples of at most 64. The set of snowman polls returns
the results of its polls in the order in which they were added.

## Key results

- `AvalanchePoll.votes_counted`: the votes for a vertex, and the bits of the validators
- `SnowmanPolls.polls_delivered`: the results of the polls, in every run
-/

namespace SavannahNode

open List NodeIDBag SnowmanPoll

theorem NodeIDBag.count_remove_self (b : NodeIDBag) (id : NodeID) : (b.remove id).count id = 0 := by
  refine countOf_eq_zero_of_notMem fun hmem => ?_
  obtain ⟨p, hp, rfl⟩ := mem_map.mp hmem
  simpa using (mem_filter.mp hp).2

theorem NodeIDBag.count_remove_of_ne (b : NodeIDBag) {id n : NodeID} (h : n ≠ id) :
    (b.remove id).count n = b.count n := by
  rw [count, count, ← countWhere_eq_countOf (b.remove id).nodup_keys,
    ← countWhere_eq_countOf b.nodup_keys]
  show countWhere _ (b.counts.filter fun p => decide (p.1 ≠ id)) = _
  rw [countWhere_filter (Q := fun k => decide (k ≠ id))]
  congr 1
  funext k
  by_cases hk : k = n <;> simp [hk, h]

/-! ## First responses -/

section Responses

variable {ρ : Type} {vdrOf : ρ → NodeID} {q : ρ → Bool} {done : List ρ} {r : ρ} {n : NodeID}

/-- The first response of the validator is one of `q`. -/
def firstIs (vdrOf : ρ → NodeID) (q : ρ → Bool) (responses : List ρ) (vdr : NodeID) : Bool :=
  (responses.find? fun r => vdrOf r = vdr).any q

/-- Only the first response counts. -/
theorem firstIs_concat : firstIs vdrOf q (done ++ [r]) n = true ↔
    firstIs vdrOf q done n = true ∨ n = vdrOf r ∧ n ∉ done.map vdrOf ∧ q r = true := by
  rw [firstIs, firstIs, find?_append]
  cases hfind : done.find? fun r => vdrOf r = n with
  | some r' =>
    have hmem : n ∈ done.map vdrOf := mem_map.mpr
      ⟨r', mem_of_find?_eq_some hfind, by simpa using find?_some hfind⟩
    simp [hmem]
  | none =>
    have hmem : n ∉ done.map vdrOf := by
      intro hn
      obtain ⟨r', hr', rfl⟩ := mem_map.mp hn
      simpa using find?_eq_none.mp hfind r' hr'
    by_cases hn : vdrOf r = n
    · simp [hn, hmem]
    · simp [hn, Ne.symm hn]

theorem firstIs_eq_false (h : n ∉ done.map vdrOf) : firstIs vdrOf q done n = false := by
  have hfind : (done.find? fun r => vdrOf r = n) = none := by
    rw [find?_eq_none]
    intro r hr heq
    exact h (mem_map.mpr ⟨r, hr, of_decide_eq_true heq⟩)
  rw [firstIs, hfind]
  rfl

/-- The sampled validators whose first response is one of `q`, each as often as it was sampled. -/
def NodeIDBag.weight (vdrs : NodeIDBag) (vdrOf : ρ → NodeID) (q : ρ → Bool) (responses : List ρ) :
    Nat :=
  vdrs.counts.countWhere (firstIs vdrOf q responses)

theorem NodeIDBag.weight_concat_first (vdrs : NodeIDBag) (hr : vdrOf r ∉ done.map vdrOf)
    (hq : q r = true) : vdrs.weight vdrOf q (done ++ [r]) =
      vdrs.weight vdrOf q done + vdrs.count (vdrOf r) := by
  rw [weight, weight, count, ← countWhere_or_key vdrs.nodup_keys (firstIs_eq_false hr)]
  congr 1
  funext n
  rw [Bool.eq_iff_iff, firstIs_concat, Bool.or_eq_true, decide_eq_true_eq]
  grind

theorem NodeIDBag.weight_concat_again (vdrs : NodeIDBag)
    (hr : vdrOf r ∈ done.map vdrOf ∨ q r = false) :
    vdrs.weight vdrOf q (done ++ [r]) = vdrs.weight vdrOf q done := by
  rw [weight, weight]
  congr 1
  funext n
  rw [Bool.eq_iff_iff, firstIs_concat]
  grind

/-- The validators that are left after some responses. -/
structure Awaits (vdrOf : ρ → NodeID) (vdrs : NodeIDBag) (done : List ρ) (b : NodeIDBag) :
    Prop where
  responded : ∀ n ∈ done.map vdrOf, b.count n = 0
  pending : ∀ n, n ∉ done.map vdrOf → b.count n = vdrs.count n

theorem Awaits.nil (vdrs : NodeIDBag) : Awaits vdrOf vdrs [] vdrs :=
  ⟨fun _ hn => absurd hn not_mem_nil, fun _ _ => rfl⟩

theorem Awaits.remove {b vdrs : NodeIDBag} (h : Awaits vdrOf vdrs done b) (r : ρ) :
    Awaits vdrOf vdrs (done ++ [r]) (b.remove (vdrOf r)) := by
  have hself := b.count_remove_self (vdrOf r)
  have hne : ∀ n, n ≠ vdrOf r → (b.remove (vdrOf r)).count n = b.count n :=
    fun _ => b.count_remove_of_ne
  constructor
  · grind [h.responded]
  · grind [h.pending]

end Responses

/-! ## Avalanche polls -/

namespace AvalanchePoll

/-- The first response of the validator names the vertex. -/
def names (responses : List (NodeID × List ID)) (v : ID) (vdr : NodeID) : Bool :=
  firstIs Prod.fst (fun r => r.2.contains v) responses vdr

/-- The sampled validators whose first response names the vertex, each as often as it was
    sampled. -/
def support (vdrs : NodeIDBag) (responses : List (NodeID × List ID)) (v : ID) : Nat :=
  vdrs.weight Prod.fst (fun r => r.2.contains v) responses

variable {vdrs : NodeIDBag} {done : List (NodeID × List ID)} {p : AvalanchePoll} {vdr : NodeID}
  {ids : List ID} {bits : NodeID → Finset (Fin 64)}

/-- The bits that a response takes: those up to the validators that responded before. -/
def taken (p : AvalanchePoll) (vdr : NodeID) (ids : List ID) : Finset (Fin 64) :=
  Finset.univ.filter fun i => (p.vote vdr ids).polled.len ≤ i.val ∧ i.val < p.polled.len

theorem mem_taken {i : Fin 64} : i ∈ p.taken vdr ids ↔
    (p.vote vdr ids).polled.len ≤ i.val ∧ i.val < p.polled.len := by
  simp [taken]

theorem card_taken (hsize : p.polled.len ≤ 64) : (p.taken vdr ids).card = p.polled.count vdr := by
  have hlen : (p.vote vdr ids).polled.len + p.polled.count vdr = p.polled.len :=
    p.polled.len_remove vdr
  have hmap : (p.taken vdr ids).map Fin.valEmbedding =
      Finset.Ico (p.vote vdr ids).polled.len p.polled.len := by
    ext j
    simp only [Finset.mem_map, mem_taken, Fin.valEmbedding_apply, Finset.mem_Ico]
    constructor
    · rintro ⟨i, hi, rfl⟩
      exact hi
    · intro hj
      exact ⟨⟨j, by omega⟩, hj, rfl⟩
  rw [← Finset.card_map Fin.valEmbedding, hmap, Nat.card_Ico]
  omega

/-- A poll after the responses `done`: the bits of the validators that responded are above those
    left for the others. -/
structure Tallied (vdrs : NodeIDBag) (done : List (NodeID × List ID)) (p : AvalanchePoll)
    (bits : NodeID → Finset (Fin 64)) : Prop where
  len_le : p.polled.len ≤ vdrs.len
  awaits : Awaits Prod.fst vdrs done p.polled
  card_bits : ∀ n ∈ done.map Prod.fst, (bits n).card = vdrs.count n
  bits_eq : ∀ n, n ∉ done.map Prod.fst → bits n = ∅
  le_bits : ∀ n, ∀ i ∈ bits n, p.polled.len ≤ i.val
  disjoint : ∀ m n, m ≠ n → Disjoint (bits m) (bits n)
  mem_voters : ∀ v i, i ∈ p.votes.voters v ↔ ∃ n, names done v n = true ∧ i ∈ bits n
  card_voters : ∀ v, (p.votes.voters v).card = support vdrs done v

theorem tallied_new (alpha : Int) (vdrs : NodeIDBag) :
    Tallied vdrs [] (new alpha vdrs) fun _ => ∅ where
  len_le := le_rfl
  awaits := .nil vdrs
  card_bits n hn := absurd hn not_mem_nil
  bits_eq n _ := rfl
  le_bits n i hi := absurd hi (Finset.notMem_empty i)
  disjoint m n _ := Finset.disjoint_empty_left _
  mem_voters v i := by simp [new]
  card_voters v := by simp [new, support, weight, countWhere, firstIs]

/-- A validator that responded before gets no more bits, and its response does not count. -/
theorem Tallied.again (h : Tallied vdrs done p bits) (hvdr : vdr ∈ done.map Prod.fst) :
    Tallied vdrs (done ++ [(vdr, ids)]) (p.vote vdr ids) bits := by
  have hlen : (p.vote vdr ids).polled.len = p.polled.len := by
    have hrest := p.polled.len_remove vdr
    rw [h.awaits.responded vdr hvdr] at hrest
    exact hrest
  have hvoters : ∀ v, (p.vote vdr ids).votes.voters v = p.votes.voters v := by
    intro v
    ext i
    rw [mem_voters_vote, hlen]
    refine ⟨fun hi => hi.resolve_right fun hi => ?_, .inl⟩
    omega
  have hmem : ∀ n, n ∈ (done ++ [(vdr, ids)]).map Prod.fst ↔ n ∈ done.map Prod.fst := by
    grind
  have hfirst : ∀ v n, names (done ++ [(vdr, ids)]) v n = true ↔ names done v n = true := by
    intro v n
    rw [names, firstIs_concat]
    grind [names]
  refine ⟨hlen ▸ h.len_le, h.awaits.remove (vdr, ids), ?_, ?_, hlen ▸ h.le_bits, h.disjoint, ?_, ?_⟩
  · simpa only [hmem] using h.card_bits
  · simpa only [hmem] using h.bits_eq
  · simpa only [hvoters, hfirst] using h.mem_voters
  · intro v
    rw [hvoters, h.card_voters, support, support, weight_concat_again vdrs (.inl hvdr)]

/-- The first response of a validator. -/
theorem Tallied.first (hsize : vdrs.len ≤ 64) (h : Tallied vdrs done p bits)
    (hvdr : vdr ∉ done.map Prod.fst) :
    Tallied vdrs (done ++ [(vdr, ids)]) (p.vote vdr ids)
      (Function.update bits vdr (p.taken vdr ids)) := by
  have hlen : (p.vote vdr ids).polled.len + p.polled.count vdr = p.polled.len :=
    p.polled.len_remove vdr
  have hle := h.len_le
  have hcard : (p.taken vdr ids).card = p.polled.count vdr := card_taken (hle.trans hsize)
  rw [h.awaits.pending vdr hvdr] at hlen hcard
  -- the bits are below all that were taken before
  have hnew : ∀ n, Disjoint (bits n) (p.taken vdr ids) := fun n =>
    Finset.disjoint_left.mpr fun i hn hi => by
      have := h.le_bits n i hn
      have := mem_taken.mp hi
      omega
  have hvoters : ∀ v i, i ∈ (p.vote vdr ids).votes.voters v ↔
      i ∈ p.votes.voters v ∨ v ∈ ids ∧ i ∈ p.taken vdr ids := fun v i => by
    rw [mem_voters_vote, mem_taken]
  refine ⟨by omega, h.awaits.remove (vdr, ids), ?_, ?_, ?_, ?_, fun v i => ?_, fun v => ?_⟩
  · grind [h.card_bits]
  · grind [h.bits_eq]
  · intro n i hi
    have := h.le_bits n i
    grind [mem_taken]
  · grind [h.disjoint, Disjoint.symm]
  · have hiff := h.mem_voters v i
    have hfirst : ∀ n, names (done ++ [(vdr, ids)]) v n = true ↔ names done v n = true ∨
        n = vdr ∧ v ∈ ids := fun n => by
      rw [names, firstIs_concat]
      grind [names]
    have hnot : names done v vdr = false := firstIs_eq_false hvdr
    grind
  have hdisj : Disjoint (p.votes.voters v) (p.taken vdr ids) :=
    Finset.disjoint_left.mpr fun i hi hin => by
      obtain ⟨n, -, hn⟩ := (h.mem_voters v i).mp hi
      exact Finset.disjoint_left.mp (hnew n) hn hin
  by_cases hv : v ∈ ids
  · have hunion : (p.vote vdr ids).votes.voters v = p.votes.voters v ∪ p.taken vdr ids := by
      ext i
      simp [hvoters, hv]
    rw [hunion, Finset.card_union_of_disjoint hdisj, hcard, h.card_voters, support, support,
      weight_concat_first vdrs hvdr (by simpa using hv)]
  have hsame : (p.vote vdr ids).votes.voters v = p.votes.voters v := by
    ext i
    simp [hvoters, hv]
  rw [hsame, h.card_voters, support, support, weight_concat_again vdrs (.inr (by simpa using hv))]

theorem exists_tallied (alpha : Int) (hsize : vdrs.len ≤ 64) (responses : List (NodeID × List ID)) :
    ∃ bits, Tallied vdrs responses ((new alpha vdrs).run responses) bits := by
  refine foldl_history (P := fun done p => ∃ bits, Tallied vdrs done p bits)
    ⟨_, tallied_new alpha vdrs⟩ ?_ responses
  rintro done p ⟨vdr, ids⟩ ⟨bits, h⟩
  by_cases hvdr : vdr ∈ done.map Prod.fst
  · exact ⟨bits, h.again hvdr⟩
  · exact ⟨_, h.first hsize hvdr⟩

end AvalanchePoll

/-- Both polls count alike. -/
theorem NoEarlyTermPoll.run_eq (alpha : Int) (vdrs : NodeIDBag)
    (responses : List (NodeID × List ID)) :
    ((new vdrs).run responses).votes = ((AvalanchePoll.new alpha vdrs).run responses).votes := by
  suffices h : ((new vdrs).run responses).votes =
      ((AvalanchePoll.new alpha vdrs).run responses).votes ∧
      ((new vdrs).run responses).polled = ((AvalanchePoll.new alpha vdrs).run responses).polled from h.1
  refine foldl_history (P := fun done (p : NoEarlyTermPoll) =>
    p.votes = ((AvalanchePoll.new alpha vdrs).run done).votes ∧
      p.polled = ((AvalanchePoll.new alpha vdrs).run done).polled) ⟨rfl, rfl⟩ ?_ responses
  intro done p r h
  rw [AvalanchePoll.run, foldl_append]
  simp only [vote, AvalanchePoll.vote, foldl_cons, foldl_nil, h.1, h.2]
  exact ⟨rfl, rfl⟩

namespace AvalanchePoll

/-- When every sampled validator names the vertex, all the samples support it. -/
theorem len_le_support (vdrs : NodeIDBag) (v : ID) :
    vdrs.len ≤ support vdrs (vdrs.list.map fun vdr => (vdr, [v])) v := by
  have hle := countWhere_le (P := fun _ => true)
    (Q := names (vdrs.list.map fun vdr => (vdr, [v])) v) (l := vdrs.counts) <| by
    intro n hn _
    have hsome : ((vdrs.list.map fun vdr => (vdr, [v])).find? fun r => r.1 = n).isSome := by
      rw [find?_isSome]
      exact ⟨(n, [v]), mem_map_of_mem hn, decide_eq_true rfl⟩
    obtain ⟨r, hr⟩ := Option.isSome_iff_exists.mp hsome
    obtain ⟨vdr, -, rfl⟩ := mem_map.mp (mem_of_find?_eq_some hr)
    rw [names, firstIs, hr]
    simp
  rw [countWhere_true, ← vdrs.size_eq] at hle
  exact hle

/-- Whatever the sampled validators respond, a poll of either kind counts for every vertex the
    sampled validators that named it first, and different validators have different bits: this
    holds exactly for samples of at most 64. -/
theorem votes_counted (alpha : Int) (vdrs : NodeIDBag) :
    (∀ (responses : List (NodeID × List ID)) (result : UniqueBag),
      result = ((new alpha vdrs).run responses).result ∨
        result = ((NoEarlyTermPoll.new vdrs).run responses).result →
      (∀ v, (result.getSet v).len = support vdrs responses v) ∧
        ∃ bits : NodeID → Finset (Fin 64), (∀ m n, m ≠ n → Disjoint (bits m) (bits n)) ∧
          (∀ n ∈ responses.map Prod.fst, (bits n).card = vdrs.count n) ∧
          ∀ v i, i ∈ (result.getSet v).members ↔
            ∃ n, names responses v n = true ∧ i ∈ bits n) ↔
    vdrs.len ≤ 64 := by
  constructor
  · -- a word has 64 bits, and a vertex that all validators name needs as many as the sample
    intro h
    have hcount := (h (vdrs.list.map fun vdr => (vdr, [⟨0⟩])) _ (.inl rfl)).1 ⟨0⟩
    have hsupport := len_le_support vdrs ⟨0⟩
    have hbits := Finset.card_le_univ ((((new alpha vdrs).run
      (vdrs.list.map fun vdr => (vdr, [⟨0⟩]))).result.getSet ⟨0⟩).members)
    rw [BitSet.len] at hcount
    rw [Fintype.card_fin] at hbits
    omega
  intro hsize responses result hresult
  obtain rfl : result = ((new alpha vdrs).run responses).votes := by
    rcases hresult with rfl | rfl
    · rfl
    · exact NoEarlyTermPoll.run_eq alpha vdrs responses
  obtain ⟨bits, h⟩ := exists_tallied alpha hsize responses
  exact ⟨h.card_voters, bits, h.disjoint, h.card_bits, h.mem_voters⟩

/-- A validator sampled twice and one sampled once, of which the second responds twice. -/
theorem votes_counted_threeSamples :
    (((new 2 (NodeIDBag.empty.add [⟨1⟩, ⟨2⟩, ⟨1⟩])).run
      [(⟨1⟩, [⟨7⟩]), (⟨2⟩, [⟨7⟩, ⟨8⟩]), (⟨2⟩, [⟨8⟩])]).result.getSet ⟨7⟩).len = 3 :=
  (((votes_counted 2 (NodeIDBag.empty.add [⟨1⟩, ⟨2⟩, ⟨1⟩])).mpr (by decide)
    [(⟨1⟩, [⟨7⟩]), (⟨2⟩, [⟨7⟩, ⟨8⟩]), (⟨2⟩, [⟨8⟩])] _ (.inl rfl)).1 ⟨7⟩).trans (by decide)

/-- A validator sampled 65 times counts 64 times. -/
theorem exists_votes_lost :
    ∃ (params : Parameters) (vdrs : NodeIDBag) (responses : List (NodeID × List ID)) (v : ID),
      params.verify = none ∧ (vdrs.len : Int) = params.k ∧ support vdrs responses v = 65 ∧
      (((new params.alpha vdrs).run responses).result.getSet v).len = 64 ∧
      (((NoEarlyTermPoll.new vdrs).run responses).result.getSet v).len = 64 := by
  refine ⟨{ Parameters.minimal with k := 65, alpha := 33 }, empty.addCount ⟨1⟩ 65,
    [(⟨1⟩, [⟨7⟩])], ⟨7⟩, ?_⟩
  decide +kernel

end AvalanchePoll

/-! ## Snowman polls -/

namespace SnowmanPoll

/-- The validator that a call is about. -/
def Call.vdr : Call → NodeID
  | .vote vdr _ => vdr
  | .drop vdr => vdr

/-- The call is a vote for the block. -/
def Call.isFor (id : ID) : Call → Bool
  | .vote _ id' => decide (id' = id)
  | .drop _ => false

/-- A poll counts the sampled validators whose first response is a vote for the block. -/
theorem count_run (alpha : Int) (vdrs : NodeIDBag) (calls : List Call) (id : ID) :
    ((new alpha vdrs).run calls).result.count id = vdrs.weight Call.vdr (Call.isFor id) calls := by
  suffices h : Awaits Call.vdr vdrs calls ((new alpha vdrs).run calls).polled ∧
      ((new alpha vdrs).run calls).votes.count id = vdrs.weight Call.vdr (Call.isFor id) calls from h.2
  refine foldl_history (P := fun done (p : SnowmanPoll) =>
    Awaits Call.vdr vdrs done p.polled ∧
      p.votes.count id = vdrs.weight Call.vdr (Call.isFor id) done) ⟨.nil vdrs, ?_⟩ ?_ calls
  · simp [weight, countWhere, firstIs, new]
    rfl
  · rintro done p call ⟨hawaits, hcount⟩
    cases call with
    | drop vdr =>
      refine ⟨hawaits.remove (.drop vdr), ?_⟩
      rw [weight_concat_again vdrs (.inr rfl)]
      exact hcount
    | vote vdr vote =>
      refine ⟨hawaits.remove (.vote vdr vote), ?_⟩
      show (p.votes.addCount vote (p.polled.count vdr)).count id = _
      rw [Bag.count_addCount, hcount]
      by_cases hvdr : vdr ∈ done.map Call.vdr
      · rw [weight_concat_again vdrs (.inl hvdr), hawaits.responded vdr hvdr]
        simp
      by_cases hid : vote = id
      · have hfor : Call.isFor id (.vote vdr vote) = true := decide_eq_true hid
        rw [weight_concat_first vdrs hvdr hfor, if_pos hid.symm, hawaits.pending vdr hvdr]
        rfl
      have hfor : Call.isFor id (.vote vdr vote) = false := decide_eq_false hid
      rw [weight_concat_again vdrs (.inr hfor), if_neg (Ne.symm hid), Nat.add_zero]

theorem finished_new {alpha : Int} {vdrs : NodeIDBag} (halpha : 0 < alpha)
    (hvdrs : alpha ≤ vdrs.len) : (new alpha vdrs).finished = false := by
  have hvotes : (new alpha vdrs).votes.len = 0 := rfl
  have hfreq : (new alpha vdrs).votes.modeFreq = 0 := rfl
  simp only [finished, hvotes, hfreq, Bool.or_eq_false_iff, decide_eq_false_iff_not]
  show (¬vdrs.len = 0 ∧ ¬alpha ≤ _) ∧ ¬(_ + (vdrs.len : Int)) < alpha
  omega

end SnowmanPoll

namespace SnowmanPolls

/-- A call of the engine. -/
inductive Op where
  | add (requestID : Nat) (vdrs : NodeIDBag)
  | respond (requestID : Nat) (call : SnowmanPoll.Call)

/-- `Vote` or `Drop`. -/
def handle (s : SnowmanPolls) (requestID : Nat) : SnowmanPoll.Call → List Bag × SnowmanPolls
  | .vote vdr vote => s.vote requestID vdr vote
  | .drop vdr => s.drop requestID vdr

/-- Before the loop the iterator is not initialised; in it, what was returned has been deleted
    and it points to the oldest entry that is left. -/
theorem advance_oldest {iter : LinkedHashmap.Iter Nat SnowmanPoll} {e : Nat × SnowmanPoll}
    (polls : List (Nat × SnowmanPoll)) (h : iter.exhausted = false)
    (hnext : iter.initialized = true → iter.next = some e.1) :
    iter.advance (e :: polls) =
      (true, ⟨some e, polls.head?.map Prod.fst, true, polls.isEmpty⟩) := by
  cases hinit : iter.initialized with
  | true => simp [LinkedHashmap.Iter.advance, h, hinit, hnext hinit]
  | false => simp [LinkedHashmap.Iter.advance, h, hinit]

theorem processLoop_eq {polls : List (Nat × SnowmanPoll)}
    {iter : LinkedHashmap.Iter Nat SnowmanPoll} {fuel : Nat} (results : List Bag)
    (hfuel : polls.length < fuel) (hexhausted : iter.exhausted = true → polls = [])
    (hnext : iter.initialized = true → iter.next = polls.head?.map Prod.fst) :
    processLoop fuel iter results ⟨polls⟩ =
      (results ++ (polls.takeWhile (·.2.finished)).map (·.2.result),
        ⟨polls.dropWhile (·.2.finished)⟩) := by
  induction polls generalizing iter fuel results with
  | nil =>
    obtain ⟨fuel, rfl⟩ := Nat.exists_eq_add_one.mpr (Nat.zero_lt_of_lt hfuel)
    have hend : (iter.advance ([] : List (Nat × SnowmanPoll))).1 = false := by
      unfold LinkedHashmap.Iter.advance
      cases iter.exhausted <;> cases hinit : iter.initialized <;> simp_all
    unfold processLoop
    split
    · rename_i heq
      rw [heq] at hend
      cases hend
    · simp
  | cons e polls ih =>
    obtain ⟨fuel, rfl⟩ := Nat.exists_eq_add_one.mpr (Nat.zero_lt_of_lt hfuel)
    have hadvance := advance_oldest polls
      (Bool.eq_false_iff.mpr fun h => List.cons_ne_nil _ _ (hexhausted h)) hnext
    unfold processLoop
    simp only [hadvance]
    cases hfinished : e.2.finished with
    | false => simp [hfinished]
    | true =>
      -- the poll is deleted, and the iterator points to the next one
      have hdelete : LinkedHashmap.delete (e :: polls) e.1 = polls := by
        simp [LinkedHashmap.delete]
      simp only [if_true, hdelete]
      rw [ih _ (by simpa using hfuel) (by simp) (fun _ => rfl)]
      simp [hfinished]

/-- The loop returns the results of the oldest polls, up to the first one that has not
    finished, and deletes these polls. -/
theorem processFinishedPolls_eq (s : SnowmanPolls) :
    s.processFinishedPolls = ((s.polls.takeWhile (·.2.finished)).map (·.2.result),
      ⟨s.polls.dropWhile (·.2.finished)⟩) :=
  processLoop_eq [] (Nat.lt_succ_self _) (by simp) (by simp)

theorem handle_eq (s : SnowmanPolls) (requestID : Nat) (call : Call) :
    s.handle requestID call = s.respond requestID (·.step call) := by
  cases call <;> rfl

/-- A poll that was added, with the calls it got until its result was returned. -/
structure Registered where
  requestID : Nat
  vdrs : NodeIDBag
  calls : List SnowmanPoll.Call

def Registered.poll (alpha : Int) (r : Registered) : SnowmanPoll :=
  (SnowmanPoll.new alpha r.vdrs).run r.calls

def Registered.record (requestID : Nat) (call : SnowmanPoll.Call) (r : Registered) : Registered :=
  if r.requestID = requestID then { r with calls := r.calls ++ [call] } else r

/-- A run of the set: all results it returned, what `Add` registered, and these polls split into
    those whose results were returned and the others. -/
structure History where
  set : SnowmanPolls
  returned : List Bag
  added : List (Nat × NodeIDBag)
  delivered : List Registered
  outstanding : List Registered

def History.step (alpha : Int) (h : History) : Op → History
  | .add requestID vdrs =>
    let result := h.set.add alpha requestID vdrs
    if result.1 then
      { h with
        set := result.2
        added := h.added ++ [(requestID, vdrs)]
        outstanding := h.outstanding ++ [{ requestID, vdrs, calls := [] }] }
    else { h with set := result.2 }
  | .respond requestID call =>
    let result := h.set.handle requestID call
    let outstanding := h.outstanding.map (Registered.record requestID call)
    { h with
      set := result.2
      returned := h.returned ++ result.1
      delivered := h.delivered ++ outstanding.take result.1.length
      outstanding := outstanding.drop result.1.length }

def run (alpha : Int) (ops : List Op) : History :=
  ops.foldl (History.step alpha) ⟨empty, [], [], [], []⟩

/-- The returned results are those of the first polls that were added, each finished and
    returned once; the set holds the other polls, and the oldest of them has not finished. -/
structure History.Delivers (alpha : Int) (h : History) : Prop where
  added : (h.delivered ++ h.outstanding).map (fun r => (r.requestID, r.vdrs)) = h.added
  returned : h.returned = h.delivered.map fun r => (r.poll alpha).result
  finished : ∀ r ∈ h.delivered, (r.poll alpha).finished = true
  polls : h.set.polls = h.outstanding.map fun r => (r.requestID, r.poll alpha)
  oldest : ∀ p, h.set.polls.head? = some p → p.2.finished = false

variable {alpha : Int} {h : History}

theorem History.Delivers.add (hd : h.Delivers alpha) (halpha : 0 < alpha) (requestID : Nat)
    {vdrs : NodeIDBag} (hvdrs : alpha ≤ vdrs.len) :
    (h.step alpha (.add requestID vdrs)).Delivers alpha := by
  rw [step]
  cases hget : LinkedHashmap.get h.set.polls requestID with
  | some p =>
    simp only [SnowmanPolls.add, hget]
    exact hd
  | none =>
    have hput : LinkedHashmap.put h.set.polls requestID (.new alpha vdrs) =
        h.set.polls ++ [(requestID, .new alpha vdrs)] := by
      rw [LinkedHashmap.get, Option.map_eq_none_iff, find?_eq_none] at hget
      rw [LinkedHashmap.put, LinkedHashmap.delete, eraseP_of_forall_not hget]
    simp only [SnowmanPolls.add, hget, hput, if_true]
    refine ⟨?_, hd.returned, hd.finished, ?_, ?_⟩
    · rw [← append_assoc, map_append, hd.added]
      rfl
    · simp only [map_append, ← hd.polls]
      rfl
    intro p hp
    rw [head?_append] at hp
    cases hhead : h.set.polls.head? with
    | some p' =>
      rw [hhead] at hp
      exact hd.oldest p (hhead.trans hp)
    | none =>
      rw [hhead] at hp
      cases hp
      exact finished_new halpha hvdrs

theorem Registered.poll_record (requestID : Nat) (call : Call) (r : Registered) :
    ((r.record requestID call).requestID, (r.record requestID call).poll alpha) =
      if r.requestID = requestID then (r.requestID, (r.poll alpha).step call)
      else (r.requestID, r.poll alpha) := by
  unfold Registered.record
  split
  · rw [Registered.poll, SnowmanPoll.run, foldl_append]
    rfl
  · rfl

/-- The results of the oldest polls are returned, up to the first that has not finished. -/
theorem History.Delivers.process (hd : h.Delivers alpha) {outstanding : List Registered}
    (hadded : (h.delivered ++ outstanding).map (fun r => (r.requestID, r.vdrs)) = h.added)
    {result : List Bag × SnowmanPolls} (hresult : result =
      processFinishedPolls ⟨outstanding.map fun r => (r.requestID, r.poll alpha)⟩) :
    History.Delivers alpha
      ⟨result.2, h.returned ++ result.1, h.added, h.delivered ++ outstanding.take result.1.length,
        outstanding.drop result.1.length⟩ := by
  set done := outstanding.takeWhile fun r => (r.poll alpha).finished with hdone
  have hsplit := takeWhile_append_dropWhile (p := fun r => (r.poll alpha).finished)
    (l := outstanding)
  have htake : outstanding.take done.length = done := by
    conv_lhs => rw [← hsplit]
    exact take_left
  have hdrop : outstanding.drop done.length =
      outstanding.dropWhile fun r => (r.poll alpha).finished := by
    conv_lhs => rw [← hsplit]
    exact drop_left
  have hresults : ((outstanding.map fun r => (r.requestID, r.poll alpha)).takeWhile
      (·.2.finished)).map (·.2.result) = done.map fun r => (r.poll alpha).result := by
    rw [takeWhile_map, map_map]
    rfl
  simp only [hresult, processFinishedPolls_eq, hresults, length_map, htake, hdrop]
  refine ⟨?_, ?_, ?_, ?_, ?_⟩
  · rw [append_assoc, hsplit]
    exact hadded
  · rw [map_append, hd.returned]
  · intro r hr
    rcases mem_append.mp hr with hr | hr
    · exact hd.finished r hr
    · exact mem_takeWhile_imp (p := fun r : Registered => (r.poll alpha).finished) hr
  · rw [dropWhile_map]
    rfl
  · intro e he
    have hnot := head?_dropWhile_not (fun e : Nat × SnowmanPoll => e.2.finished)
      (outstanding.map fun r => (r.requestID, r.poll alpha))
    rw [he] at hnot
    exact hnot

theorem History.Delivers.respond (hd : h.Delivers alpha) (requestID : Nat)
    (call : Call) : (h.step alpha (.respond requestID call)).Delivers alpha := by
  have hadded : (h.delivered ++ h.outstanding.map (Registered.record requestID call)).map
      (fun r => (r.requestID, r.vdrs)) = h.added := by
    rw [← hd.added, map_append, map_append, map_map]
    congr 2
    funext r
    simp only [Function.comp, Registered.record]
    split <;> rfl
  rw [step, handle_eq]
  set outstanding := h.outstanding.map (Registered.record requestID call) with hout
  have hpolls : outstanding.map (fun r => (r.requestID, r.poll alpha)) = h.set.polls.map fun e =>
      if e.1 = requestID then (e.1, e.2.step call) else e := by
    rw [hd.polls, hout, map_map, map_map]
    exact map_congr_left fun r _ => r.poll_record requestID call
  cases hget : LinkedHashmap.get h.set.polls requestID with
  | none =>
    -- no poll of the request is outstanding, and nothing changes
    have hsame : (h.set.polls.map fun e =>
        if e.1 = requestID then (e.1, e.2.step call) else e) = h.set.polls := by
      rw [LinkedHashmap.get, Option.map_eq_none_iff, find?_eq_none] at hget
      refine (map_congr_left fun e he => ?_).trans (map_id _)
      rw [if_neg (by simpa using hget e he)]
      rfl
    simp only [SnowmanPolls.respond, hget, append_nil, length_nil, take_zero, drop_zero]
    exact ⟨hadded, hd.returned, hd.finished, by rw [hpolls, hsame], hd.oldest⟩
  | some p =>
    simp only [SnowmanPolls.respond, hget, ← hpolls]
    split
    · exact hd.process hadded rfl
    · -- the poll has not finished, whether or not it is the oldest
      rename_i hfin
      simp only [append_nil, length_nil, take_zero, drop_zero]
      refine ⟨hadded, hd.returned, hd.finished, rfl, fun e he => ?_⟩
      rw [hpolls] at he
      cases hlist : h.set.polls with
      | nil =>
        rw [hlist] at he
        cases he
      | cons e' rest =>
        rw [hlist] at he
        have hold := hd.oldest e' (by rw [hlist]; rfl)
        simp only [map_cons, head?_cons, Option.some.injEq] at he
        subst he
        by_cases hid : e'.1 = requestID
        · have hp : e'.2 = p := by simpa [LinkedHashmap.get, hlist, hid] using hget
          simpa [hid, hp] using hfin
        · rwa [if_neg hid]

/-- **Delivery**: in every run whose polls sample at least alpha validators, the results are
    returned in the order of `Add`, each once and when the poll has finished. A result has at
    most as many votes as were sampled, and each sampled validator counts for at most one
    block. -/
theorem polls_delivered (halpha : 0 < alpha) {ops : List Op}
    (hops : ∀ requestID vdrs, Op.add requestID vdrs ∈ ops → alpha ≤ vdrs.len) :
    (run alpha ops).Delivers alpha ∧ ∀ r ∈ (run alpha ops).delivered,
      (r.poll alpha).result.len ≤ r.vdrs.len ∧
      ∀ id, (r.poll alpha).result.count id =
        r.vdrs.weight SnowmanPoll.Call.vdr (SnowmanPoll.Call.isFor id) r.calls := by
  refine ⟨?_, fun r _ => ⟨?_, count_run alpha r.vdrs r.calls⟩⟩
  · refine foldlRecOn ops _ ⟨rfl, rfl, by simp, rfl, by simp [empty]⟩ fun h hd op hop => ?_
    cases op with
    | add requestID vdrs => exact hd.add halpha requestID (hops requestID vdrs hop)
    | respond requestID call => exact hd.respond requestID call
  have hgrows := grows_run (new alpha r.vdrs) r.calls
  have htotal := hgrows.total_le
  have hvotes : (new alpha r.vdrs).votes.len = 0 := rfl
  have hpolled : (new alpha r.vdrs).polled.len = r.vdrs.len := rfl
  show (r.poll alpha).votes.len ≤ _
  rw [Registered.poll]
  omega

/-- Two polls; the younger one finishes first. -/
def twoPolls : List Op :=
  [.add 1 (NodeIDBag.empty.add [⟨1⟩]), .add 2 (NodeIDBag.empty.add [⟨1⟩]),
    .respond 2 (.vote ⟨1⟩ ⟨8⟩), .respond 1 (.vote ⟨1⟩ ⟨7⟩)]

theorem polls_delivered_twoPolls :
    (run 1 twoPolls).returned.map Bag.list = [[⟨7⟩], [⟨8⟩]] ∧ (run 1 twoPolls).Delivers 1 := by
  refine ⟨by decide, (polls_delivered (by decide) ?_).1⟩
  intro requestID vdrs hmem
  simp only [twoPolls, mem_cons, Op.add.injEq, not_mem_nil, or_false, reduceCtorEq] at hmem
  rcases hmem with ⟨-, rfl⟩ | ⟨-, rfl⟩ <;> decide

end SnowmanPolls

end SavannahNode
