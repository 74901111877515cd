import SavannahNode.Native.SnowmanPoll
import SavannahNode.Spec.TopologicalPreference

/-!
# Early termination of snowman polls

A poll may finish before all validators have responded. What matters of a bag of votes is
which sets of IDs have a majority in it: `filter`, `split` and the votes below a block are
all counts over sets of IDs, and every decision compares such a count with `alpha`. Bags
with the same majorities therefore leave the same state, as long as no block is counted
twice in either of them or the head has no majority below it. A finished poll has the majorities of every poll it could become.

## Key results

- `Topological.recordPoll_congr`: `RecordPoll` depends on the majorities only
- `SnowmanPoll.sameMajority_of_finished`: later responses change no majority
- `Topological.recordPoll_of_finished`: terminating early changes nothing
-/

namespace SavannahNode

open List Option SnowmanPoll

namespace Bag

/-- The same sets of IDs have a majority. -/
def SameMajority (alpha : Int) (b b' : Bag) : Prop :=
  ∀ P, alpha ≤ b.countWhere P ↔ alpha ≤ b'.countWhere P

variable {alpha : Int} {b b' : Bag}

theorem SameMajority.len_lt_iff (h : SameMajority alpha b b') :
    (b.len : Int) < alpha ↔ (b'.len : Int) < alpha := by
  have := h fun _ => true
  rw [← len_eq_countWhere, ← len_eq_countWhere] at this
  omega

theorem SameMajority.filter (h : SameMajority alpha b b') (start stop : Nat) (id : ID) :
    SameMajority alpha (b.filter start stop id) (b'.filter start stop id) := by
  intro P
  rw [countWhere_filter, countWhere_filter]
  exact h _

theorem SameMajority.split (h : SameMajority alpha b b') (index : Nat) (bit : Bool) :
    SameMajority alpha ((b.split index).get bit) ((b'.split index).get bit) := by
  intro P
  rw [countWhere_split, countWhere_split]
  exact h _

end Bag

/-! ## One instance -/

variable {votes votes' : Bag}

/-- A node of the snowball tree reads only majorities from the votes. -/
theorem Node.recordPoll_congr (params : Parameters) (n : Node) (reset : Bool)
    (h : Bag.SameMajority params.alpha votes votes') :
    n.recordPoll params votes reset = n.recordPoll params votes' reset := by
  induction n generalizing votes votes' reset with
  | nil => rfl
  | unary u child ih =>
    rw [recordPoll, recordPoll]
    dsimp only
    by_cases hlt : (votes.len : Int) < params.alpha
    · rw [if_pos hlt, if_pos (h.len_lt_iff.mp hlt)]
    · rw [if_neg hlt, if_neg fun hlt' => hlt (h.len_lt_iff.mpr hlt'), ih _ h]
  | binary b children ih =>
    have hbit : decide (params.alpha ≤ (((votes.split b.bit).get true).len : Int)) =
        decide (params.alpha ≤ (((votes'.split b.bit).get true).len : Int)) := by
      have := (h.split b.bit true).len_lt_iff
      rw [decide_eq_decide]
      omega
    rw [recordPoll, recordPoll]
    dsimp only
    rw [hbit]
    generalize decide (params.alpha ≤ (((votes'.split b.bit).get true).len : Int)) = bit
    have hsplit := h.split b.bit bit
    by_cases hlt : (((votes.split b.bit).get bit).len : Int) < params.alpha
    · rw [if_pos hlt, if_pos (hsplit.len_lt_iff.mp hlt)]
    rw [if_neg hlt, if_neg fun hlt' => hlt (hsplit.len_lt_iff.mpr hlt')]
    rw [ih bit _ (hsplit.filter _ _ _)]

theorem Tree.recordPoll_congr (t : Tree)
    (h : Bag.SameMajority t.params.alpha votes votes') : t.recordPoll votes = t.recordPoll votes' := by
  rw [recordPoll, recordPoll, Node.recordPoll_congr t.params t.node t.shouldReset (h.filter _ _ _)]

theorem Tree.params_run (t : Tree) (ops : List Tree.Op) : (t.run ops).params = t.params := by
  refine foldl_history (P := fun _ (t' : Tree) => t'.params = t.params) rfl ?_ ops
  intro _ t' op h
  cases op with
  | add choice =>
    rw [← h]
    show (t'.add choice).params = t'.params
    rw [Tree.add]
    split <;> rfl
  | recordPoll votes => exact h
  | recordUnsuccessfulPoll => exact h

theorem SnowmanBlock.Sound.params_eq {params : Parameters} {n : SnowmanBlock} (h : n.Sound params)
    {sb : Tree} (hsb : n.sb = some sb) : sb.params = params := by
  obtain ⟨choice, ops, rfl, -⟩ := h.exists_run hsb
  exact Tree.params_run ..

/-! ## The whole poll -/

namespace Topological

variable {ts : Topological} {T : RootedTree ID}

/-- The body of the loop of `vote` reads only majorities. -/
theorem voteOn_congr (h : Shape ts T) (order : RangeOrder ID) {vote vote' : Votes}
    {n : SnowmanBlock} (hn : ts.blocks.lookup vote.parentID = some n) (nextID : ID)
    (hid : vote.parentID = vote'.parentID)
    (hsame : Bag.SameMajority ts.params.alpha vote.votes vote'.votes) :
    ts.voteOn order n vote nextID = ts.voteOn order n vote' nextID := by
  cases hsb : n.sb with
  | none =>
    rw [voteOn, voteOn, hsb]
    rfl
  | some sb =>
    have hparams := (h.sound _ n hn).params_eq hsb
    have hpoll : (if n.shouldFalter then sb.recordUnsuccessfulPoll else sb).recordPoll vote.votes =
        (if n.shouldFalter then sb.recordUnsuccessfulPoll else sb).recordPoll vote'.votes := by
      refine Tree.recordPoll_congr _ ?_
      cases n.shouldFalter <;> exact hparams ▸ hsame
    rw [voteOn, voteOn, hsb]
    simp only [bind_eq_bind, bind_some]
    rw [hpoll, hid]

/-- Two stacks for the same blocks, with the same majorities. -/
structure SameVotes (alpha : Int) (stack stack' : List Votes) : Prop where
  ids : stack.map Votes.parentID = stack'.map Votes.parentID
  votes : ∀ vote ∈ stack, ∀ vote' ∈ stack', vote.parentID = vote'.parentID →
    Bag.SameMajority alpha vote.votes vote'.votes

theorem SameVotes.tail {alpha : Int} {vote vote' : Votes} {stack stack' : List Votes}
    (h : SameVotes alpha (vote :: stack) (vote' :: stack')) : SameVotes alpha stack stack' where
  ids := (cons.inj h.ids).2
  votes v hv v' hv' := h.votes v (mem_cons_of_mem _ hv) v' (mem_cons_of_mem _ hv')

theorem voteLoop_congr (order : RangeOrder ID) {stack stack' : List Votes} (h : Shape ts T)
    (hle : ts.params.betaVirtuous ≤ ts.params.betaRogue)
    (hsame : SameVotes ts.params.alpha stack stack') (newPreferred : ID) (on : Bool) :
    voteLoop order stack ts newPreferred on = voteLoop order stack' ts newPreferred on := by
  induction stack generalizing stack' ts T newPreferred on with
  | nil =>
    obtain rfl := map_eq_nil_iff.mp hsame.ids.symm
    rfl
  | cons vote stack ih =>
    cases stack' with
    | nil => cases hsame.ids
    | cons vote' stack' =>
      have hid : vote.parentID = vote'.parentID := (cons.inj hsame.ids).1
      have hnext : nextOf stack = nextOf stack' := by
        have hrest := hsame.tail.ids
        cases stack <;> cases stack'
        · rfl
        · cases hrest
        · cases hrest
        · exact (cons.inj hrest).1
      cases hn : ts.blocks.lookup vote.parentID with
      | none =>
        have hn' : ts.blocks.lookup vote'.parentID = none := hid ▸ hn
        rw [voteLoop.eq_def, voteLoop.eq_def]
        dsimp only
        rw [hn, hn']
      | some n =>
        have hn' : ts.blocks.lookup vote'.parentID = some n := hid ▸ hn
        rw [voteLoop_cons order stack hn, voteLoop_cons order stack' hn', ← hnext,
          voteOn_congr h order hn (nextOf stack) hid
            (hsame.votes vote mem_cons_self vote' mem_cons_self hid)]
        cases hsb : n.sb with
        | none =>
          rw [voteOn, hsb]
          rfl
        | some sb =>
          obtain ⟨ts', T', hrun, happ, -⟩ := voteOn_spec h hle order hn' hsb (nextOf stack)
          rw [hrun, bind_some, bind_some]
          exact ih happ.shape (happ.params ▸ hle) (happ.params ▸ hsame.tail) _ _

variable (h : Shape ts T) (hparams : ts.params.Valid) (hlen : (votes.len : Int) ≤ ts.params.k)
  (hlen' : (votes'.len : Int) ≤ ts.params.k) (hun : Unblocked T ts.params.alpha votes)
  (hun' : Unblocked T ts.params.alpha votes') (hsame : Bag.SameMajority ts.params.alpha votes votes')

include h hparams hlen hlen' hun hun' hsame

/-- Votes with the same majorities lead to the same stack when nothing blocks the way to the head. -/
theorem voteStack_congr (pops pops' : RangeOrder ID) :
    ∃ stack stack', ts.voteStack pops votes = some stack ∧ ts.voteStack pops' votes' = some stack' ∧
      SameVotes ts.params.alpha stack stack' := by
  obtain ⟨stack, hstack, hbranch, hcomplete, -⟩ := voteStack_spec h hparams hlen pops
  obtain ⟨stack', hstack', hbranch', hcomplete', -⟩ := voteStack_spec h hparams hlen' pops'
  refine ⟨stack, stack', hstack, hstack', ?_, ?_⟩
  · -- both stacks list the blocks with a majority below them, from the head down
    have hmem : ∀ q, q ∈ stack.map Votes.parentID ↔ q ∈ stack'.map Votes.parentID := by
      intro q
      constructor
      · intro hq
        obtain ⟨vote, hvote, rfl⟩ := mem_map.mp hq
        exact hcomplete' hun' _ ((hsame _).mp (hbranch.support_ge vote hvote))
      intro hq
      obtain ⟨vote, hvote, rfl⟩ := mem_map.mp hq
      exact hcomplete hun _ ((hsame _).mpr (hbranch'.support_ge vote hvote))
    have hirrefl : ∀ {a b : ID}, T.Below a b → a ≠ b := by
      rintro a b hab rfl
      exact RootedTree.not_below_self hab
    have hperm : (stack.map Votes.parentID).Perm (stack'.map Votes.parentID) :=
      (perm_ext_iff_of_nodup (hbranch.pairwise.imp hirrefl)
        (hbranch'.pairwise.imp hirrefl)).mpr hmem
    have hanti : Std.Antisymm T.Below :=
      ⟨fun a b hab hba => absurd (hab.trans hba) RootedTree.not_below_self⟩
    exact hperm.eq_of_pairwise' hbranch.pairwise hbranch'.pairwise
  · intro vote hvote vote' hvote' hid P
    rw [hbranch.votes_eq vote hvote, hbranch'.votes_eq vote' hvote', ← hid]
    exact hsame _

/-- `RecordPoll` reads only majorities from the votes, when nothing blocks the way to the head. -/
theorem recordPoll_congr (pops pops' order : RangeOrder ID) :
    ts.recordPoll pops order votes = ts.recordPoll pops' order votes' := by
  set ts1 : Topological := { ts with pollNumber := ts.pollNumber + 1 } with hts1
  have hshape1 : Shape ts1 T := { h with }
  obtain ⟨stack, stack', hstack, hstack', hvotes⟩ :=
    voteStack_congr hshape1 hparams hlen hlen' hun hun' hsame pops pops'
  have hvote : ts1.vote order stack = ts1.vote order stack' := by
    cases stack with
    | nil =>
      obtain rfl := map_eq_nil_iff.mp hvotes.ids.symm
      rfl
    | cons vote stack =>
      cases stack' with
      | nil => cases hvotes.ids
      | cons vote' stack' => exact voteLoop_congr order hshape1 hparams.betaVirtuous_le hvotes _ _
  rw [recordPoll, recordPoll]
  simp only [bind_eq_bind]
  rw [hstack, hstack', bind_some, bind_some, hvote]

end Topological

/-! ## Polls -/

namespace SnowmanPoll

/-- What further calls do to a poll: votes are added, as many as validators are left. -/
structure Grows (p p' : SnowmanPoll) : Prop where
  alpha : p'.alpha = p.alpha
  count_le : ∀ P, p.votes.countWhere P ≤ p'.votes.countWhere P
  total_le : p'.votes.len + p'.polled.len ≤ p.votes.len + p.polled.len
  len_le : p'.polled.len ≤ p.polled.len

theorem Grows.refl (p : SnowmanPoll) : Grows p p := ⟨rfl, fun _ => Nat.le_refl _, Nat.le_refl _, Nat.le_refl _⟩

theorem Grows.trans {p p' p'' : SnowmanPoll} (h : Grows p p') (h' : Grows p' p'') : Grows p p'' where
  alpha := h'.alpha.trans h.alpha
  count_le P := (h.count_le P).trans (h'.count_le P)
  total_le := h'.total_le.trans h.total_le
  len_le := h'.len_le.trans h.len_le

theorem grows_step (p : SnowmanPoll) (call : Call) : Grows p (p.step call) := by
  cases call with
  | vote vdr id =>
    have hlen := p.polled.len_remove vdr
    refine ⟨rfl, fun P => ?_, ?_, ?_⟩
    · show _ ≤ (p.votes.addCount id (p.polled.count vdr)).countWhere P
      rw [Bag.countWhere_addCount]
      omega
    · show (p.votes.addCount id (p.polled.count vdr)).len + (p.polled.remove vdr).len ≤ _
      rw [Bag.len_addCount]
      omega
    · show (p.polled.remove vdr).len ≤ _
      omega
  | drop vdr =>
    have hlen := p.polled.len_remove vdr
    refine ⟨rfl, fun P => Nat.le_refl _, ?_, ?_⟩
    · show p.votes.len + (p.polled.remove vdr).len ≤ _
      omega
    · show (p.polled.remove vdr).len ≤ _
      omega

theorem grows_run (p : SnowmanPoll) (calls : List Call) : Grows p (p.run calls) := by
  refine foldl_history (P := fun _ p' => Grows p p') (Grows.refl p) ?_ calls
  intro _ p' call h
  exact h.trans (p'.grows_step call)

/-- The responses that are still to come change no majority of a finished poll of at most
    `k` validators. -/
theorem sameMajority_of_finished {p p' : SnowmanPoll} {k : Int} (hgrows : Grows p p')
    (hfin : p.finished = true) (hk : k < 2 * p.alpha)
    (hlen : ((p.votes.len + p.polled.len : Nat) : Int) ≤ k) :
    Bag.SameMajority p.alpha p.result p'.result := by
  intro P
  show p.alpha ≤ (p.votes.countWhere P : Int) ↔ p.alpha ≤ (p'.votes.countWhere P : Int)
  have hmono := hgrows.count_le P
  have htotal := hgrows.total_le
  have hbound := p'.votes.countWhere_le_len P
  rw [finished, Bool.or_eq_true, Bool.or_eq_true, decide_eq_true_eq, decide_eq_true_eq,
    decide_eq_true_eq] at hfin
  rcases hfin with (hnone | hmode) | hnever
  · -- nobody is left to respond: what is counted under `P` and under its complement is all
    have hcompl := hgrows.count_le fun id => !P id
    have hall : ∀ b : Bag, b.countWhere P + b.countWhere (fun id => !P id) = b.len := by
      intro b
      have hor := b.countWhere_or (P := P) (Q := fun id => !P id) fun id hid => by simp [hid]
      have htrue : (fun x => P x || !P x) = fun _ => true := by
        funext x
        simp
      rw [htrue, ← Bag.len_eq_countWhere] at hor
      exact hor.symm
    have h1 := hall p.votes
    have h2 := hall p'.votes
    omega
  · -- the mode has a majority, and nothing apart from it ever can
    have hmode' : p.votes.countWhere (fun x => x = p.votes.mode) = p.votes.modeFreq := by
      rw [← Bag.count_eq_countWhere]
      exact p.votes.countOf_mode
    have hmode'' := hgrows.count_le fun x => x = p.votes.mode
    by_cases hP : P p.votes.mode = true
    · have hle : p.votes.modeFreq ≤ p.votes.countWhere P := by
        rw [← hmode']
        refine Bag.countWhere_mono fun id _ hid => ?_
        rw [of_decide_eq_true hid]
        exact hP
      omega
    have hdisj := p'.votes.countWhere_add_le_len (P := P) (Q := fun x => x = p.votes.mode)
      fun id hid => decide_eq_false fun heq => hP (heq ▸ hid)
    omega
  · omega

end SnowmanPoll

namespace Topological

/-- Of two bags with the same majorities, one that counts a block twice under a majority and
    one that does not: the votes of one reach the head, those of the other do not. -/
theorem voteStack_of_blocked (h : Shape ts T) (hparams : ts.params.Valid)
    (hlen : (votes.len : Int) ≤ ts.params.k) (hlen' : (votes'.len : Int) ≤ ts.params.k)
    (hsame : Bag.SameMajority ts.params.alpha votes votes')
    (hun : Unblocked T ts.params.alpha votes) (hblocked : ¬ Unblocked T ts.params.alpha votes')
    (pops pops' : RangeOrder ID) :
    ∃ stack stack', ts.voteStack pops votes = some stack ∧ ts.voteStack pops' votes' = some stack' ∧
      ts.head ∈ stack.map Votes.parentID ∧ ts.head ∉ stack'.map Votes.parentID := by
  obtain ⟨stack, hstack, -, hcomplete, -⟩ := voteStack_spec h hparams hlen pops
  obtain ⟨stack', hstack', -, -, hroot⟩ := voteStack_spec h hparams hlen' pops'
  obtain ⟨htwice, hmany⟩ := not_or.mp hblocked
  refine ⟨stack, stack', hstack, hstack', ?_, ?_⟩
  · rw [← h.root_eq]
    refine hcomplete hun T.root ((hsame _).mpr ?_)
    exact not_lt.mp hmany
  · rw [← h.root_eq]
    exact fun hmem => htwice (hroot hmem)

section finished

variable {params : Parameters} {rootID : ID} {rootHeight : Nat} {status : ID → Status}
  {ts₀ : Topological} {ops : List Op} {vdrs : NodeIDBag} {calls : List SnowmanPoll.Call}
  {current completed : Bag}

/-- In every state of a run, the votes of a finished poll and the votes after further responses
    are at most `K` and have the same majorities. -/
theorem regular_of_finished (more : List SnowmanPoll.Call)
    (hinit : init params rootID rootHeight status = .ok ts₀)
    (hops : List.Throughout (fun ts op => op.Bounded rootID ts) step ts₀ ops)
    (hrun : ts₀.run ops = some ts) (hvdrs : (vdrs.len : Int) = params.k)
    (hfin : ((SnowmanPoll.new params.alpha vdrs).run calls).finished = true)
    (hcurrent : ∀ P, current.countWhere P =
      ((SnowmanPoll.new params.alpha vdrs).run calls).result.countWhere P)
    (hcompleted : ∀ P, completed.countWhere P =
      ((SnowmanPoll.new params.alpha vdrs).run (calls ++ more)).result.countWhere P) :
    Regular params rootID ts ∧ (current.len : Int) ≤ params.k ∧ (completed.len : Int) ≤ params.k ∧
      Bag.SameMajority params.alpha current completed := by
  have hvalid := Parameters.valid_of_verify (verify_of_init hinit).1
  obtain ⟨ts₁, hrun₁, hregular⟩ := Throughout.foldlM
    (fun ts op (h : Regular params rootID ts) hop => h.step hvalid hop) (regular_init hinit) hops
  obtain rfl := some.inj (hrun.symm.trans hrun₁)
  set p₀ := new params.alpha vdrs with hp₀
  set p := p₀.run calls with hp
  -- the poll never has more votes than validators were sampled
  have hgrows : p₀.Grows p := p₀.grows_run calls
  have hmore : p.Grows (p₀.run (calls ++ more)) := by
    rw [SnowmanPoll.run, foldl_append]
    exact p.grows_run more
  have htotal₀ : p₀.votes.len + p₀.polled.len = vdrs.len := Nat.zero_add _
  have htotal := hgrows.total_le
  have htotal' := (hgrows.trans hmore).total_le
  have hlen : ∀ {b : Bag} {q : SnowmanPoll}, (∀ P, b.countWhere P = q.result.countWhere P) →
      q.votes.len + q.polled.len ≤ vdrs.len → (b.len : Int) ≤ params.k := by
    intro b q hb hq
    rw [Bag.len_eq_countWhere, hb, ← Bag.len_eq_countWhere]
    show (q.votes.len : Int) ≤ _
    omega
  refine ⟨hregular, hlen hcurrent (by omega), hlen hcompleted (by omega), fun P => ?_⟩
  have halpha : p.alpha = params.alpha := hgrows.alpha
  have h := sameMajority_of_finished (k := params.k) hmore hfin
    (halpha ▸ hvalid.k_lt_two_alpha) (by omega)
  rw [hcurrent, hcompleted, ← halpha]
  exact h P

/-- **Early termination**: in every state of a run, the votes of a finished poll and the votes
    after any further responses lead to the same state, in whichever order the votes are
    visited, as long as each of the two bags counts no block twice or has no majority below the
    head. When only one of them does, the head is voted on for this bag and not for the other. -/
theorem recordPoll_of_finished (more : List SnowmanPoll.Call)
    (hinit : init params rootID rootHeight status = .ok ts₀)
    (hops : List.Throughout (fun ts op => op.Bounded rootID ts) step ts₀ ops)
    (hrun : ts₀.run ops = some ts) (hvdrs : (vdrs.len : Int) = params.k)
    (hfin : ((SnowmanPoll.new params.alpha vdrs).run calls).finished = true)
    (hcurrent : ∀ P, current.countWhere P =
      ((SnowmanPoll.new params.alpha vdrs).run calls).result.countWhere P)
    (hcompleted : ∀ P, completed.countWhere P =
      ((SnowmanPoll.new params.alpha vdrs).run (calls ++ more)).result.countWhere P)
    (pops pops' order : RangeOrder ID) :
    ∃ T, Shape ts T ∧
      (Unblocked T params.alpha current → Unblocked T params.alpha completed →
        ∃ ts', ts.recordPoll pops order current = some ts' ∧
          ts.recordPoll pops' order completed = some ts') ∧
      ((Unblocked T params.alpha current ↔ ¬ Unblocked T params.alpha completed) →
        ∃ stack stack', ts.voteStack pops current = some stack ∧
          ts.voteStack pops' completed = some stack' ∧
          (ts.head ∈ stack.map Votes.parentID ↔ ts.head ∉ stack'.map Votes.parentID)) := by
  have hvalid := Parameters.valid_of_verify (verify_of_init hinit).1
  obtain ⟨hregular, hlen, hlen', hsame⟩ :=
    regular_of_finished more hinit hops hrun hvdrs hfin hcurrent hcompleted
  obtain ⟨rfl, -, T, hshape, -⟩ := id hregular
  refine ⟨T, hshape, fun hun hun' => ?_, fun hone => ?_⟩
  · have hbounded : Op.Bounded rootID ts (.recordPoll pops order current) := hlen
    obtain ⟨ts', hpoll, -⟩ := hregular.step hvalid hbounded
    refine ⟨ts', hpoll, ?_⟩
    rw [← recordPoll_congr hshape hvalid hlen hlen' hun hun' hsame pops pops' order]
    exact hpoll
  by_cases hun : Unblocked T ts.params.alpha current
  · obtain ⟨stack, stack', hstack, hstack', hmem, hnot⟩ := voteStack_of_blocked hshape hvalid
      hlen hlen' hsame hun (hone.mp hun) pops pops'
    exact ⟨stack, stack', hstack, hstack', by simp only [hmem, hnot, not_false_eq_true]⟩
  · have hun' := not_not.mp fun hnot => hun (hone.mpr hnot)
    obtain ⟨stack', stack, hstack', hstack, hmem, hnot⟩ := voteStack_of_blocked hshape hvalid
      hlen' hlen (fun P => (hsame P).symm) hun' hun pops' pops
    exact ⟨stack, stack', hstack, hstack', by simp only [hmem, hnot, not_true_eq_false]⟩

end finished

theorem bounded_chainAdds (ts : Topological) :
    Throughout (fun ts op => op.Bounded ⟨9⟩ ts) step ts chainAdds := by
  have h1 : (⟨1⟩ : ID) ≠ ⟨9⟩ := by decide
  have h2 : (⟨2⟩ : ID) ≠ ⟨9⟩ := by decide
  have h3 : (⟨3⟩ : ID) ≠ ⟨9⟩ := by decide
  exact ⟨h1, fun _ _ => ⟨h2, fun _ _ => ⟨h3, fun _ _ => trivial⟩⟩⟩

/-- Parameters for which two of three votes are a majority. -/
def twoOfThree : Parameters := { Parameters.minimal with k := 3, alpha := 2 }

/-- Three validators. -/
def threeVdrs : NodeIDBag := NodeIDBag.empty.add [⟨1⟩, ⟨2⟩, ⟨3⟩]

/-- Two of the validators vote for the block in the middle of the chain. -/
def twoForMiddle : List SnowmanPoll.Call := [.vote ⟨1⟩ ⟨2⟩, .vote ⟨2⟩ ⟨2⟩]

/-- A third vote for the same block changes nothing. -/
theorem recordPoll_of_finished_lastVote :
    ∃ ts₀ ts ts', init twoOfThree ⟨9⟩ 0 (fun _ => .processing) = .ok ts₀ ∧
      ts₀.run chainAdds = some ts ∧
      ((SnowmanPoll.new twoOfThree.alpha threeVdrs).run twoForMiddle).finished = true ∧
      ts.recordPoll .ids .ids
        ((SnowmanPoll.new twoOfThree.alpha threeVdrs).run twoForMiddle).result = some ts' ∧
      ts.recordPoll .ids .ids ((SnowmanPoll.new twoOfThree.alpha threeVdrs).run
        (twoForMiddle ++ [.vote ⟨3⟩ ⟨2⟩])).result = some ts' := by
  have hobs : ((init twoOfThree ⟨9⟩ 0 fun _ => .processing).toOption.bind
      (·.run chainAdds)).map (fun ts => ts.head) = some ⟨9⟩ := by decide +kernel
  obtain ⟨ts₀, ts, hinit, hrun, -⟩ := exists_run_of_observed hobs
  have hfin : ((new twoOfThree.alpha threeVdrs).run twoForMiddle).finished = true := by
    decide
  obtain ⟨T, -, hboth, -⟩ := recordPoll_of_finished [.vote ⟨3⟩ ⟨2⟩] hinit
    (bounded_chainAdds ts₀) hrun (show (threeVdrs.len : Int) = twoOfThree.k by decide) hfin
    (fun P => rfl) (fun P => rfl) .ids .ids .ids
  obtain ⟨ts', hcurrent, hcompleted⟩ := hboth (.inl (countedOnce_of_list_eq rfl))
    (.inl (countedOnce_of_list_eq rfl))
  exact ⟨ts₀, ts, ts', hinit, hrun, hfin, hcurrent, hcompleted⟩

theorem observed_finished :
    ((init twoOfThree ⟨9⟩ 0 fun _ => .processing).toOption.bind (·.run chainAdds)).map
      (fun ts =>
        ((ts.recordPoll .ids .ids
          ((new twoOfThree.alpha threeVdrs).run twoForMiddle).result).map (·.decidables.calls),
        (ts.recordPoll .ids .ids ((new twoOfThree.alpha threeVdrs).run
          (twoForMiddle ++ [.vote ⟨3⟩ ⟨3⟩])).result).map (·.decidables.calls))) =
      some (some [.accept ⟨1⟩, .accept ⟨2⟩], some []) := by
  decide +kernel

/-- A last vote for a block further down undoes the majority. -/
theorem exists_finished_not_final :
    ∃ ts₀ ts current completed, init twoOfThree ⟨9⟩ 0 (fun _ => .processing) = .ok ts₀ ∧
      Allowed twoOfThree ⟨9⟩ 0 (fun _ => .processing) [] chainAdds ∧
      ts₀.run chainAdds = some ts ∧
      ((SnowmanPoll.new twoOfThree.alpha threeVdrs).run twoForMiddle).finished = true ∧
      ts.recordPoll .ids .ids
        ((SnowmanPoll.new twoOfThree.alpha threeVdrs).run twoForMiddle).result = some current ∧
      ts.recordPoll .ids .ids ((SnowmanPoll.new twoOfThree.alpha threeVdrs).run
        (twoForMiddle ++ [.vote ⟨3⟩ ⟨3⟩])).result = some completed ∧
      current.decidables.calls ≠ completed.decidables.calls := by
  obtain ⟨ts₀, ts, hinit, hrun, hobs⟩ := exists_run_of_observed observed_finished
  obtain ⟨hcurrent, hcompleted⟩ := Prod.mk.inj hobs
  obtain ⟨current, hpoll, hcalls⟩ := map_eq_some_iff.mp hcurrent
  obtain ⟨completed, hpoll', hcalls'⟩ := map_eq_some_iff.mp hcompleted
  refine ⟨ts₀, ts, current, completed, hinit, ?_, hrun, by decide, hpoll, hpoll', ?_⟩
  · exact ⟨⟨by decide, by decide, rfl, .inl ⟨rfl, rfl⟩⟩,
      ⟨by decide, by decide, rfl, .inr ⟨⟨⟨1⟩, ⟨9⟩, 1⟩, by decide, rfl, rfl⟩⟩,
      ⟨by decide, by decide, rfl, .inr ⟨⟨⟨2⟩, ⟨1⟩, 2⟩, by decide, rfl, rfl⟩⟩, trivial⟩
  · rw [hcalls, hcalls']
    decide

end Topological

end SavannahNode
