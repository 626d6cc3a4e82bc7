-- The law of the cleanup of the core: when no collection of the core has an entry for a
-- round that is garbage collected. The cleanup does not visit the aggregators of timeouts
-- and of no-vote messages, so an entry that is made there stays for ever.
import Mathlib
import Sailfish.GcBoundary
import Sailfish.NoVotes
import Sailfish.Lib.Splits

open Std Relation effects splits sailfish.crypto sailfish.config

namespace sailfish.primary.Core

/-- No collection has an entry for a round below the last garbage collected one. -/
structure Bounded (s : Core) : Prop where
  last_voted : ∀ r ∈ s.last_voted, s.gc_round ≤ r
  processing : ∀ r ∈ s.processing, s.gc_round ≤ r
  certificates_aggregators : ∀ r ∈ s.certificates_aggregators, s.gc_round ≤ r
  cancel_handlers : ∀ r ∈ s.cancel_handlers, s.gc_round ≤ r
  timeouts_aggregators : ∀ r ∈ s.timeouts_aggregators, s.gc_round ≤ r
  no_vote_aggregators : ∀ r ∈ s.no_vote_aggregators, s.gc_round ≤ r

/-! ## The cleanup -/

theorem le_of_mem_filter {α : Type} {m : ExtTreeMap ℕ α} {gc_round r : ℕ}
    (h : r ∈ m.filter fun k _ => decide (k ≥ gc_round)) : gc_round ≤ r := by
  rw [← ExtTreeMap.isSome_getElem?_iff_mem, ExtTreeMap.getElem?_filter'] at h
  rcases hm : m[r]? with _ | a
  · rw [hm] at h
    cases h
  · rw [hm] at h
    by_contra hlt
    simp [Option.filter, hlt] at h

variable {node : Node} {s s' : Core} {round : ℕ}

theorem cleanup_consensus_round : (s.cleanup node).consensus_round = s.consensus_round := by
  unfold cleanup
  dsimp only
  split <;> rfl

/-- The cleanup leaves the rounds of the timeouts and of the no-vote messages. -/
theorem bounded_cleanup_iff (h : node.gc_depth < s.consensus_round) :
    (s.cleanup node).Bounded ↔ ∀ r, r ∈ s.timeouts_aggregators ∨ r ∈ s.no_vote_aggregators →
      s.consensus_round - node.gc_depth ≤ r := by
  have hcleanup : s.cleanup node = { s with
      last_voted := s.last_voted.filter fun k _ => k ≥ s.consensus_round - node.gc_depth
      processing := s.processing.filter fun k _ => k ≥ s.consensus_round - node.gc_depth
      certificates_aggregators := s.certificates_aggregators.filter fun k _ =>
        k ≥ s.consensus_round - node.gc_depth
      cancel_handlers := s.cancel_handlers.filter fun k _ =>
        k ≥ s.consensus_round - node.gc_depth
      gc_round := s.consensus_round - node.gc_depth } := if_pos h
  rw [hcleanup]
  constructor
  · rintro hbounded r (hr | hr)
    · exact hbounded.timeouts_aggregators r hr
    · exact hbounded.no_vote_aggregators r hr
  · intro hrounds
    exact {
      last_voted := fun _ => le_of_mem_filter
      processing := fun _ => le_of_mem_filter
      certificates_aggregators := fun _ => le_of_mem_filter
      cancel_handlers := fun _ => le_of_mem_filter
      timeouts_aggregators := fun r hr => hrounds r (Or.inl hr)
      no_vote_aggregators := fun r hr => hrounds r (Or.inr hr) }

/-! ## The rounds of the aggregators -/

section

variable [Crypto] {P : Header → Prop} {T R : ℕ → Prop}

theorem Effect.timeouts_mono (h : Effect node P T R s s') (hr : round ∈ s.timeouts_aggregators) :
    round ∈ s'.timeouts_aggregators := by
  cases h with
  | timeouts => exact ExtTreeMap.mem_insert.mpr (Or.inr hr)
  | send | processing | accept | vote | store_certificate | votes | handlers | no_votes => exact hr

theorem timeouts_of_effects (h : ReflTransGen (Effect node P T R) s s')
    (hr : round ∈ s.timeouts_aggregators) : round ∈ s'.timeouts_aggregators :=
  of_steps (P := fun s => round ∈ s.timeouts_aggregators) (fun _ _ => Effect.timeouts_mono) h hr

/-- A new aggregator is for a round that meets `T`. -/
theorem Effect.timeouts_new {known : Core} (h : Effect node P T R s s')
    (hs : ∀ r ∈ s.timeouts_aggregators, r ∈ known.timeouts_aggregators ∨ T r) :
    ∀ r ∈ s'.timeouts_aggregators, r ∈ known.timeouts_aggregators ∨ T r := by
  cases h with
  | @timeouts taken aggregator hT =>
    intro r hr
    rcases ExtTreeMap.mem_insert.mp hr with heq | hr
    · rw [Std.compare_eq_iff_eq] at heq
      subst heq
      exact Or.inr hT
    · exact hs r hr
  | send | processing | accept | vote | store_certificate | votes | handlers | no_votes => exact hs

/-- A timeout leaves an aggregator of its round, whether or not it is added to it. -/
theorem timeouts_of_process_timeout {timeout : Timeout} :
    timeout.round ∈ (after (process_timeout node timeout) s).timeouts_aggregators := by
  by_cases hr : timeout.round ∈ s.timeouts_aggregators
  · have heffects : Effects node (fun _ => True) (fun _ => True) (fun _ => True)
        (process_timeout node timeout) s := process_timeout_effects trivial
    exact timeouts_of_effects heffects.steps_after hr
  · -- a new aggregator takes any timeout
    obtain ⟨cert, aggregator, happend⟩ :=
      TimeoutAggregator.append_new timeout node.committee
    have heq : process_timeout node timeout s =
        send_some (cert.map (.timeout_cert · timeout.round)) { s with
          timeouts_aggregators := s.timeouts_aggregators.insert timeout.round aggregator } := by
      change (propagate
        (TimeoutAggregator.append ((s.timeouts_aggregators[timeout.round]?).getD .new)
        timeout node.committee) >>= _) s = _
      rw [ExtTreeMap.getElem?_eq_none hr, Option.getD_none, happend]
      rfl
    have heffects : Effects node (fun _ => True) (fun _ => True) (fun _ => True)
        (send_some (cert.map (.timeout_cert · timeout.round))) { s with
          timeouts_aggregators := s.timeouts_aggregators.insert timeout.round aggregator } :=
      send_some_effects fun _ => trivial
    rw [after_of_eq heq]
    exact timeouts_of_effects heffects.steps_after ExtTreeMap.mem_insert_self

theorem timeouts_of_takes {input : Input} (h : Takes node s input round) :
    round ∈ (after (handle node input) s).timeouts_aggregators := by
  cases input with
  | timeout timeout =>
    obtain rfl : timeout.round = round := h
    exact timeouts_of_process_timeout
  | primaries message =>
    cases message with
    | timeout timeout =>
      obtain ⟨hok, rfl⟩ := h
      have heq :
          handle node (.primaries (.timeout timeout)) s = process_timeout node timeout s := by
        change (propagate (s.sanitize_timeout node timeout) >>= fun _ =>
          process_timeout node timeout)
          s = _
        rw [hok]
        rfl
      rw [after_of_eq heq]
      exact timeouts_of_process_timeout
    | header | no_vote_msg | vote | certificate | certificates_request => cases h
  | header_waiter | certificate_waiter | proposer | no_vote_msg => cases h

/-- The aggregators of timeouts after an event: those before it, and the one of a timeout that it
brings. -/
theorem timeouts_of_step {e : Event} (hstep : step node s e = some s') :
    round ∈ s'.timeouts_aggregators ↔ round ∈ s.timeouts_aggregators ∨
      ∃ input, e = .input input ∧ Takes node s input round := by
  cases e with
  | input input =>
    obtain ⟨s₁, heffects, hs'⟩ := step_effects (T := Takes node s input) (brings_any input)
      (fun _ htakes => htakes) hstep
    constructor
    · intro hr
      rw [hs', cleanup_frame.timeouts] at hr
      have hnew := of_steps (P := fun s' : Core => ∀ r ∈ s'.timeouts_aggregators,
        r ∈ s.timeouts_aggregators ∨ Takes node s input r)
        (fun _ _ => Effect.timeouts_new) heffects
      refine (hnew (fun r hr => Or.inl ?_) round hr).imp_right fun h => ⟨input, rfl, h⟩
      rwa [(start_frame input).timeouts] at hr
    · rintro (hr | ⟨input', heq, htakes⟩)
      · rw [hs', cleanup_frame.timeouts]
        apply timeouts_of_effects heffects
        rw [(start_frame input).timeouts]
        exact hr
      · cases heq
        rw [step_input_eq hstep, cleanup_frame.timeouts]
        exact timeouts_of_takes htakes
  | payload | committed =>
    have hframe : Frame s s' := (step_cases hstep).resolve_right (by simp)
    simp [hframe.timeouts]

/-- The core takes up a timeout or a no-vote message of the round. -/
def TakesUp (node : Node) (s : Core) (input : Input) (round : ℕ) : Prop :=
  Takes node s input round ∨ ∃ msg, input = .primaries (.no_vote_msg msg) ∧
    s.sanitize_no_vote_msg node msg = .ok () ∧ msg.round = round

/-- An event of the run brought a timeout or a no-vote message of the round that the core took
up. -/
def Taken (node : Node) (store : Store) (events : List Event) (round : ℕ) : Prop :=
  ∃ pre input s, pre ++ [.input input] <+: events ∧ run node store pre = some s ∧
    TakesUp node s input round

theorem taken_concat {store : Store} {events : List Event} {e : Event}
    (hrun : run node store events = some s) : Taken node store (events ++ [e]) round ↔
      Taken node store events round ∨ ∃ input, e = .input input ∧ TakesUp node s input round := by
  constructor
  · rintro ⟨pre, input, before, hprefix, hbefore, htakes⟩
    rcases List.prefix_concat_iff.mp hprefix with hlast | hprefix
    · obtain ⟨rfl, he⟩ := List.append_inj' hlast rfl
      cases he
      rw [hrun] at hbefore
      cases hbefore
      exact Or.inr ⟨input, rfl, htakes⟩
    · exact Or.inl ⟨pre, input, before, hprefix, hbefore, htakes⟩
  · rintro (⟨pre, input, before, hprefix, hbefore, htakes⟩ | ⟨input, rfl, htakes⟩)
    · exact ⟨pre, input, before, hprefix.trans (List.prefix_append _ _), hbefore, htakes⟩
    · exact ⟨events, input, s, List.prefix_refl _, hrun, htakes⟩

/-- The rounds of the aggregators after an event. -/
theorem aggregators_of_step {e : Event} (hstep : step node s e = some s') :
    round ∈ s'.timeouts_aggregators ∨ round ∈ s'.no_vote_aggregators ↔
      (round ∈ s.timeouts_aggregators ∨ round ∈ s.no_vote_aggregators) ∨
        ∃ input, e = .input input ∧ TakesUp node s input round := by
  rw [timeouts_of_step hstep, no_votes_of_step hstep]
  constructor
  · rintro ((hr | ⟨input, rfl, htakes⟩) | (hr | ⟨msg, rfl, hok, hround, -⟩))
    · exact Or.inl (Or.inl hr)
    · exact Or.inr ⟨input, rfl, Or.inl htakes⟩
    · exact Or.inl (Or.inr hr)
    · exact Or.inr ⟨_, rfl, Or.inr ⟨msg, rfl, hok, hround⟩⟩
  · rintro ((hr | hr) | ⟨input, rfl, htakes | ⟨msg, rfl, hok, hround⟩⟩)
    · exact Or.inl (Or.inl hr)
    · exact Or.inr (Or.inl hr)
    · exact Or.inl (Or.inr ⟨input, rfl, htakes⟩)
    · by_cases hr : round ∈ s.no_vote_aggregators
      · exact Or.inr (Or.inl hr)
      · exact Or.inr (Or.inr ⟨msg, rfl, hok, hround, hr⟩)

/-- The aggregators are for the rounds that were taken up. -/
theorem aggregators_of_run {store : Store} {events : List Event}
    (hrun : run node store events = some s) :
    round ∈ s.timeouts_aggregators ∨ round ∈ s.no_vote_aggregators ↔
      Taken node store events round := by
  induction events using List.reverseRecOn generalizing s with
  | nil =>
    cases hrun
    simp [spawn, Taken]
  | append_singleton events e ih =>
    obtain ⟨before, hbefore, hstep⟩ := run_concat.mp hrun
    rw [aggregators_of_step hstep, taken_concat hbefore, ih hbefore]

/-! ## The collections over a run -/

theorem Effect.consensus_round (h : Effect node P T R s s') :
    s'.consensus_round = s.consensus_round := by
  cases h <;> rfl

theorem consensus_round_of_input {input : Input} (hstep : step node s (.input input) = some s') :
    s'.consensus_round = s.consensus_round := by
  obtain ⟨s₁, heffects, rfl⟩ := step_effects (brings_any input) (fun _ _ => trivial) hstep
  have hstart : (s.start input).consensus_round = s.consensus_round := by
    cases input <;> rfl
  rw [cleanup_consensus_round]
  exact of_steps (P := fun s₁ : Core => s₁.consensus_round = s.consensus_round)
    (fun _ _ heffect heq => heffect.consensus_round.trans heq) heffects hstart

/-- One iteration that cleans up bounds all collections if what was taken up is recent enough. -/
theorem bounded_iff_of_step {store : Store} {events : List Event} {input : Input}
    (hrun : run node store events = some s) (hstep : step node s (.input input) = some s')
    (hround : node.gc_depth < s.consensus_round) : s'.Bounded ↔
      ∀ r, Taken node store (events ++ [.input input]) r →
        s.consensus_round - node.gc_depth ≤ r := by
  have hsame := consensus_round_of_input hstep
  obtain ⟨s₁, -, rfl⟩ := step_effects (brings_any input) (fun _ _ => trivial) hstep
  rw [cleanup_consensus_round] at hsame
  rw [← hsame] at hround
  rw [bounded_cleanup_iff hround, hsame]
  have hrounds : ∀ r, r ∈ s₁.timeouts_aggregators ∨ r ∈ s₁.no_vote_aggregators ↔
      Taken node store (events ++ [.input input]) r := by
    intro r
    rw [← aggregators_of_run (run_concat.mpr ⟨s, hrun, hstep⟩), cleanup_frame.timeouts,
      cleanup_frame.no_votes]
  simp only [hrounds]

/-- Every iteration that cleans up leaves all collections bounded. -/
def StaysBounded (node : Node) (store : Store) (events : List Event) : Prop :=
  Each (fun pre e => ∀ input after, e = .input input → run node store (pre ++ [e]) = some after →
    node.gc_depth < after.consensus_round → after.Bounded) events

/-- Whenever an iteration cleans up, all the timeouts and no-vote messages that were taken up until
then are of rounds that it does not collect. -/
def TakesRecent (node : Node) (store : Store) (events : List Event) : Prop :=
  Each (fun pre e => ∀ input before, e = .input input → run node store pre = some before →
    node.gc_depth < before.consensus_round → ∀ r, Taken node store (pre ++ [e]) r →
      before.consensus_round - node.gc_depth ≤ r) events

/-- For every run of the core: the collections stay bounded if and only if it takes up no timeout
and no no-vote message whose round is garbage collected by the end of an iteration, at once or
later. -/
theorem cleanup_bounds_iff (node : Node) (store : Store) (events : List Event) (s : Core)
    (hrun : run node store events = some s) :
    StaysBounded node store events ↔ TakesRecent node store events := by
  have hsteps : Each (fun pre e => ∃ before after, run node store pre = some before ∧
      step node before e = some after) events := by
    rintro pre e post rfl
    unfold run at hrun ⊢
    rw [List.foldlM_append] at hrun
    obtain ⟨before, hbefore, hrest⟩ := Option.bind_eq_some_iff.mp hrun
    rw [List.foldlM_cons] at hrest
    obtain ⟨after, hafter, -⟩ := Option.bind_eq_some_iff.mp hrest
    exact ⟨before, after, hbefore, hafter⟩
  constructor
  · rintro h pre e post heq input before rfl hbefore hround
    obtain ⟨before', after, hbefore', hstep⟩ := hsteps pre _ post heq
    rw [hbefore] at hbefore'
    cases hbefore'
    refine (bounded_iff_of_step hbefore hstep hround).mp ?_
    refine h pre _ post heq input after rfl (run_concat.mpr ⟨before, hbefore, hstep⟩) ?_
    rw [consensus_round_of_input hstep]
    exact hround
  · rintro h pre e post heq input after rfl hafter hround
    obtain ⟨before, hbefore, hstep⟩ := run_concat.mp hafter
    rw [consensus_round_of_input hstep] at hround
    exact (bounded_iff_of_step hbefore hstep hround).mpr
      (h pre _ post heq input before rfl hbefore hround)

end

section

attribute [local instance] crypto.sample

/-- Authority 2 sends a timeout of round 1, and then the consensus reaches round 3, with a depth of
1. -/
def forgotten : List Event :=
  [.input (.primaries (.timeout (.new 1 2))), .committed 3,
    .input (.primaries (.timeout (.new 3 2)))]

def forgotten_core : Core := (run voter .empty forgotten).get (by decide +kernel)

theorem forgotten_run : run voter .empty forgotten = some forgotten_core := (Option.some_get _).symm

theorem forgotten_not_bounded : ¬ forgotten_core.Bounded := fun h =>
  absurd (h.timeouts_aggregators 1 (by decide +kernel)) (by decide +kernel)

theorem forgotten_not_stays_bounded : ¬ StaysBounded voter .empty forgotten := fun h =>
  forgotten_not_bounded
    (h (forgotten.take 2) _ [] rfl _ forgotten_core rfl forgotten_run (by decide +kernel))

theorem cleanup_bounds_iff_forgotten : ¬ TakesRecent voter .empty forgotten := fun h =>
  forgotten_not_stays_bounded
    ((cleanup_bounds_iff voter .empty forgotten forgotten_core forgotten_run).mpr h)

/-- The timeout of round 1 passes its check, and its aggregator stays when round 1 is garbage
collected. -/
theorem timeouts_are_not_cleaned_up :
    run voter .empty forgotten = some forgotten_core ∧
      voter.gc_depth < forgotten_core.consensus_round ∧ ¬ forgotten_core.Bounded ∧
      ¬ StaysBounded voter .empty forgotten :=
  ⟨forgotten_run, by decide +kernel, forgotten_not_bounded, forgotten_not_stays_bounded⟩

end

end sailfish.primary.Core
