-- The law of no-votes: whether a primary that signs a no-vote message for a round makes a
-- header that lists the leader of the round. Two tasks sign, the proposer that gives up on
-- the leader and the core that gets the first message of another primary.
import Mathlib
import Sailfish.Primary
import Sailfish.Lib.Splits

open Std Relation effects splits sailfish.crypto sailfish.config

namespace sailfish.primary

namespace Core

section

variable [Crypto] {node : Node} {P : Header → Prop} {T R : ℕ → Prop} {s s' : Core} {round : ℕ}

/-! ## The no-vote messages of the core -/

/-- The event brings the first no-vote message for the round, and it passes its check. The core
opens an aggregator for the round then, with a message of its own. -/
def Opens (node : Node) (s : Core) (e : Event) (round : ℕ) : Prop :=
  ∃ msg, e = .input (.primaries (.no_vote_msg msg)) ∧
    s.sanitize_no_vote_msg node msg = .ok () ∧ msg.round = round ∧ round ∉ s.no_vote_aggregators

theorem not_opens_of_channel {input : Input} {channel : Channel} (h : input.channel = some channel) :
    ¬ Opens node s (.input input) round := by
  rintro ⟨msg, heq, -⟩
  cases heq
  cases h

theorem Effect.no_votes_mono (h : Effect node P T R s s') (hr : round ∈ s.no_vote_aggregators) :
    round ∈ s'.no_vote_aggregators := by
  cases h with
  | no_votes => exact ExtTreeMap.mem_insert.mpr (Or.inr hr)
  | send | processing | accept | vote | store_certificate | votes | handlers | timeouts => exact hr

theorem no_votes_of_effects (h : ReflTransGen (Effect node P T R) s s')
    (hr : round ∈ s.no_vote_aggregators) : round ∈ s'.no_vote_aggregators :=
  of_steps (P := fun s => round ∈ s.no_vote_aggregators) (fun _ _ => Effect.no_votes_mono) h hr

/-- A new aggregator is for a round that meets `R`. -/
theorem Effect.no_votes_new {known : Core} (h : Effect node P T R s s')
    (hs : ∀ r ∈ s.no_vote_aggregators, r ∈ known.no_vote_aggregators ∨ R r) :
    ∀ r ∈ s'.no_vote_aggregators, r ∈ known.no_vote_aggregators ∨ R r := by
  cases h with
  | @no_votes opened aggregator hR =>
    intro r hr
    rcases ExtTreeMap.mem_insert.mp hr with heq | hr
    · rw [Std.compare_eq_iff_eq] at heq
      subst heq
      exact hR.elim (hs _) Or.inr
    · exact hs r hr
  | send | processing | accept | vote | store_certificate | votes | handlers | timeouts => exact hs

/-- The first message for a round is processed as one with the aggregator there. -/
theorem process_no_vote_msg_new {msg : NoVoteMsg} (h : msg.round ∉ s.no_vote_aggregators) :
    ∃ aggregator, process_no_vote_msg node msg s = process_no_vote_msg node msg
      { s with no_vote_aggregators := s.no_vote_aggregators.insert msg.round aggregator } := by
  obtain ⟨cert, aggregator, happend⟩ :=
    NoVoteAggregator.append_new (.new msg.round node.name) node.committee
  have hnone : s.no_vote_aggregators[msg.round]? = none := ExtTreeMap.getElem?_eq_none h
  refine ⟨aggregator, ?_⟩
  have hnew : no_vote_aggregator node msg.round s = .ok aggregator
      { s with no_vote_aggregators := s.no_vote_aggregators.insert msg.round aggregator } := by
    refine bind_eq_ok.mpr ⟨s, s, rfl, ?_⟩
    rw [hnone]
    dsimp only
    rw [happend]
    rfl
  have hthere : no_vote_aggregator node msg.round
        { s with no_vote_aggregators := s.no_vote_aggregators.insert msg.round aggregator } =
      .ok aggregator
        { s with no_vote_aggregators := s.no_vote_aggregators.insert msg.round aggregator } := by
    refine bind_eq_ok.mpr ⟨_, _, rfl, ?_⟩
    dsimp only
    rw [ExtTreeMap.getElem?_insert_self]
    rfl
  exact bind_congr_left (hnew.trans hthere.symm)

theorem no_votes_mono_of_step {e : Event} (hstep : step node s e = some s')
    (hr : round ∈ s.no_vote_aggregators) : round ∈ s'.no_vote_aggregators := by
  rcases step_cases hstep with h | ⟨input, -, h⟩
  · rw [h.no_votes]
    exact hr
  · obtain ⟨s₁, heffects, rfl⟩ := h _ _ (brings_any input)
    rw [cleanup_frame.no_votes]
    apply no_votes_of_effects heffects
    rw [(start_frame input).no_votes]
    exact hr

theorem no_votes_of_opens {e : Event} (h : Opens node s e round)
    (hstep : step node s e = some s') : round ∈ s'.no_vote_aggregators := by
  obtain ⟨msg, rfl, hok, rfl, hnew⟩ := h
  obtain ⟨aggregator, heq⟩ := process_no_vote_msg_new hnew
  have hhandle : handle node (.primaries (.no_vote_msg msg)) s = process_no_vote_msg node msg
      { s with no_vote_aggregators := s.no_vote_aggregators.insert msg.round aggregator } := by
    rw [← heq]
    change (propagate (s.sanitize_no_vote_msg node msg) >>= fun _ => process_no_vote_msg node msg) s =
      _
    rw [hok]
    rfl
  have heffects : Effects node (fun _ => True) (fun _ => True) (fun _ => True)
      (process_no_vote_msg node msg)
      { s with no_vote_aggregators := s.no_vote_aggregators.insert msg.round aggregator } :=
    process_no_vote_msg_effects fun _ => trivial
  obtain ⟨s₁, hsteps, rfl⟩ := step_of_effects hhandle heffects hstep
  rw [cleanup_frame.no_votes]
  exact no_votes_of_effects hsteps ExtTreeMap.mem_insert_self

/-- The aggregators of no-vote messages after an event: those before it, and the one that it
opens. -/
theorem no_votes_of_step {e : Event} (hstep : step node s e = some s') :
    round ∈ s'.no_vote_aggregators ↔ round ∈ s.no_vote_aggregators ∨ Opens node s e round := by
  constructor
  · intro hr
    rcases step_cases hstep with h | ⟨input, rfl, h⟩
    · rw [h.no_votes] at hr
      exact Or.inl hr
    · obtain ⟨s₁, heffects, rfl⟩ := h (fun _ => True) (Opens node s (.input input))
        (brings_of_no_votes fun msg heq hok hnew => ⟨msg, by rw [heq], hok, rfl, hnew⟩)
      rw [cleanup_frame.no_votes] at hr
      have hnew := of_steps (P := fun s' : Core => ∀ r ∈ s'.no_vote_aggregators,
        r ∈ s.no_vote_aggregators ∨ Opens node s (.input input) r)
        (fun _ _ => Effect.no_votes_new) heffects
      refine hnew (fun r hr => Or.inl ?_) round hr
      rwa [(start_frame input).no_votes] at hr
  · rintro (hr | hopens)
    · exact no_votes_mono_of_step hstep hr
    · exact no_votes_of_opens hopens hstep

end

end Core

namespace Primary

section

variable [Crypto] {node : Node} {header_size : ℕ} {s s' : Primary} {e : Event} {round : ℕ}

/-! ## What a primary has signed and listed -/

/-- The primary has signed a no-vote message for the round: its proposer made one, or its core
opened an aggregator with one. -/
def SignedNoVote (s : Primary) (round : ℕ) : Prop :=
  (∃ msg ∈ Proposer.no_vote_msgs s.proposer.sent, msg.round = round) ∨
    round ∈ s.core.no_vote_aggregators

/-- A header of the next round that the primary made lists the certificate of the leader of the
round among its parents. -/
def ListedLeader (committee : Committee) (s : Primary) (round : ℕ) : Prop :=
  ∃ m ∈ s.proposer.made, m.header.round = round + 1 ∧
    ∃ c ∈ m.parents, c.round = round ∧ c.origin = committee.leader round

/-- The certificate of the leader of the round is among the parents at hand. -/
def HasLeader (committee : Committee) (s : Proposer) : Prop :=
  ∃ c ∈ s.last_parents, c.round = s.round ∧ c.origin = committee.leader s.round

/-- The event makes the primary sign a no-vote message for the round. -/
def Signs (node : Node) (header_size : ℕ) (s : Primary) : Event → ℕ → Prop
  | .core e, round => Core.Opens node s.core e round
  | .propose, round => s.proposer.round = round ∧
    s.proposer.ready node.name node.committee header_size = true ∧
    s.proposer.gives_up node.name node.committee = true
  | _, _ => False

/-- The event makes a header with the leader of the round. -/
def Lists (node : Node) (header_size : ℕ) (s : Primary) : Event → ℕ → Prop
  | .propose, round => s.proposer.round = round ∧
    s.proposer.ready node.name node.committee header_size = true ∧
    HasLeader node.committee s.proposer
  | _, _ => False

theorem not_signs_of_other (hpropose : e ≠ .propose) (hcore : ∀ e', e ≠ .core e') :
    ¬ Signs node header_size s e round ∧ ¬ Lists node header_size s e round := by
  cases e with
  | core e => exact absurd rfl (hcore e)
  | propose => exact absurd rfl hpropose
  | core_receives | elapse | worker | timer | proposer_receives => exact ⟨id, id⟩

theorem signedNoVote_of_change (h : Change node header_size s e s') :
    s'.SignedNoVote round ↔ s.SignedNoVote round ∨ Signs node header_size s e round := by
  unfold SignedNoVote
  cases h with
  | core hcore hproposer =>
    rw [hproposer, Core.no_votes_of_step hcore, or_assoc]
    rfl
  | core_receives hchannel hcore hproposer =>
    rw [hproposer, Core.no_votes_of_step hcore,
      or_iff_left (Core.not_opens_of_channel hchannel)]
    exact (or_iff_left id).symm
  | elapse hcore hproposer =>
    rw [hcore, hproposer]
    exact (or_iff_left id).symm
  | propose hcore hproposer =>
    rw [hcore, hproposer, Proposer.no_vote_msgs_propose]
    simp only [List.mem_append, or_and_right, exists_or, or_right_comm]
    apply or_congr_right
    unfold Signs
    dsimp only
    rw [← Bool.and_eq_true_iff]
    split
    · rename_i hwhen
      simp [hwhen, NoVoteMsg.new]
    · rename_i hnot
      simp [hnot]
  | receive message hpropose hother hcore hproposer =>
    obtain ⟨hsent, -⟩ := Proposer.receive_eq node.committee s.proposer message
    rw [hcore, hproposer, hsent]
    exact (or_iff_left (not_signs_of_other hpropose hother).1).symm

theorem listedLeader_of_change (hfit : s.proposer.round + 1 < 2 ^ 64)
    (h : Change node header_size s e s') :
    s'.ListedLeader node.committee round ↔
      s.ListedLeader node.committee round ∨ Lists node header_size s e round := by
  unfold ListedLeader
  cases h with
  | core _ hproposer | core_receives _ _ hproposer | elapse _ hproposer =>
    rw [hproposer]
    exact (or_iff_left id).symm
  | propose hcore hproposer =>
    rw [hproposer, Proposer.made_propose, wrapping_succ_of_lt hfit]
    simp only [List.mem_append, or_and_right, exists_or]
    apply or_congr_right
    unfold Lists HasLeader
    dsimp only
    split
    · rename_i hready
      simp only [hready, true_and, List.mem_singleton, exists_eq_left]
      constructor
      · rintro ⟨hround, hleader⟩
        obtain rfl := Nat.succ_injective hround
        exact ⟨rfl, hleader⟩
      · rintro ⟨rfl, hleader⟩
        exact ⟨rfl, hleader⟩
    · rename_i hnot
      simp [hnot]
  | receive message hpropose hother hcore hproposer =>
    obtain ⟨-, hmade, -⟩ := Proposer.receive_eq node.committee s.proposer message
    rw [hproposer, hmade]
    exact (or_iff_left (not_signs_of_other hpropose hother).2).symm

/-! ## The exclusion -/

/-- The primary lists no leader of a round that it signed a no-vote message for. -/
def Excludes (committee : Committee) (s : Primary) : Prop :=
  ∀ round, s.SignedNoVote round → ¬ s.ListedLeader committee round

/-- Before the event, the two tasks agree on the leader. The core opens an aggregator only when no
header lists the leader of its round. The proposer makes a header with the leader of its round only
when the core has no aggregator for the round, and in round 0 when it does not give up. -/
def Agrees (node : Node) (header_size : ℕ) (s : Primary) : Event → Prop
  | .core e => ∀ round, Core.Opens node s.core e round → ¬ s.ListedLeader node.committee round
  | .propose => s.proposer.ready node.name node.committee header_size = true →
    HasLeader node.committee s.proposer → s.proposer.round ∉ s.core.no_vote_aggregators ∧
      (s.proposer.round = 0 → s.proposer.gives_up node.name node.committee = false)
  | _ => True

theorem Excludes.of_change (hs' : Excludes node.committee s')
    (hfit : s.proposer.round + 1 < 2 ^ 64) (h : Change node header_size s e s') :
    Excludes node.committee s := fun round hsigned hlisted =>
  hs' round ((signedNoVote_of_change h).mpr (Or.inl hsigned))
    ((listedLeader_of_change hfit h).mpr (Or.inl hlisted))

theorem Excludes.agrees (hs' : Excludes node.committee s')
    (hfit : s.proposer.round + 1 < 2 ^ 64) (h : Change node header_size s e s') :
    Agrees node header_size s e := by
  cases e with
  | core e =>
    intro round hopens hlisted
    exact hs' round ((signedNoVote_of_change h).mpr (Or.inr hopens))
      ((listedLeader_of_change hfit h).mpr (Or.inl hlisted))
  | propose =>
    intro hready hleader
    have hlisted : s'.ListedLeader node.committee s.proposer.round :=
      (listedLeader_of_change hfit h).mpr (Or.inr ⟨rfl, hready, hleader⟩)
    refine ⟨fun hopen => ?_, fun _ => Bool.eq_false_iff.mpr fun hgives => ?_⟩
    · exact hs' _ ((signedNoVote_of_change h).mpr (Or.inl (Or.inr hopen))) hlisted
    · exact hs' _ ((signedNoVote_of_change h).mpr (Or.inr ⟨rfl, hready, hgives⟩)) hlisted
  | core_receives | elapse | worker | timer | proposer_receives => trivial

/-- A proposer past round 0 that gives up on the leader does not have it. -/
theorem not_hasLeader_of_gives_up {s : Proposer} (h : Proposer.Orderly node.name node.committee s)
    (hround : 0 < s.round) (hgives : s.gives_up node.name node.committee = true) :
    ¬ HasLeader node.committee s := by
  rintro ⟨c, hc, -, horigin⟩
  have hnone : s.last_leader.isNone = true := by
    unfold Proposer.gives_up at hgives
    simp only [Bool.and_eq_true] at hgives
    exact hgives.1.2
  rw [h.leader hround (List.ne_nil_of_mem hc), Option.isNone_iff_eq_none, List.find?_eq_none] at hnone
  exact hnone c hc (beq_iff_eq.mpr horigin)

theorem Excludes.step (hs : Excludes node.committee s)
    (horderly : Proposer.Orderly node.name node.committee s.proposer)
    (hgrowing : s.proposer.Growing) (hfit : s.proposer.round + 1 < 2 ^ 64)
    (h : Change node header_size s e s') (hagrees : Agrees node header_size s e) :
    Excludes node.committee s' := by
  intro round hsigned hlisted
  rcases (signedNoVote_of_change h).mp hsigned with hsigned | hsigns <;>
    rcases (listedLeader_of_change hfit h).mp hlisted with hlisted | hlists
  · exact hs round hsigned hlisted
  · -- a header with the leader of a round that has a no-vote message
    cases e with
    | propose =>
      obtain ⟨rfl, hready, hleader⟩ := hlists
      rcases hsigned with ⟨msg, hmsg, hround⟩ | hopen
      · exact absurd hround (Nat.ne_of_lt (hgrowing.no_votes msg hmsg))
      · exact (hagrees hready hleader).1 hopen
    | core | core_receives | elapse | worker | timer | proposer_receives => exact hlists
  · -- a no-vote message for a round whose leader is in a header
    cases e with
    | core e => exact hagrees round hsigns hlisted
    | propose =>
      obtain ⟨rfl, -, -⟩ := hsigns
      obtain ⟨m, hm, hround, -⟩ := hlisted
      have hle := hgrowing.made m hm
      omega
    | core_receives | elapse | worker | timer | proposer_receives => exact hsigns
  · -- both at once
    cases e with
    | propose =>
      obtain ⟨rfl, hready, hgives⟩ := hsigns
      obtain ⟨-, -, hleader⟩ := hlists
      rcases Nat.eq_zero_or_pos s.proposer.round with hzero | hpos
      · exact Bool.eq_false_iff.mp ((hagrees hready hleader).2 hzero) hgives
      · exact not_hasLeader_of_gives_up horderly hpos hgives hleader
    | core | core_receives | elapse | worker | timer | proposer_receives => exact hlists

/-- For every run of a primary whose round does not wrap: it lists no leader of a round that it
signed a no-vote message for exactly when its two tasks agree before every event. -/
theorem no_vote_excludes_the_leader_iff (node : Node) (header_size : ℕ) (store : Store)
    (events : List Event) (s : Primary) (hrun : run node header_size store events = some s)
    (hfit : NeverWraps node header_size store events) :
    (∀ round, s.SignedNoVote round → ¬ s.ListedLeader node.committee round) ↔
      Each (fun pre e => ∀ before, run node header_size store pre = some before →
        Agrees node header_size before e) events := by
  change Excludes node.committee s ↔ _
  induction events using List.reverseRecOn generalizing s with
  | nil =>
    cases hrun
    refine ⟨fun _ => each_nil, fun _ round _ hlisted => ?_⟩
    obtain ⟨m, hm, -⟩ := hlisted
    exact absurd hm List.not_mem_nil
  | append_singleton events e ih =>
    obtain ⟨before, hbefore, hstep⟩ := run_concat.mp hrun
    have hchange := change_of_step hstep
    have hround := hfit.last before hbefore
    have hold := ih before hbefore hfit.of_append
    constructor
    · intro hs
      refine (hold.mp (hs.of_change hround hchange)).concat fun before' hbefore' => ?_
      rw [hbefore] at hbefore'
      cases hbefore'
      exact hs.agrees hround hchange
    · intro hall
      exact (hold.mpr hall.of_append).step (orderly_of_run hbefore)
        (growing_of_run hfit.of_append hbefore) hround hchange (hall.last before hbefore)

end

instance {s : Primary} {round : ℕ} : Decidable (s.SignedNoVote round) :=
  inferInstanceAs (Decidable (_ ∨ _))

instance {committee : Committee} {s : Primary} {round : ℕ} :
    Decidable (s.ListedLeader committee round) :=
  inferInstanceAs (Decidable (∃ m ∈ s.proposer.made, _ ∧ _))

section

attribute [local instance] crypto.sample

/-- A node of the committee of four, whose leader of round 0 is authority 1. -/
def node_of (name : PublicKey) : Node := { name, committee := .four, gc_depth := 50 }

/-- A header of round 1 is made, and then a no-vote message for round 1 comes. -/
def votes_then_refuses : List Event :=
  [.propose, .worker 7 0, .propose, .core (.input (.primaries (.no_vote_msg (.new 1 4))))]

def ready_to_vote : Primary :=
  (run (node_of 3) 32 .empty [.propose, .worker 7 0]).get (by decide +kernel)

def voted : Primary :=
  (run (node_of 3) 32 .empty [.propose, .worker 7 0, .propose]).get (by decide +kernel)

theorem no_vote_excludes_the_leader_iff_refused :
    ∃ s, run (node_of 3) 32 .empty votes_then_refuses = some s ∧ s.SignedNoVote 1 ∧
      s.ListedLeader .four 0 ∧ ∀ round, s.SignedNoVote round → ¬ s.ListedLeader .four round := by
  refine ⟨(run (node_of 3) 32 .empty votes_then_refuses).get (by decide +kernel), by simp,
    by decide +kernel, by decide +kernel,
    (no_vote_excludes_the_leader_iff (node_of 3) 32 .empty votes_then_refuses _ (by simp)
      (by decide +kernel)).mpr ?_⟩
  refine Each.concat (Each.concat (Each.concat (Each.concat (l := []) each_nil ?_) ?_) ?_) ?_
  · rintro _ ⟨⟩ hready
    exact absurd hready (by decide +kernel)
  · exact fun _ _ => trivial
  · intro before hbefore
    obtain rfl : ready_to_vote = before := by simp_all [ready_to_vote]
    exact fun _ _ => ⟨by decide +kernel, fun _ => by decide +kernel⟩
  · intro before hbefore
    obtain rfl : voted = before := by simp_all [voted]
    rintro round ⟨msg, heq, -, rfl, -⟩
    cases heq
    decide +kernel

/-- The timer expires before the proposer hears of the core. -/
def expires_at_once : List Event := [.elapse, .propose]

/-- A no-vote message for round 0 comes, once the header of round 1 is made. -/
def votes_then_signs : List Event :=
  [.propose, .worker 7 0, .propose, .core (.input (.primaries (.no_vote_msg (.new 0 4))))]

/-- Each of the two tasks may sign a no-vote message for round 0 although the header of round 1
lists the leader of round 0. -/
theorem no_vote_comes_with_the_leader :
    (∃ s, run (node_of 4) 32 .empty expires_at_once = some s ∧ s.SignedNoVote 0 ∧
      s.ListedLeader .four 0) ∧
    ∃ s, run (node_of 2) 32 .empty votes_then_signs = some s ∧ s.SignedNoVote 0 ∧
      s.ListedLeader .four 0 :=
  ⟨⟨(run (node_of 4) 32 .empty expires_at_once).get (by decide +kernel), by simp,
    by decide +kernel, by decide +kernel⟩,
    (run (node_of 2) 32 .empty votes_then_signs).get (by decide +kernel), by simp,
    by decide +kernel, by decide +kernel⟩

end

end Primary

end sailfish.primary
