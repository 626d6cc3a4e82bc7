-- The law of forwarded rounds: when every header and every certificate that the core
-- sends to the consensus is of a round from 1 on, so that no `round - 1` underflows.
import Mathlib
import Sailfish.HeaderForwarding
import Sailfish.OwnVote

open Std Relation effects splits sailfish.crypto sailfish.config sailfish.primary

namespace sailfish.consensus

def Event.round : Event → ℕ
  | .header h => h.round
  | .certificate c => c.round

section

variable [Crypto] {committee : Committee} {gc_depth : ℕ}

/-- The step from `c` subtracts 1 from the round. -/
inductive Subtracts (committee : Committee) (gc_depth : ℕ) (c : Consensus) (e : Event) : ℕ → Prop
  /-- `header.round - 1` and `round - 1` in `run`. -/
  | run : Subtracts committee gc_depth c e e.round
  /-- `leader.round() - 1` in `order_leaders`. -/
  | order_leaders {d : Digest} {x : Certificate} :
      c.state.last_committed_round < wrapping_pred e.round →
      leader committee (wrapping_pred e.round) (c.state.receive e).dag = some (d, x) →
      Subtracts committee gc_depth c e x.round
  /-- `x.round() - 1` in `order_dag`, for each parent of `x`. -/
  | order_dag {c' : Consensus} {k : Commit} {x : Digest × Certificate} :
      Consensus.step committee gc_depth c e = some c' → k ∈ c'.commits →
      x ∈ k.before.popped k.leader → x.2.header.parents ≠ ∅ →
      Subtracts committee gc_depth c e x.2.round

variable {delivered : List Certificate} {s : State} {c : Consensus} {events : List Event}

theorem Filed.dag (h : Filed committee delivered s) : s.dag.Filed := fun r n d x hx =>
  ⟨(h.entry r n d x hx).1, (h.entry r n d x hx).2.1, (h.entry r n d x hx).2.2.1⟩

theorem Filed.receive {e : Event} (h : Filed committee (certificates events) s) :
    Filed committee (certificates (events ++ [e])) (s.receive e) := by
  rw [certificates_append]
  cases e with
  | header header => simpa [certificates, State.receive] using h
  | certificate x => exact h.insert x

omit [Crypto] in
/-- The leaders that are pushed are those of the rounds of the loop. -/
theorem mem_order_leaders_loop {dag : Dag} {last x : Certificate} {rounds : List ℕ}
    {leaders : List Certificate} (h : order_leaders_loop committee dag last rounds = some leaders)
    (hx : x ∈ leaders) : ∃ r ∈ rounds, ∃ d, leader committee r dag = some (d, x) := by
  induction rounds generalizing last leaders with
  | nil =>
    cases h
    cases hx
  | cons r rounds ih =>
    unfold order_leaders_loop at h
    rcases hp : leader committee r dag with _ | ⟨d, prev_leader⟩
    · simp only [hp] at h
      obtain ⟨r', hr', hlead⟩ := ih h hx
      exact ⟨r', List.mem_cons_of_mem _ hr', hlead⟩
    · simp only [hp, Option.pure_def, Option.bind_eq_bind, Option.bind_eq_some_iff] at h
      obtain ⟨is_linked, -, h⟩ := h
      cases is_linked with
      | true =>
        simp only [if_true, Option.bind_eq_some_iff, Option.some.injEq] at h
        obtain ⟨rest, hrest, rfl⟩ := h
        rcases List.mem_cons.mp hx with rfl | hx
        · exact ⟨r, List.mem_cons_self, d, hp⟩
        · obtain ⟨r', hr', hlead⟩ := ih hrest hx
          exact ⟨r', List.mem_cons_of_mem _ hr', hlead⟩
      | false =>
        simp only [Bool.false_eq_true, if_false] at h
        obtain ⟨r', hr', hlead⟩ := ih h hx
        exact ⟨r', List.mem_cons_of_mem _ hr', hlead⟩

/-- The leaders of a commit are of rounds from 1 on, when the one that has the support is. -/
theorem Filed.one_le_of_order_leaders (h : Filed committee delivered s) {last : Certificate}
    {leaders : List Certificate} (hlast : 1 ≤ last.round)
    (hl : order_leaders committee last s = some leaders) : ∀ x ∈ leaders, 1 ≤ x.round := by
  unfold order_leaders at hl
  simp only [Option.pure_def, Option.bind_eq_bind, Option.bind_eq_some_iff, Option.some.injEq] at hl
  obtain ⟨older, hloop, rfl⟩ := hl
  intro x hx
  rcases List.mem_cons.mp hx with rfl | hx
  · exact hlast
  · obtain ⟨r, hr, d, hlead⟩ := mem_order_leaders_loop hloop hx
    obtain ⟨-, hround, -⟩ := h.entry _ _ _ _ hlead
    rw [List.mem_reverse, List.mem_range'_1] at hr
    omega

/-! ## The commits of a run -/

/-- The leader of the commit is of a round from 1 on, and the dag holds deliveries and the genesis
just before it. -/
structure Commit.Sourced (committee : Committee) (delivered : List Certificate) (k : Commit) :
    Prop where
  leader : 1 ≤ k.leader.round
  before : Filed committee delivered k.before

theorem Filed.sourced_of_sequence (h : Filed committee delivered s) {leaders : List Certificate}
    (hl : ∀ x ∈ leaders, 1 ≤ x.round) :
    ∀ k ∈ (consensus.sequence gc_depth leaders s).2, k.Sourced committee delivered := by
  induction leaders generalizing s with
  | nil => exact fun _ hk => absurd hk List.not_mem_nil
  | cons leader leaders ih =>
    obtain ⟨hleader, hl⟩ := List.forall_mem_cons.mp hl
    rw [sequence_cons]
    refine List.forall_mem_cons.mpr ⟨⟨hleader, h⟩, ih ?_ hl⟩
    exact h.sequence [leader]

theorem Commit.Sourced.append {k : Commit} (h : k.Sourced committee delivered)
    (later : List Certificate) : k.Sourced committee (delivered ++ later) where
  leader := h.leader
  before := ⟨h.before.latest, fun r n d x hx => by
    obtain ⟨hd, hr, hn, hm⟩ := h.before.entry r n d x hx
    exact ⟨hd, hr, hn, hm.imp_left (List.mem_append_left _)⟩⟩

theorem sourced_of_run (h : Consensus.run committee gc_depth events = some c) :
    ∀ k ∈ c.commits, k.Sourced committee (certificates events) := by
  induction events using List.reverseRecOn generalizing c with
  | nil =>
    cases h
    exact fun _ hk => absurd hk List.not_mem_nil
  | append_singleton events e ih =>
    obtain ⟨before, hbefore, hstep⟩ := Consensus.run_concat.mp h
    obtain ⟨mid, hstate, hcommits, hcases⟩ := Consensus.step_cases hstep
    have hmid : Filed committee (certificates (events ++ [e])) mid.state := by
      rw [hstate]
      exact (filed_of_run hbefore).receive
    have hold : ∀ k ∈ mid.commits, k.Sourced committee (certificates (events ++ [e])) := by
      rw [hcommits, certificates_append]
      exact fun k hk => (ih hbefore k hk).append _
    rcases hcases with rfl | ⟨r, d, leader, hleader, hlt, -, hcommit⟩
    · exact hold
    · obtain ⟨new, hnew, hcommits'⟩ := Consensus.commit_leader_eq_some hcommit
      unfold consensus.commit at hnew
      simp only [Option.pure_def, Option.bind_eq_bind, Option.bind_eq_some_iff,
        Option.some.injEq] at hnew
      obtain ⟨leaders, hleaders, hseq⟩ := hnew
      have hround : leader.round = r := (hmid.entry _ _ _ _ hleader).2.1
      have hpos := hmid.one_le_of_order_leaders (by omega) hleaders
      have hsourced : ∀ k ∈ (consensus.sequence gc_depth leaders.reverse mid.state).2,
          k.Sourced committee (certificates (events ++ [e])) :=
        hmid.sourced_of_sequence fun x hx => hpos x (List.mem_reverse.mp hx)
      rw [hseq] at hsourced
      rw [hcommits']
      intro k hk
      exact (List.mem_append.mp hk).elim (hold k) (hsourced k)

/-- What `order_dag` pops has no parents, or is of a round from 1 on. -/
theorem Commit.Sourced.one_le_of_popped {k : Commit} (h : k.Sourced committee delivered)
    (hpos : ∀ x ∈ delivered, 1 ≤ x.round) {x : Digest × Certificate}
    (hx : x ∈ k.before.popped k.leader) (hparents : x.2.header.parents ≠ ∅) : 1 ≤ x.2.round := by
  have hnext : ∀ y, ∀ z ∈ k.before.next y, z.2.header.parents ≠ ∅ → 1 ≤ z.2.round := by
    intro y z hz hne
    obtain ⟨parent, -, hlookup⟩ := List.mem_filterMap.mp hz
    obtain ⟨-, -, -, hentry, -⟩ := h.before.dag.of_lookup hlookup
    obtain ⟨-, -, -, hm | hm⟩ := h.before.entry _ _ _ _ hentry
    · exact hpos z.2 hm
    · obtain ⟨name, -, heq⟩ := Certificate.mem_genesis.mp hm
      rw [heq] at hne
      exact absurd rfl hne
  refine (k.before.walk_popped k.leader).subset (R := {y | y.2.header.parents ≠ ∅ → 1 ≤ y.2.round})
    (fun y _ => hnext y) ?_ x hx hparents
  intro y hy _
  rw [List.mem_singleton.mp hy]
  exact h.leader

/-- The consensus subtracts only from rounds from 1 on, when it gets only such rounds. -/
theorem one_le_of_subtracts {e : Event} {round : ℕ}
    (h : Consensus.run committee gc_depth events = some c)
    (hpos : ∀ e' ∈ events ++ [e], 1 ≤ e'.round) (hsub : Subtracts committee gc_depth c e round) :
    1 ≤ round := by
  cases hsub with
  | run => exact hpos e (List.mem_append_right _ List.mem_cons_self)
  | order_leaders hlt hlead =>
    obtain ⟨-, hround, -⟩ := (filed_of_run h).receive.entry _ _ _ _ hlead
    omega
  | order_dag hstep hk hx hne =>
    have hrun := Consensus.run_concat.mpr ⟨c, h, hstep⟩
    refine (sourced_of_run hrun _ hk).one_le_of_popped ?_ hx hne
    intro x hx
    obtain ⟨e', he', heq⟩ := List.mem_filterMap.mp hx
    cases e' with
    | header => cases heq
    | certificate y =>
      cases heq
      exact hpos _ he'

end

end sailfish.consensus

namespace sailfish.primary

namespace Core

/-! ## The inputs that bring round 0 -/

section

variable [Crypto] (node : Node)

/-- The vote makes a certificate for the current header. -/
def completes (s : Core) (vote : Vote) : Bool :=
  match s.votes_aggregator.append vote node.committee s.current_header with
  | .ok (some _, _) => true
  | _ => false

/-- The header is our own and gets a vote of ours, which makes a certificate for the current
header. -/
def certifies (s : Core) (header : Header) : Bool :=
  header.author == node.name && completes node s (.new header node.name) &&
    match verdict node s header with
    | .refused _ | .set_aside => false
    | .voted _ => true

/-- The header is of round 0, or leads to a certificate for a current header of round 0. -/
def zero_header (s : Core) (header : Header) : Bool :=
  header.round == 0 || s.current_header.round == 0 && certifies node s header

def zero_certificate (s : Core) (certificate : Certificate) : Bool :=
  certificate.round == 0 || s.current_header.round == 0 &&
    certificate.header.id ∉ at_round s.processing certificate.header.round &&
      certifies node s certificate.header

/-- An input that passes its check and brings a header or a certificate of round 0 to the core. -/
def brings_zero (s : Core) : Input → Bool
  | .primaries (.header header) =>
    (s.sanitize_header node header).toBool && zero_header node s header
  | .primaries (.vote vote) => (s.sanitize_vote node vote).toBool &&
    s.current_header.round == 0 && completes node s vote
  | .primaries (.certificate certificate) =>
    (s.sanitize_certificate node certificate).toBool && zero_certificate node s certificate
  | .header_waiter header => zero_header node s header
  | .certificate_waiter certificate => zero_certificate node s certificate
  -- after the last round the proposer goes on with round 0
  | .proposer header => header.round == 0
  | .primaries _ | .timeout _ | .no_vote_msg _ => false

end

section

variable [Crypto] {node : Node} {P : Header → Prop} {T R : ℕ → Prop} {s s' : Core}

omit [Crypto] in
theorem completes_iff {vote : Vote} : completes node s vote = true ↔ Completes node s vote := by
  unfold completes Completes
  rcases s.votes_aggregator.append vote node.committee s.current_header with
    e | ⟨_ | certificate, aggregator⟩ <;> simp

/-- An accepted header whose author has no vote for the round gets a vote. -/
theorem verdict_of_accepted {header : Header} {parents : List Certificate}
    (h : Accepted node (s.looking header) header parents)
    (hnew : header.author ∉ at_round s.last_voted header.round) :
    verdict node s header = .voted parents := by
  have hfound : find_parents (genesis_digests node.committee) s.store header.parents.toList =
    .ok ([], parents) := h.found
  have hpayload : missing_batches node.name s.store header = [] := h.payload
  have hne : parents ≠ [] := by
    rintro rfl
    have hquorum := (check_parents_ok h.checked).2.1
    exact absurd hquorum (Nat.not_le_of_lt Committee.quorum_threshold_pos)
  unfold verdict
  rw [hfound]
  simp [hne, h.checked, hpayload, hnew]

/-! ## What the other inputs lead to -/

/-- Only a header that gets a vote of ours needs that the current header meets `P`. -/
theorem process_header_effects_of_voted {header : Header} (hP : P header)
    (h : certifies node s header = true → P s.current_header) :
    Effects node P T R (process_header node header) s := by
  refine Runs.steps (process_header_with_eq header) (looking_effects hP) ?_
  apply process_announced_effects hP (List.mem_append_right _ List.mem_cons_self)
  intro parents haccepted hnew hown hcompletes
  have hcurrent : P s.current_header := by
    apply h
    have hcompletes' : completes node s (.new header node.name) = true :=
      completes_iff.mpr hcompletes
    simp [certifies, hown, hcompletes', verdict_of_accepted haccepted hnew]
  refine ⟨hcurrent, fun s' h' _ => process_header_within_effects hcurrent fun _ _ => ?_⟩
  rw [current_header_of_effects h']
  exact hcurrent

theorem process_header_positive {header : Header} (h : zero_header node s header = false) :
    Effects node (fun header => 1 ≤ header.round) T R (process_header node header) s := by
  simp only [zero_header, Bool.or_eq_false_iff, beq_eq_false_iff_ne, Bool.and_eq_false_iff] at h
  refine process_header_effects_of_voted (Nat.one_le_iff_ne_zero.mpr h.1) fun hcertifies => ?_
  rcases h.2 with hcurrent | hnot
  · exact Nat.one_le_iff_ne_zero.mpr hcurrent
  · rw [hcertifies] at hnot
    cases hnot

theorem process_certificate_positive {certificate : Certificate}
    (h : zero_certificate node s certificate = false) :
    Effects node (fun header => 1 ≤ header.round) T R
      (process_certificate node (process_header node) certificate) s := by
  simp only [zero_certificate, Bool.or_eq_false_iff, beq_eq_false_iff_ne] at h
  refine process_certificate_effects (Nat.one_le_iff_ne_zero.mpr h.1) fun hnew => ?_
  apply process_header_positive
  simp only [zero_header, Bool.or_eq_false_iff, beq_eq_false_iff_ne]
  refine ⟨h.1, ?_⟩
  have hrest := h.2
  simpa [hnew] using hrest

omit [Crypto] in
theorem and_false_of_ok {r : DagResult Unit} {b : Bool} (h : (r.toBool && b) = false)
    (hok : r = .ok ()) : b = false := by
  rw [hok] at h
  exact h

/-- The effects of an input that does not bring round 0 are for headers of rounds from 1 on. -/
theorem handle_positive {input : Input} (h : brings_zero node s input = false) :
    ∃ x : CoreM Unit, handle node input s = x (s.start input) ∧
      Effects node (fun header => 1 ≤ header.round) (fun _ => True) (fun _ => True) x
        (s.start input) := by
  cases input with
  | primaries message =>
    refine ⟨handle_message node message, rfl, ?_⟩
    cases message with
    | header header =>
      refine Effects.get (Runs.bind propagate_runs ?_)
      rintro _ _ - ⟨hok, rfl⟩
      exact process_header_positive (and_false_of_ok h hok)
    | certificate certificate =>
      refine Effects.get (Runs.bind propagate_runs ?_)
      rintro _ _ - ⟨hok, rfl⟩
      exact process_certificate_positive (and_false_of_ok h hok)
    | vote vote =>
      have hbrings : Brings node (fun header => 1 ≤ header.round) (fun _ => True) s
          (.primaries (.vote vote)) := by
        intro hok hcompletes
        refine Nat.one_le_iff_ne_zero.mpr fun hzero => ?_
        simp [brings_zero, hok, Except.toBool, hzero, completes_iff.mpr hcompletes] at h
      exact handle_message_effects hbrings fun _ _ => trivial
    | no_vote_msg msg => exact handle_message_effects (fun _ _ => trivial) fun _ _ => trivial
    | timeout | certificates_request => exact handle_message_effects trivial fun _ _ => trivial
  | header_waiter header => exact ⟨_, rfl, process_header_positive h⟩
  | certificate_waiter certificate => exact ⟨_, rfl, process_certificate_positive h⟩
  | proposer header =>
    exact handle_effects (Nat.one_le_iff_ne_zero.mpr (beq_eq_false_iff_ne.mp h)) fun _ _ => trivial
  | timeout timeout => exact handle_effects trivial fun _ _ => trivial
  | no_vote_msg msg => exact handle_effects trivial fun _ _ => trivial

/-- The headers in what the core sent are of rounds from 1 on. -/
def Positive (s : Core) : Prop := ∀ output ∈ s.sent, output.Meets fun header => 1 ≤ header.round

theorem Positive.step {e : Event} (h : Positive s)
    (hnone : ∀ input, e = .input input → brings_zero node s input = false)
    (hstep : step node s e = some s') : Positive s' := by
  rcases step_cases hstep with hframe | ⟨input, rfl, -⟩
  · unfold Positive
    rw [hframe.sent]
    exact h
  · obtain ⟨x, heq, hx⟩ := handle_positive (hnone input rfl)
    obtain ⟨s₁, heffects, rfl⟩ := step_of_effects heq hx hstep
    unfold Positive
    rw [cleanup_frame.sent]
    refine of_steps (P := Positive) (fun _ _ => Effect.meets) heffects ?_
    unfold Positive
    rw [(start_frame input).sent]
    exact h

/-! ## What an input that brings round 0 leads to -/

/-- A header of round 0 was sent to the consensus. -/
def Zero (s : Core) : Prop := ∃ header, .consensus_header header ∈ s.sent ∧ header.round = 0

/-- A header that is in `processing` was sent to the consensus. -/
def Announced (s : Core) : Prop :=
  ∀ r d, d ∈ at_round s.processing r →
    ∃ header, .consensus_header header ∈ s.sent ∧ header.round = r

theorem Effect.sent_mono (h : Effect node P T R s s') {output : Output} (ho : output ∈ s.sent) :
    output ∈ s'.sent := by
  cases h with
  | send => exact List.mem_append_left _ ho
  | store_certificate => exact List.mem_append_left _ (List.mem_append_left _ ho)
  | processing | accept | vote | votes | handlers | timeouts | no_votes => exact ho

theorem Effect.zero (h : Effect node P T R s s') (hzero : Zero s) : Zero s' :=
  hzero.imp fun _ => And.imp_left h.sent_mono

theorem zero_of_effects (h : ReflTransGen (Effect node P T R) s s') (hzero : Zero s) : Zero s' :=
  of_steps (P := Zero) (fun _ _ heffect => heffect.zero) h hzero

theorem Effect.announced (h : Effect node P T R s s') (hs : Announced s) : Announced s' := by
  intro r d hd
  have hold : d ∈ at_round s.processing r →
      ∃ header, .consensus_header header ∈ s'.sent ∧ header.round = r :=
    fun hd => (hs r d hd).imp fun _ => And.imp_left h.sent_mono
  cases h with
  | @processing header hsent =>
    rcases mem_insert_at.mp hd with ⟨rfl, -⟩ | hd
    · exact ⟨header, hsent, rfl⟩
    · exact hold hd
  | send | accept | vote | store_certificate | votes | handlers | timeouts | no_votes =>
    exact hold hd

theorem announced_of_effects (h : ReflTransGen (Effect node P T R) s s') (hs : Announced s) :
    Announced s' :=
  of_steps (P := Announced) (fun _ _ heffect => heffect.announced) h hs

omit [Crypto] in
theorem after_expect {α : Type} {x : CoreM α} : after (expect x) s = after x s := by
  unfold after expect
  rcases x s with ⟨a, s'⟩ | ⟨e, s'⟩ <;> rfl

theorem within_any_effects (n : ℕ) (header : Header) :
    Effects node (fun _ => True) (fun _ => True) (fun _ => True)
      (process_header_within node n header) s :=
  process_header_within_effects trivial fun _ _ => trivial

theorem zero_after_header {header : Header} (h : header.round = 0) (n : ℕ) :
    Zero (after (process_header_within node (n + 1) header) s) := by
  have hsent : Output.consensus_header header ∈ (s.looking header).sent :=
    List.mem_append_right _ List.mem_cons_self
  have hrest : Effects node (fun _ => True) (fun _ => True) (fun _ => True)
      (process_announced node (process_header_within node n) header) (s.looking header) := by
    refine process_announced_effects trivial hsent ?_
    exact fun _ _ _ _ _ => ⟨trivial, fun _ _ _ => within_any_effects n _⟩
  rw [process_header_within, after_of_eq (process_header_with_eq header)]
  exact zero_of_effects hrest.steps_after ⟨header, hsent, h⟩

/-- A certificate has its header processed, unless that one is in `processing`. -/
theorem zero_of_embedded {process : Header → CoreM Unit} {certificate : Certificate}
    (hin : certificate.header.id ∈ at_round s.processing certificate.header.round → Zero s)
    (hnew : certificate.header.id ∉ at_round s.processing certificate.header.round →
      Zero (after (process certificate.header) s)) :
    Zero (after (process_certificate node process certificate) s) := by
  have hembedded : Zero (after (process_embedded process certificate.header) s) := by
    change Zero (after (if certificate.header.id ∉ at_round s.processing certificate.header.round
      then process certificate.header else pure () : CoreM Unit) s)
    split
    · rename_i h
      exact hnew h
    · rename_i h
      exact hin (not_not.mp h)
  have hrest : ∀ (_ : Unit) s', Effects node (fun _ => True) (fun _ => True) (fun _ => True) (do
      if ← deliver_certificate node certificate then store_certificate node certificate) s' :=
    fun _ _ => deliver_and_store_effects trivial
  exact zero_of_effects (steps_after_bind fun a s' _ => hrest a s') hembedded

/-- The header of a certificate of round 0 is sent to the consensus, now or before. -/
theorem zero_after_certificate {certificate : Certificate} (hannounced : Announced s)
    (h : certificate.header.round = 0) (n : ℕ) :
    Zero (after (process_certificate node (process_header_within node (n + 1)) certificate) s) := by
  refine zero_of_embedded (fun hin => ?_) fun _ => zero_after_header h n
  obtain ⟨header, hsent, hround⟩ := hannounced _ _ hin
  exact ⟨header, hsent, hround.trans h⟩

theorem zero_after_vote {vote : Vote} (hannounced : Announced s)
    (h : s.current_header.round = 0) (hcompletes : completes node s vote = true) (n : ℕ) :
    Zero (after (process_vote node (process_header_within node (n + 1)) vote) s) := by
  obtain ⟨made, aggregator', happend'⟩ := completes_iff.mp hcompletes
  rcases process_vote_cases node (process_header_within node (n + 1)) s vote with
    ⟨hused, -⟩ | ⟨-, hnone, -⟩ | ⟨certificate, aggregator, -, happend, -, heq⟩
  · rcases VotesAggregator.append_cases s.votes_aggregator vote node.committee s.current_header with
      ⟨-, herror⟩ | ⟨hunused, -⟩
    · rw [herror] at happend'
      cases happend'
    · exact absurd hused hunused
  · exact absurd happend' (hnone made aggregator')
  · rw [after_of_eq heq, after_expect]
    refine zero_after_certificate ?_ ?_ n
    · exact fun r d hd => (hannounced r d hd).imp fun _ => And.imp_left (List.mem_append_left _)
    · rw [VotesAggregator.append_header happend]
      exact h

theorem zero_of_zero_header {header : Header} (hannounced : Announced s)
    (h : zero_header node s header = true) : Zero (after (process_header node header) s) := by
  simp only [zero_header, Bool.or_eq_true, beq_iff_eq, Bool.and_eq_true] at h
  rcases h with h | ⟨hcurrent, hcertifies⟩
  · exact zero_after_header h 1
  · simp only [certifies, Bool.and_eq_true, beq_iff_eq] at hcertifies
    obtain ⟨⟨hown, hcompletes⟩, hvoted⟩ := hcertifies
    rcases process_header_with_cases node (process_header_within node 1) s header with
      ⟨e, _, hverdict, -⟩ | ⟨_, hverdict, -⟩ | ⟨parents, hverdict, heq⟩
    · rw [hverdict] at hvoted
      cases hvoted
    · rw [hverdict] at hvoted
      cases hvoted
    · have hsteps : ReflTransGen (AnyEffect node) s (s.looking header) := looking_effects trivial
      have hlooking : Announced (s.looking header) := announced_of_effects hsteps hannounced
      have haccepting : Announced (accepting node s header parents) := hlooking
      rw [process_header, process_header_within, after_of_eq heq, send_vote,
        if_pos (by simpa [Vote.new] using hown), after_expect]
      exact zero_after_vote haccepting hcurrent hcompletes 0

theorem zero_of_zero_certificate {certificate : Certificate} (hannounced : Announced s)
    (h : zero_certificate node s certificate = true) :
    Zero (after (process_certificate node (process_header node) certificate) s) := by
  simp only [zero_certificate, Bool.or_eq_true, beq_iff_eq, Bool.and_eq_true,
    decide_eq_true_eq] at h
  rcases h with h | ⟨⟨hcurrent, hnew⟩, hcertifies⟩
  · exact zero_after_certificate hannounced h 1
  · refine zero_of_embedded (fun hin => absurd hin hnew) fun _ => ?_
    apply zero_of_zero_header hannounced
    simp [zero_header, hcurrent, hcertifies]

omit [Crypto] in
theorem ok_of_toBool {r : DagResult Unit} (h : r.toBool = true) : r = .ok () := by
  cases r with
  | ok u => rfl
  | error e => cases h

omit [Crypto] in
theorem after_checked {α : Type} {r : DagResult Unit} {x : CoreM α} (h : r = .ok ()) :
    after (propagate r >>= fun _ => x) s = after x s := by
  rw [h]
  exact after_bind_of_ok rfl

/-- A header of our own is broadcast first, and then processed as any other. -/
theorem zero_after_own_header {header : Header} (h : header.round = 0) :
    Zero (after (process_own_header node header) s) :=
  zero_after_header h 1

theorem zero_after_handle {input : Input} (hannounced : Announced s)
    (h : brings_zero node s input = true) : Zero (after (handle node input) s) := by
  cases input with
  | primaries message =>
    cases message with
    | header header =>
      simp only [brings_zero, Bool.and_eq_true] at h
      have hchecked := after_checked (s := s) (x := process_header node header) (ok_of_toBool h.1)
      have hzero := zero_of_zero_header hannounced h.2
      rw [← hchecked] at hzero
      exact hzero
    | vote vote =>
      simp only [brings_zero, Bool.and_eq_true, beq_iff_eq] at h
      have hchecked := after_checked (s := s) (x := process_vote node (process_header node) vote)
        (ok_of_toBool h.1.1)
      have hzero : Zero (after (process_vote node (process_header node) vote) s) :=
        zero_after_vote hannounced h.1.2 h.2 1
      rw [← hchecked] at hzero
      exact hzero
    | certificate certificate =>
      simp only [brings_zero, Bool.and_eq_true] at h
      have hchecked := after_checked (s := s)
        (x := process_certificate node (process_header node) certificate) (ok_of_toBool h.1)
      have hzero := zero_of_zero_certificate hannounced h.2
      rw [← hchecked] at hzero
      exact hzero
    | timeout | no_vote_msg | certificates_request => cases h
  | header_waiter header => exact zero_of_zero_header hannounced h
  | certificate_waiter certificate => exact zero_of_zero_certificate hannounced h
  | proposer header => exact zero_after_own_header (beq_iff_eq.mp h)
  | timeout | no_vote_msg => cases h

/-! ## The runs of the core -/

omit [Crypto] in
theorem mem_at_round_cleanup {r : ℕ} {d : Digest}
    (h : d ∈ at_round (s.cleanup node).processing r) : d ∈ at_round s.processing r := by
  unfold cleanup at h
  dsimp only at h
  split at h
  · exact (mem_at_round_filter.mp h).2
  · exact h

theorem Announced.step {e : Event} (h : Announced s) (hstep : step node s e = some s') :
    Announced s' := by
  cases e with
  | input input =>
    obtain ⟨s₁, heffects, rfl⟩ := step_effects (brings_any input) (fun _ _ => trivial) hstep
    have hstart : Announced (s.start input) := by
      cases input <;> exact h
    have h₁ := announced_of_effects heffects hstart
    intro r d hd
    rw [cleanup_frame.sent]
    exact h₁ r d (mem_at_round_cleanup hd)
  | payload digest worker_id =>
    cases hstep
    exact h
  | committed round =>
    unfold Core.step at hstep
    dsimp only at hstep
    split at hstep <;> cases hstep <;> exact h

theorem announced_of_run {store : Store} {events : List Event}
    (hrun : run node store events = some s) : Announced s := by
  induction events using List.reverseRecOn generalizing s with
  | nil =>
    cases hrun
    intro r d hd
    exact absurd hd ExtTreeSet.not_mem_empty
  | append_singleton events e ih =>
    obtain ⟨before, hbefore, hstep⟩ := run_concat.mp hrun
    exact (ih hbefore).step hstep

theorem zero_of_step {e : Event} (hstep : step node s e = some s') (h : Zero s) : Zero s' := by
  rcases step_cases hstep with hframe | ⟨input, -, hinput⟩
  · unfold Zero
    rw [hframe.sent]
    exact h
  · obtain ⟨s₁, heffects, rfl⟩ := hinput _ _ (brings_any input)
    have hstart : Zero (s.start input) := by
      unfold Zero
      rw [(start_frame input).sent]
      exact h
    have h₁ := zero_of_effects heffects hstart
    unfold Zero
    rw [cleanup_frame.sent]
    exact h₁

end

section

variable [Crypto]

/-- The input of the event brings round 0 to the core. -/
def Event.BringsZero (node : Node) (s : Core) (e : Event) : Prop :=
  ∃ input, e = .input input ∧ brings_zero node s input = true

/-- Every header and every certificate that the core sent to the consensus is of a round from 1 on,
and the consensus that gets a part of them on each of its two channels never subtracts from round 0.
The subtraction in `process_header` is for a header that it has just sent to the consensus. -/
structure RoundsInRange (node : Node) (s : Core) : Prop where
  header : ∀ header, .consensus_header header ∈ s.sent → 1 ≤ header.round
  certificate : ∀ certificate, .consensus certificate ∈ s.sent → 1 ≤ certificate.round
  consensus : ∀ deliveries e c,
    consensus.headers (deliveries ++ [e]) <+: consensus.headers_sent s →
    consensus.certificates (deliveries ++ [e]) <+: consensus.certificates_sent s →
    consensus.Consensus.run node.committee node.gc_depth deliveries = some c →
    ∀ round, consensus.Subtracts node.committee node.gc_depth c e round → 1 ≤ round

variable {node : Node} {s : Core}

theorem Positive.inRange (h : Positive s) : RoundsInRange node s := by
  have hheader : ∀ header, .consensus_header header ∈ s.sent → 1 ≤ header.round :=
    fun header hm => h _ hm
  have hcertificate : ∀ certificate, .consensus certificate ∈ s.sent → 1 ≤ certificate.round :=
    fun certificate hm => h _ hm
  refine ⟨hheader, hcertificate, fun deliveries e c hheaders hcertificates hrun round hsub => ?_⟩
  refine consensus.one_le_of_subtracts hrun (fun e' he' => ?_) hsub
  cases e' with
  | header header =>
    have hm := hheaders.subset (consensus.mem_headers.mpr he')
    exact hheader _ (consensus.mem_headers_sent.mp hm)
  | certificate certificate =>
    have hm := hcertificates.subset (List.mem_filterMap.mpr ⟨_, he', rfl⟩)
    exact hcertificate _ (consensus.mem_certificates_sent.mp hm)

theorem Zero.not_inRange (h : Zero s) : ¬ RoundsInRange node s := by
  obtain ⟨header, hsent, hzero⟩ := h
  intro hrange
  have hpos := hrange.header header hsent
  omega

theorem positive_of_run {store : Store} {events : List Event}
    (hnone : Each (fun pre e => ∀ before, run node store pre = some before →
      ¬ e.BringsZero node before) events)
    (hrun : run node store events = some s) : Positive s := by
  induction events using List.reverseRecOn generalizing s with
  | nil =>
    cases hrun
    exact fun _ ho => absurd ho List.not_mem_nil
  | append_singleton events e ih =>
    obtain ⟨before, hbefore, hstep⟩ := run_concat.mp hrun
    refine (ih hnone.of_append hbefore).step ?_ hstep
    rintro input rfl
    exact Bool.eq_false_iff.mpr fun hzero => hnone.last before hbefore ⟨input, rfl, hzero⟩

theorem zero_of_bringsZero {store : Store} {e : Event} {pre post : List Event} {before : Core}
    (hbefore : run node store pre = some before) (hzero : e.BringsZero node before)
    (hrun : run node store (pre ++ e :: post) = some s) : Zero s := by
  induction post using List.reverseRecOn generalizing s with
  | nil =>
    obtain ⟨input, rfl, hbrings⟩ := hzero
    obtain ⟨before', hbefore', hstep⟩ := run_concat.mp hrun
    obtain rfl : before' = before := Option.some.inj (hbefore'.symm.trans hbefore)
    have hafter := zero_after_handle (announced_of_run hbefore) hbrings
    rw [step_input_eq hstep]
    unfold Zero
    rw [cleanup_frame.sent]
    exact hafter
  | append_singleton post later ih =>
    rw [← List.cons_append, ← List.append_assoc] at hrun
    obtain ⟨mid, hmid, hstep⟩ := run_concat.mp hrun
    exact zero_of_step hstep (ih hmid)

/-- For every run of a core: what it sends to the consensus is of rounds from 1 on, and no
subtraction underflows there, exactly when no input of the run that passes its check brings a header
or a certificate of round 0: as a message, from a proposer that is past the last round, or by a vote
that makes a certificate for a current header of round 0. -/
theorem rounds_are_in_range_iff (node : Node) (store : Store) (events : List Event) (s : Core)
    (hrun : run node store events = some s) :
    RoundsInRange node s ↔
      Each (fun pre e => ∀ before, run node store pre = some before →
        ¬ e.BringsZero node before) events := by
  constructor
  · rintro hrange pre e post rfl before hbefore hzero
    exact (zero_of_bringsZero hbefore hzero hrun).not_inRange hrange
  · exact fun hnone => (positive_of_run hnone hrun).inRange

end

/-! ## A header and a certificate of round 0 -/

section

attribute [local instance] crypto.sample

/-- A header of authority 2 for a round, with the genesis as its parents. -/
def header_of_round (round : ℕ) : Header :=
  let parents := ExtTreeSet.ofList ((Certificate.genesis .four).map Certificate.digest)
  { Header.default with author := 2, round, parents }.signed

def first_round : List Event := [.input (.primaries (.header (header_of_round 1)))]

def first_round_state : Core :=
  (run consensus.counting_node .empty first_round).get (by decide +kernel)

theorem rounds_are_in_range_iff_first :
    .consensus_header (header_of_round 1) ∈ first_round_state.sent ∧
      RoundsInRange consensus.counting_node first_round_state := by
  refine ⟨by decide +kernel, ?_⟩
  refine (rounds_are_in_range_iff consensus.counting_node .empty first_round first_round_state
    (by simp [first_round_state])).mpr ?_
  refine Each.concat (l := []) each_nil ?_
  rintro before hbefore ⟨input, heq, hzero⟩
  cases heq
  cases hbefore
  revert hzero
  decide +kernel

/-- Authority 2 signs a header of round 0, and sends its genesis certificate. -/
def zero_rounds : List Event :=
  [.input (.primaries (.header (header_of_round 0))),
    .input (.primaries (.certificate (.genesis_of 2)))]

def zero_rounds_state : Core :=
  (run consensus.counting_node .empty zero_rounds).get (by decide +kernel)

/-- Both pass their checks and go to the consensus, where `round - 1` is the last `u64`. -/
theorem round_zero_is_forwarded :
    FromTasks consensus.counting_node (fun _ => False) .empty zero_rounds ∧
      run consensus.counting_node .empty zero_rounds = some zero_rounds_state ∧
      .consensus_header (header_of_round 0) ∈ zero_rounds_state.sent ∧
      (header_of_round 0).round = 0 ∧
      .consensus (.genesis_of 2) ∈ zero_rounds_state.sent ∧ (Certificate.genesis_of 2).round = 0 ∧
      wrapping_pred 0 = 2 ^ 64 - 1 ∧ ¬ RoundsInRange consensus.counting_node zero_rounds_state := by
  have hsent : .consensus_header (header_of_round 0) ∈ zero_rounds_state.sent := by decide +kernel
  refine ⟨fromTasks_of_fresh (fun _ => nofun)
    (by decide +kernel : zero_rounds.all (fresh fun _ => false) = true),
    by simp [zero_rounds_state], hsent, rfl, by decide +kernel, rfl, rfl, ?_⟩
  exact Zero.not_inRange ⟨_, hsent, rfl⟩

end

end Core

end sailfish.primary
