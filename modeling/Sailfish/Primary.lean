-- A primary (`primary/src/primary.rs`): its core and its proposer, with the channels
-- between the two. A channel keeps its order, and a message may wait on it for any time.
-- The capacities of the channels are left out.
import Mathlib
import Sailfish.CoreEffects
import Sailfish.ProposedHeaders
import Sailfish.Lib.Splits

open Std splits sailfish.crypto sailfish.config

namespace sailfish.primary

/-- The channels on which the core receives what the proposer makes. -/
inductive Core.Channel
  | headers
  | timeout
  | no_vote_msg
deriving DecidableEq

/-- The channel of an input that the proposer makes. -/
def Core.Input.channel : Core.Input → Option Core.Channel
  | .proposer _ => some .headers
  | .timeout _ => some .timeout
  | .no_vote_msg _ => some .no_vote_msg
  | .primaries _ | .header_waiter _ | .certificate_waiter _ => none

/-- The channels on which the proposer receives what the core makes. -/
inductive Proposer.Channel
  | parents
  | timeout_cert
  | no_vote_cert
deriving DecidableEq

/-- The channel of a message that the core makes. -/
def Proposer.Message.channel : Proposer.Message → Option Proposer.Channel
  | .core _ _ => some .parents
  | .timeout_cert _ _ => some .timeout_cert
  | .no_vote_cert _ _ => some .no_vote_cert
  | .worker _ _ | .timer => none

/-- The message for the proposer, if the output is one. -/
def Output.message : Output → Option Proposer.Message
  | .proposer parents round => some (.core parents round)
  | .timeout_cert cert round => some (.timeout_cert cert round)
  | .no_vote_cert cert round => some (.no_vote_cert cert round)
  | .consensus_header _ | .consensus _ | .header_waiter _ | .certificate_waiter _ | .network _ _ =>
    none

namespace Proposer

variable [Crypto] {name : PublicKey} {committee : Committee} {header_size : ℕ} {s : Proposer}

/-- What holds of a proposer whatever it receives: its headers are sent with parents, its messages
are its own, and it knows whether the parents at hand hold the leader. Only at the start it has
parents, the genesis, without a look for the leader. -/
structure Orderly (name : PublicKey) (committee : Committee) (s : Proposer) : Prop where
  sent_headers : headers s.sent = s.made.map (·.header)
  made_parents : ∀ m ∈ s.made, m.parents ≠ [] ∧
    m.header.parents = ExtTreeSet.ofList (m.parents.map Certificate.digest)
  sent_timeouts : ∀ t ∈ timeouts s.sent, t = .new t.round name
  sent_no_votes : ∀ msg ∈ no_vote_msgs s.sent, msg = .new msg.round name
  leader : 0 < s.round → s.last_parents ≠ [] →
    s.last_leader = s.last_parents.find? (·.origin == committee.leader s.round)

theorem orderly_spawn : Orderly name committee (spawn committee) where
  sent_headers := rfl
  made_parents := fun _ h => absurd h List.not_mem_nil
  sent_timeouts := fun _ h => absurd h List.not_mem_nil
  sent_no_votes := fun _ h => absurd h List.not_mem_nil
  leader := fun h => absurd h (Nat.lt_irrefl 0)

theorem Orderly.elapse (h : Orderly name committee s) :
    Orderly name committee { s with timer_expired := true } :=
  { h with }

/-- A proposer that made nothing new, and looked for the leader when its parents changed. -/
theorem Orderly.same (h : Orderly name committee s) {s' : Proposer} (hsent : s'.sent = s.sent)
    (hmade : s'.made = s.made)
    (hleader : 0 < s'.round → s'.last_parents ≠ [] →
      s'.last_leader = s'.last_parents.find? (·.origin == committee.leader s'.round)) :
    Orderly name committee s' where
  sent_headers := by
    rw [hsent, hmade]
    exact h.sent_headers
  made_parents := by
    rw [hmade]
    exact h.made_parents
  sent_timeouts := by
    rw [hsent]
    exact h.sent_timeouts
  sent_no_votes := by
    rw [hsent]
    exact h.sent_no_votes
  leader := hleader

theorem Orderly.receive (h : Orderly name committee s) (message : Message) :
    Orderly name committee (receive committee s message) := by
  obtain ⟨hsent, hmade, -⟩ := receive_eq committee s message
  refine h.same hsent hmade ?_
  unfold Proposer.receive
  cases message with
  | core => exact fun _ _ => rfl
  | timeout_cert | no_vote_cert =>
    dsimp only
    split <;> exact h.leader
  | worker | timer => exact h.leader

theorem headers_propose : headers (propose name committee header_size s).sent = headers s.sent ++
    if ready name committee header_size s then
      [next_header name committee { s with round := wrapping_succ s.round }]
    else [] := by
  rcases propose_cases name committee header_size s with
    ⟨hready, _, _, heq, hheaders⟩ | ⟨hready, _, _, heq, hheaders⟩
  · rw [heq, hready]
    exact hheaders.trans (List.append_nil _).symm
  · rw [heq, hready]
    exact hheaders

omit [Crypto] in
theorem forall_mem_append_if {α : Type} {P : α → Prop} {l : List α} {a : α} {b : Bool}
    (hl : ∀ x ∈ l, P x) (ha : b = true → P a) : ∀ x ∈ l ++ if b then [a] else [], P x := by
  intro x hx
  rcases List.mem_append.mp hx with hx | hx
  · exact hl x hx
  · split at hx
    · rename_i hb
      rw [List.mem_singleton.mp hx]
      exact ha hb
    · exact absurd hx List.not_mem_nil

theorem Orderly.propose (h : Orderly name committee s) :
    Orderly name committee (propose name committee header_size s) := by
  refine ⟨?_, ?_, ?_, ?_, ?_⟩
  · rw [headers_propose, made_propose, List.map_append, h.sent_headers]
    split <;> rfl
  · rw [made_propose]
    exact forall_mem_append_if h.made_parents fun hready => ⟨parents_of_ready hready, rfl⟩
  · rw [timeouts_propose]
    exact forall_mem_append_if h.sent_timeouts fun _ => rfl
  · rw [no_vote_msgs_propose]
    exact forall_mem_append_if h.sent_no_votes fun _ => rfl
  · rw [last_parents_propose]
    rcases propose_cases name committee header_size s with
      ⟨hready, _, _, heq, -⟩ | ⟨hready, _, _, heq, -⟩
    · rw [heq, hready]
      exact h.leader
    · rw [hready]
      exact fun _ hne => absurd rfl hne

/-- What the proposer made is of rounds that it has reached, as long as its round does not wrap. -/
structure Growing (s : Proposer) : Prop where
  made : ∀ m ∈ s.made, m.header.round ≤ s.round
  no_votes : ∀ msg ∈ no_vote_msgs s.sent, msg.round < s.round

omit [Crypto] in
theorem growing_spawn : Growing (spawn committee) where
  made := fun _ h => absurd h List.not_mem_nil
  no_votes := fun _ h => absurd h List.not_mem_nil

omit [Crypto] in
theorem Growing.receive (h : Growing s) (message : Message) :
    Growing (receive committee s message) := by
  obtain ⟨hsent, hmade, hround⟩ := receive_eq committee s message
  constructor
  · rw [hmade]
    exact fun m hm => Nat.le_trans (h.made m hm) hround
  · rw [hsent]
    exact fun msg hmsg => Nat.lt_of_lt_of_le (h.no_votes msg hmsg) hround

theorem Growing.propose (h : Growing s) (hfit : s.round + 1 < 2 ^ 64) :
    Growing (propose name committee header_size s) := by
  have hround : (Proposer.propose name committee header_size s).round =
      if ready name committee header_size s then s.round + 1 else s.round := by
    rw [round_propose, wrapping_succ_of_lt hfit]
  have hle : s.round ≤ (Proposer.propose name committee header_size s).round := by
    rw [hround]
    split <;> omega
  constructor
  · rw [made_propose]
    refine forall_mem_append_if (fun m hm => Nat.le_trans (h.made m hm) hle) fun hready => ?_
    rw [hround, if_pos hready]
    exact Nat.le_of_eq (wrapping_succ_of_lt hfit)
  · rw [no_vote_msgs_propose]
    refine forall_mem_append_if (fun msg hmsg => ?_) fun hwhen => ?_
    · exact Nat.lt_of_lt_of_le (h.no_votes msg hmsg) hle
    · rw [hround, if_pos (Bool.and_eq_true_iff.mp hwhen).1]
      exact Nat.lt_succ_self _

end Proposer

structure Primary where
  core : Core
  proposer : Proposer
  /-- The main loop of the proposer waits for a message. -/
  waiting : Bool
  /-- What is on the channels to the core, the oldest first. -/
  to_core : List Core.Input
  /-- What is on the channels to the proposer, the oldest first. -/
  to_proposer : List Proposer.Message
deriving DecidableEq

namespace Primary

/-- What happens to a primary. The core handles an event from outside, or the next input on a
channel of the proposer. The timer elapses. The main loop of the proposer makes what it can, and
then it receives a digest of a worker, the end of its timer or the next message on a channel of the
core. -/
inductive Event
  | core (e : Core.Event)
  | core_receives (channel : Core.Channel)
  | elapse
  | propose
  | worker (digest : Digest) (worker_id : ℕ)
  | timer
  | proposer_receives (channel : Proposer.Channel)
deriving DecidableEq

/-- The event is no input that the proposer makes. -/
def from_outside : Core.Event → Bool
  | .input input => input.channel.isNone
  | .payload _ _ | .committed _ => true

section

variable [Crypto] (node : Node) (header_size : ℕ)

def spawn (store : Store) : Primary where
  core := .spawn store
  proposer := .spawn node.committee
  waiting := false
  to_core := []
  to_proposer := []

/-- The core handles an event, and what it sends to the proposer comes on the channels. -/
def core_step (s : Primary) (e : Core.Event) : Option Primary := do
  let core ← Core.step node s.core e
  let sent := core.sent.drop s.core.sent.length
  return { s with core, to_proposer := s.to_proposer ++ sent.filterMap Output.message }

/-- The proposer makes what it can, and it comes on the channels. -/
def propose (s : Primary) : Primary :=
  let proposer := s.proposer.propose node.name node.committee header_size
  let sent := proposer.sent.drop s.proposer.sent.length
  { s with proposer, waiting := true, to_core := s.to_core ++ sent }

def receive (s : Primary) (message : Proposer.Message) : Primary :=
  { s with proposer := s.proposer.receive node.committee message, waiting := false }

/-- One event. `none` is a panic of the core, or an event that cannot happen. -/
def step (s : Primary) : Event → Option Primary
  | .core e => if from_outside e then core_step node s e else none
  | .core_receives channel => do
    let input ← s.to_core.find? (·.channel == some channel)
    let to_core := s.to_core.eraseP (·.channel == some channel)
    core_step node { s with to_core } (.input input)
  | .elapse => some { s with proposer := { s.proposer with timer_expired := true } }
  | .propose => if s.waiting then none else some (propose node header_size s)
  | .worker digest worker_id =>
    if s.waiting then some (receive node s (.worker digest worker_id)) else none
  | .timer => if s.waiting then some (receive node s .timer) else none
  | .proposer_receives channel =>
    if s.waiting then do
      let message ← s.to_proposer.find? (·.channel == some channel)
      let to_proposer := s.to_proposer.eraseP (·.channel == some channel)
      return receive node { s with to_proposer } message
    else none

/-- The run of a primary from its start, with what is in the store then. -/
def run (store : Store) (events : List Event) : Option Primary :=
  events.foldlM (step node header_size) (spawn node store)

variable {node : Node} {header_size : ℕ} {s s' : Primary} {e : Event}

theorem run_concat {store : Store} {events : List Event} :
    run node header_size store (events ++ [e]) = some s' ↔
      ∃ s, run node header_size store events = some s ∧ step node header_size s e = some s' := by
  unfold run
  rw [List.foldlM_append]
  simp [Option.bind_eq_some_iff]

/-- How an event changes the two tasks: the core makes a step and the proposer stays, or the
proposer changes and the core stays. -/
inductive Change (node : Node) (header_size : ℕ) (s : Primary) : Event → Primary → Prop
  | core {e : Core.Event} {s' : Primary} : Core.step node s.core e = some s'.core →
      s'.proposer = s.proposer → s'.waiting = s.waiting → Change node header_size s (.core e) s'
  | core_receives {channel : Core.Channel} {input : Core.Input} {s' : Primary} :
      input.channel = some channel → Core.step node s.core (.input input) = some s'.core →
      s'.proposer = s.proposer → s'.waiting = s.waiting →
      Change node header_size s (.core_receives channel) s'
  | elapse {s' : Primary} : s'.core = s.core →
      s'.proposer = { s.proposer with timer_expired := true } → s'.waiting = s.waiting →
      Change node header_size s .elapse s'
  | propose {s' : Primary} : s'.core = s.core →
      s'.proposer = s.proposer.propose node.name node.committee header_size →
      s.waiting = false → s'.waiting = true → Change node header_size s .propose s'
  | receive {e : Event} (message : Proposer.Message) {s' : Primary} : e ≠ .propose →
      (∀ e', e ≠ .core e') → s'.core = s.core →
      s'.proposer = s.proposer.receive node.committee message →
      s.waiting = true → s'.waiting = false → Change node header_size s e s'

theorem core_step_eq_some {e : Core.Event} (h : core_step node s e = some s') :
    Core.step node s.core e = some s'.core ∧ s'.proposer = s.proposer ∧
      s'.waiting = s.waiting := by
  unfold core_step at h
  simp only [Option.pure_def, Option.bind_eq_bind, Option.bind_eq_some_iff] at h
  obtain ⟨core, hcore, heq⟩ := h
  cases heq
  exact ⟨hcore, rfl, rfl⟩

theorem change_of_step (h : step node header_size s e = some s') :
    Change node header_size s e s' := by
  cases e with
  | core e =>
    unfold step at h
    dsimp only at h
    split at h
    · obtain ⟨hcore, hproposer, hwaiting⟩ := core_step_eq_some h
      exact .core hcore hproposer hwaiting
    · cases h
  | core_receives channel =>
    unfold step at h
    simp only [Option.bind_eq_bind, Option.bind_eq_some_iff] at h
    obtain ⟨input, hfind, h⟩ := h
    obtain ⟨hcore, hproposer, hwaiting⟩ := core_step_eq_some h
    have hchannel := List.find?_some hfind
    exact .core_receives (beq_iff_eq.mp hchannel) hcore hproposer hwaiting
  | elapse =>
    cases h
    exact .elapse rfl rfl rfl
  | propose =>
    unfold step at h
    dsimp only at h
    split at h
    · cases h
    · rename_i hwaiting
      cases h
      exact .propose rfl rfl (Bool.eq_false_iff.mpr hwaiting) rfl
  | worker digest worker_id =>
    unfold step at h
    dsimp only at h
    split at h
    · rename_i hwaiting
      cases h
      exact .receive (.worker digest worker_id) nofun nofun rfl rfl hwaiting rfl
    · cases h
  | timer =>
    unfold step at h
    dsimp only at h
    split at h
    · rename_i hwaiting
      cases h
      exact .receive .timer nofun nofun rfl rfl hwaiting rfl
    · cases h
  | proposer_receives channel =>
    unfold step at h
    dsimp only at h
    split at h
    · rename_i hwaiting
      simp only [Option.pure_def, Option.bind_eq_bind, Option.bind_eq_some_iff] at h
      obtain ⟨message, -, heq⟩ := h
      cases heq
      exact .receive message nofun nofun rfl rfl hwaiting rfl
    · cases h

/-! ## The runs of the two tasks -/

/-- The core of a primary makes a run of its own. -/
theorem core_of_run {store : Store} {events : List Event}
    (hrun : run node header_size store events = some s) :
    ∃ core_events, Core.run node store core_events = some s.core := by
  induction events using List.reverseRecOn generalizing s with
  | nil =>
    cases hrun
    exact ⟨[], rfl⟩
  | append_singleton events e ih =>
    obtain ⟨before, hbefore, hstep⟩ := run_concat.mp hrun
    obtain ⟨core_events, hcore_run⟩ := ih hbefore
    cases change_of_step hstep with
    | core hcore => exact ⟨_, Core.run_concat.mpr ⟨_, hcore_run, hcore⟩⟩
    | core_receives _ hcore => exact ⟨_, Core.run_concat.mpr ⟨_, hcore_run, hcore⟩⟩
    | elapse hcore | propose hcore =>
      rw [hcore]
      exact ⟨core_events, hcore_run⟩
    | receive _ _ _ hcore =>
      rw [hcore]
      exact ⟨core_events, hcore_run⟩

/-- Where the proposer of a primary is in a run of its own: between two turns, or inside a turn,
which then ends with the message that it receives. The timer may have elapsed since the turn
began. -/
inductive Within (node : Node) (header_size : ℕ) : Bool → Proposer → Prop
  | between (events : List Proposer.Event) :
      Within node header_size false (Proposer.run node.name node.committee header_size events)
  | inside (events : List Proposer.Event) :
      Within node header_size true (Proposer.propose node.name node.committee header_size
        (Proposer.run node.name node.committee header_size events))
  | elapsed (events : List Proposer.Event) :
      Within node header_size true { Proposer.propose node.name node.committee header_size
        (Proposer.run node.name node.committee header_size events) with timer_expired := true }

omit [Crypto] in
/-- The timer does not matter to a message. -/
theorem receive_elapsed {committee : Committee} {s : Proposer} (message : Proposer.Message) :
    Proposer.receive committee { s with timer_expired := true } message =
      { Proposer.receive committee s message with timer_expired := true } := by
  unfold Proposer.receive
  cases message with
  | core | timeout_cert | no_vote_cert =>
    dsimp only [Proposer.update_leader]
    split <;> rfl
  | worker | timer => rfl

theorem Within.elapse {waiting : Bool} {s : Proposer} (h : Within node header_size waiting s) :
    Within node header_size waiting { s with timer_expired := true } := by
  cases h with
  | between events =>
    have hnext : Within node header_size false (Proposer.run node.name node.committee header_size
        (events ++ [.elapse])) := .between _
    rw [Proposer.run_concat] at hnext
    exact hnext
  | inside events => exact .elapsed events
  | elapsed events => exact .elapsed events

theorem Within.receive {s : Proposer} (h : Within node header_size true s)
    (message : Proposer.Message) :
    Within node header_size false (s.receive node.committee message) := by
  cases h with
  | inside events =>
    have hnext : Within node header_size false (Proposer.run node.name node.committee header_size
        (events ++ [.turn message])) := .between _
    rw [Proposer.run_concat] at hnext
    exact hnext
  | elapsed events =>
    rw [receive_elapsed]
    have hnext : Within node header_size false (Proposer.run node.name node.committee header_size
        (events ++ [.turn message])) := .between _
    rw [Proposer.run_concat] at hnext
    exact hnext.elapse

theorem Within.propose {s : Proposer} (h : Within node header_size false s) :
    Within node header_size true (s.propose node.name node.committee header_size) := by
  cases h with
  | between events => exact .inside events

/-- The proposer of a primary makes a run of its own. -/
theorem within_of_run {store : Store} {events : List Event}
    (hrun : run node header_size store events = some s) :
    Within node header_size s.waiting s.proposer := by
  induction events using List.reverseRecOn generalizing s with
  | nil =>
    cases hrun
    exact .between []
  | append_singleton events e ih =>
    obtain ⟨before, hbefore, hstep⟩ := run_concat.mp hrun
    have h := ih hbefore
    cases change_of_step hstep with
    | core _ hproposer hwaiting | core_receives _ _ hproposer hwaiting =>
      rw [hproposer, hwaiting]
      exact h
    | elapse _ hproposer hwaiting =>
      rw [hproposer, hwaiting]
      exact h.elapse
    | propose _ hproposer hbetween hinside =>
      rw [hbetween] at h
      rw [hproposer, hinside]
      exact h.propose
    | receive message _ _ _ hproposer hinside hbetween =>
      rw [hinside] at h
      rw [hproposer, hbetween]
      exact h.receive message

theorem orderly_run (events : List Proposer.Event) : Proposer.Orderly node.name node.committee
    (Proposer.run node.name node.committee header_size events) := by
  induction events using List.reverseRecOn with
  | nil => exact Proposer.orderly_spawn
  | append_singleton events e ih =>
    rw [Proposer.run_concat]
    cases e with
    | elapse => exact ih.elapse
    | turn message => exact ih.propose.receive message

theorem Within.orderly {waiting : Bool} {s : Proposer} (h : Within node header_size waiting s) :
    Proposer.Orderly node.name node.committee s := by
  cases h with
  | between events => exact orderly_run events
  | inside events => exact (orderly_run events).propose
  | elapsed events => exact (orderly_run events).propose.elapse

theorem orderly_of_run {store : Store} {events : List Event}
    (hrun : run node header_size store events = some s) :
    Proposer.Orderly node.name node.committee s.proposer :=
  (within_of_run hrun).orderly

/-- Before each event of the run the proposer is below the last round of a `u64`. -/
def NeverWraps (node : Node) (header_size : ℕ) (store : Store) (events : List Event) : Prop :=
  Each (fun pre _ => ∀ before, run node header_size store pre = some before →
    before.proposer.round + 1 < 2 ^ 64) events

instance {store : Store} {events : List Event} :
    Decidable (NeverWraps node header_size store events) :=
  decidable_of_iff (each (fun pre _ => (run node header_size store pre).all fun before =>
      before.proposer.round + 1 < 2 ^ 64) [] events = true) <| by
    rw [each_iff]
    simp only [List.nil_append, Option.all_eq_true, decide_eq_true_eq]
    rfl

theorem growing_of_run {store : Store} {events : List Event}
    (hfit : NeverWraps node header_size store events)
    (hrun : run node header_size store events = some s) : s.proposer.Growing := by
  induction events using List.reverseRecOn generalizing s with
  | nil =>
    cases hrun
    exact Proposer.growing_spawn
  | append_singleton events e ih =>
    obtain ⟨before, hbefore, hstep⟩ := run_concat.mp hrun
    have h := ih hfit.of_append hbefore
    cases change_of_step hstep with
    | core _ hproposer | core_receives _ _ hproposer =>
      rw [hproposer]
      exact h
    | elapse _ hproposer =>
      rw [hproposer]
      exact ⟨h.made, h.no_votes⟩
    | propose _ hproposer =>
      rw [hproposer]
      exact h.propose (hfit.last before hbefore)
    | receive message _ _ _ hproposer =>
      rw [hproposer]
      exact h.receive message

end

end Primary

end sailfish.primary
