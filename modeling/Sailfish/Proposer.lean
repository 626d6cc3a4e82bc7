-- The proposer of a primary (`primary/src/proposer.rs`): it makes the headers, the
-- timeouts and the no-vote messages of its node. The length of the timer is left out:
-- it may elapse at any time.
import Mathlib
import Sailfish.Aggregators
import Sailfish.Core

open Std sailfish.crypto sailfish.config

namespace sailfish.primary

/-- `TimeoutCert::new`. -/
def TimeoutCert.new (round : ℕ) : TimeoutCert := { round, timeouts := [] }

/-- `NoVoteCert::new`. -/
def NoVoteCert.new (round : ℕ) : NoVoteCert := { round, no_votes := [] }

section

variable [Crypto]

/-- `Timeout::new`. -/
def Timeout.new (round : ℕ) (author : PublicKey) : Timeout :=
  let timeout : Timeout := { round, author, signature := .default }
  { timeout with signature := Crypto.sign author timeout.digest }

/-- `Header::new`. -/
def Header.new (author : PublicKey) (round : ℕ) (payload : ExtTreeMap Digest ℕ)
    (parents : ExtTreeSet Digest) (timeout_cert : TimeoutCert) (no_vote_cert : NoVoteCert) :
    Header :=
  let header : Header :=
    { author, round, payload, parents, id := 0, signature := .default, timeout_cert, no_vote_cert }
  { header with id := header.digest, signature := Crypto.sign author header.digest }

end

/-- A header that the proposer made, with the certificates that it took the parents from. -/
structure Made where
  header : Header
  parents : List Certificate
deriving DecidableEq

structure Proposer where
  /-- The current round of the dag. -/
  round : ℕ
  /-- Holds the certificates waiting to be included in the next header. -/
  last_parents : List Certificate
  /-- Holds the certificate of the last leader (if any). -/
  last_leader : Option Certificate
  /-- Holds the batches' digests waiting to be included in the next header. -/
  digests : List (Digest × ℕ)
  /-- The size (in bytes) of batches' digests that we received so far. -/
  payload_size : ℕ
  /-- Holds the Timeout certificate for the latest round. -/
  last_timeout_cert : TimeoutCert
  /-- Holds the latest No Vote Certificate received. -/
  last_no_vote_cert : NoVoteCert
  /-- The variables of the main loop. -/
  advance : Bool
  timer_expired : Bool
  timeout_sent : Bool
  /-- Everything sent to the core so far. -/
  sent : List Core.Input
  /-- The headers made so far. -/
  made : List Made
deriving DecidableEq

namespace Proposer

section

variable [Crypto] (name : PublicKey) (committee : Committee) (header_size : ℕ)

def spawn : Proposer where
  round := 0
  last_parents := Certificate.genesis committee
  last_leader := none
  digests := []
  payload_size := 0
  last_timeout_cert := .new 0
  last_no_vote_cert := .new 0
  advance := true
  timer_expired := false
  timeout_sent := false
  sent := []
  made := []

def make_timeout_msg (s : Proposer) : Proposer :=
  { s with sent := s.sent ++ [.timeout (.new s.round name)] }

def make_no_vote_msg (s : Proposer) : Proposer :=
  { s with sent := s.sent ++ [.no_vote_msg (.new s.round name)] }

/-- The header that `make_header` sends. -/
def next_header (s : Proposer) : Header :=
  let timeout_cert :=
    if s.last_timeout_cert.round = wrapping_pred s.round then s.last_timeout_cert else .new 0
  let no_vote_cert :=
    if committee.leader s.round = name ∧ s.last_no_vote_cert.round = wrapping_pred s.round then
      s.last_no_vote_cert
    else .new 0
  .new name s.round (ExtTreeMap.ofList s.digests)
    (ExtTreeSet.ofList (s.last_parents.map Certificate.digest)) timeout_cert no_vote_cert

def make_header (s : Proposer) : Proposer :=
  let header := next_header name committee s
  { s with
    digests := []
    last_parents := []
    sent := s.sent ++ [.proposer header]
    made := s.made ++ [{ header, parents := s.last_parents }] }

/-- Update the last leader. -/
def update_leader (s : Proposer) : Proposer :=
  let last_leader := s.last_parents.find? (·.origin == committee.leader s.round)
  { s with last_leader, advance := last_leader.isSome }

/-! ## The main loop -/

/-- A timeout goes out once for each time that the timer expires. -/
def check_timer (s : Proposer) : Proposer :=
  if s.timer_expired && !s.timeout_sent then
    { make_timeout_msg name s with timeout_sent := true }
  else s

/-- We propose a new header when we have a quorum of parents and either the timer expired (we timed
out on the leader or gave up gather votes for the leader), or we have enough digests and we are on
the happy path. -/
def ready (s : Proposer) : Bool :=
  let enough_parents := !s.last_parents.isEmpty
  let timeout_cert_gathered := s.last_timeout_cert.round == s.round
  let is_next_leader := committee.leader (wrapping_succ s.round) == name
  let no_vote_cert_gathered := s.last_no_vote_cert.round == s.round
  let enough_digests := decide (s.payload_size ≥ header_size)
  ((s.timer_expired && timeout_cert_gathered && (!is_next_leader || no_vote_cert_gathered)) ||
    (enough_digests && s.advance)) && enough_parents

/-- The proposer gives up on the leader of its round. -/
def gives_up (s : Proposer) : Bool :=
  s.timer_expired && s.last_leader.isNone && !(committee.leader (wrapping_succ s.round) == name)

/-- Advance to the next round, with a new header. -/
def advance_round (s : Proposer) : Proposer :=
  let s := if gives_up name committee s then make_no_vote_msg name s else s
  let s := make_header name committee { s with round := wrapping_succ s.round }
  -- Reschedule the timer.
  { s with payload_size := 0, timer_expired := false, timeout_sent := false }

/-- The part of the main loop before it waits for messages. -/
def propose (s : Proposer) : Proposer :=
  let s := check_timer name s
  if ready name committee header_size s then advance_round name committee s else s

/-- What the main loop receives, by the channel that it comes on. -/
inductive Message
  | core (parents : List Certificate) (round : ℕ)
  | worker (digest : Digest) (worker_id : ℕ)
  | timeout_cert (timeout_cert : TimeoutCert) (round : ℕ)
  | no_vote_cert (no_vote_cert : NoVoteCert) (round : ℕ)
  | timer
deriving DecidableEq

def receive (s : Proposer) : Message → Proposer
  | .core parents round =>
    update_leader committee <|
      match compare round s.round with
      -- We accept round bigger than our current round to jump ahead.
      | .gt => { s with round, last_parents := parents }
      -- Ignore parents from older rounds.
      | .lt => s
      -- The core gives us the parents the first time they are enough to form a quorum.
      -- Then it keeps giving us all the extra parents.
      | .eq => { s with last_parents := s.last_parents ++ parents }
  | .worker digest worker_id =>
    { s with payload_size := s.payload_size + 32, digests := s.digests ++ [(digest, worker_id)] }
  | .timeout_cert timeout_cert round =>
    match compare round s.last_timeout_cert.round with
    | .gt | .eq => { s with last_timeout_cert := timeout_cert }
    | .lt => s
  | .no_vote_cert no_vote_cert round =>
    match compare round s.last_no_vote_cert.round with
    | .gt | .eq => { s with last_no_vote_cert := no_vote_cert }
    | .lt => s
  | .timer => { s with timer_expired := true }

/-- The timer elapses, or the main loop makes one turn and receives a message. -/
inductive Event
  | elapse
  | turn (message : Message)
deriving DecidableEq

def step (s : Proposer) : Event → Proposer
  | .elapse => { s with timer_expired := true }
  | .turn message => receive committee (propose name committee header_size s) message

/-- The run of a proposer from its start. -/
def run (events : List Event) : Proposer :=
  events.foldl (step name committee header_size) (spawn committee)

end

/-- The headers among what was sent, in order. -/
def headers (sent : List Core.Input) : List Header :=
  sent.filterMap fun
    | .proposer header => some header
    | _ => none

theorem headers_append (l l' : List Core.Input) : headers (l ++ l') = headers l ++ headers l' :=
  List.filterMap_append

/-- The timeouts among what was sent, in order. -/
def timeouts (sent : List Core.Input) : List Timeout :=
  sent.filterMap fun
    | .timeout timeout => some timeout
    | _ => none

theorem timeouts_append (l l' : List Core.Input) :
    timeouts (l ++ l') = timeouts l ++ timeouts l' :=
  List.filterMap_append

/-- The no-vote messages among what was sent, in order. -/
def no_vote_msgs (sent : List Core.Input) : List NoVoteMsg :=
  sent.filterMap fun
    | .no_vote_msg msg => some msg
    | _ => none

theorem no_vote_msgs_append (l l' : List Core.Input) :
    no_vote_msgs (l ++ l') = no_vote_msgs l ++ no_vote_msgs l' :=
  List.filterMap_append

section

variable [Crypto] {name : PublicKey} {committee : Committee} {header_size : ℕ} {s : Proposer}

/-! ## What one turn of the main loop makes -/

theorem ready_check_timer :
    ready name committee header_size (check_timer name s) = ready name committee header_size s := by
  unfold check_timer
  split <;> rfl

theorem gives_up_check_timer :
    gives_up name committee (check_timer name s) = gives_up name committee s := by
  unfold check_timer
  split <;> rfl

theorem propose_of_ready (h : ready name committee header_size s = true) :
    propose name committee header_size s = advance_round name committee (check_timer name s) := by
  unfold propose
  dsimp only
  rw [ready_check_timer, if_pos h]

theorem propose_of_not_ready (h : ready name committee header_size s = false) :
    propose name committee header_size s = check_timer name s := by
  unfold propose
  dsimp only
  rw [ready_check_timer, if_neg (Bool.eq_false_iff.mp h)]

theorem timeouts_check_timer : timeouts (check_timer name s).sent = timeouts s.sent ++
    if s.timer_expired && !s.timeout_sent then [.new s.round name] else [] := by
  unfold check_timer
  split
  · exact timeouts_append _ _
  · exact (List.append_nil _).symm

theorem no_vote_msgs_check_timer : no_vote_msgs (check_timer name s).sent = no_vote_msgs s.sent := by
  unfold check_timer
  split
  · exact (no_vote_msgs_append _ _).trans (List.append_nil _)
  · rfl

/-- A timeout is made when the timer expired, once. -/
theorem timeouts_propose : timeouts (propose name committee header_size s).sent = timeouts s.sent ++
    if s.timer_expired && !s.timeout_sent then [.new s.round name] else [] := by
  rw [← timeouts_check_timer]
  rcases h : ready name committee header_size s with _ | _
  · rw [propose_of_not_ready h]
  · rw [propose_of_ready h]
    unfold advance_round
    dsimp only [make_header]
    rw [timeouts_append]
    split
    · dsimp only [make_no_vote_msg]
      rw [timeouts_append]
      exact (List.append_nil _).trans (List.append_nil _)
    · exact List.append_nil _

/-- A no-vote message is made when the proposer advances and gives up on the leader. -/
theorem no_vote_msgs_propose : no_vote_msgs (propose name committee header_size s).sent =
    no_vote_msgs s.sent ++
      if ready name committee header_size s && gives_up name committee s then [.new s.round name]
      else [] := by
  rcases h : ready name committee header_size s with _ | _
  · rw [propose_of_not_ready h, no_vote_msgs_check_timer]
    exact (List.append_nil _).symm
  · have hround : (check_timer name s).round = s.round := by
      unfold check_timer
      split <;> rfl
    rw [propose_of_ready h]
    unfold advance_round
    rw [gives_up_check_timer, Bool.true_and]
    dsimp only [make_header]
    rw [no_vote_msgs_append]
    split
    · dsimp only [make_no_vote_msg]
      rw [no_vote_msgs_append, no_vote_msgs_check_timer, hround]
      exact List.append_nil _
    · rw [no_vote_msgs_check_timer]
      rfl

/-- A header is made when the proposer advances, with the parents that it has. -/
theorem made_propose : (propose name committee header_size s).made = s.made ++
    if ready name committee header_size s then
      [{ header := next_header name committee { s with round := wrapping_succ s.round },
         parents := s.last_parents }]
    else [] := by
  rcases h : ready name committee header_size s with _ | _
  · rw [propose_of_not_ready h]
    unfold check_timer
    split <;> exact (List.append_nil _).symm
  · rw [propose_of_ready h]
    unfold advance_round check_timer
    split <;> split <;> rfl

/-- The round advances with a header. -/
theorem round_propose : (propose name committee header_size s).round =
    if ready name committee header_size s then wrapping_succ s.round else s.round := by
  rcases h : ready name committee header_size s with _ | _
  · rw [propose_of_not_ready h]
    unfold check_timer
    split <;> rfl
  · rw [propose_of_ready h]
    unfold advance_round check_timer
    split <;> split <;> rfl

/-- A header takes the parents. -/
theorem last_parents_propose : (propose name committee header_size s).last_parents =
    if ready name committee header_size s then [] else s.last_parents := by
  rcases h : ready name committee header_size s with _ | _
  · rw [propose_of_not_ready h]
    unfold check_timer
    split <;> rfl
  · rw [propose_of_ready h]
    unfold advance_round check_timer
    split <;> split <;> rfl

omit [Crypto] in
/-- The proposer advances with parents only. -/
theorem parents_of_ready (h : ready name committee header_size s = true) : s.last_parents ≠ [] := by
  unfold ready at h
  simp only [Bool.and_eq_true, Bool.not_eq_true', List.isEmpty_eq_false_iff] at h
  exact h.2

theorem run_concat (events : List Event) (e : Event) :
    run name committee header_size (events ++ [e]) =
      step name committee header_size (run name committee header_size events) e := by
  unfold run
  rw [List.foldl_append]
  rfl

end

/-! ## Rounds that do not wrap -/

/-- The event brings no parents of the last round of a `u64`. -/
def Event.fits : Event → Bool
  | .turn (.core _ round) => round + 1 < 2 ^ 64
  | _ => true

/-- The rounds of the parents are below the last one of a `u64`. -/
def RoundsFit (events : List Event) : Prop := ∀ e ∈ events, e.fits = true

instance (events : List Event) : Decidable (RoundsFit events) :=
  inferInstanceAs (Decidable (∀ e ∈ events, _))

section

variable [Crypto] {name : PublicKey} {committee : Committee} {header_size : ℕ} {s : Proposer}
  {events : List Event}

omit [Crypto] in
theorem RoundsFit.of_append {rest : List Event} (h : RoundsFit (events ++ rest)) :
    RoundsFit events :=
  fun e he => h e (List.mem_append_left _ he)

omit [Crypto] in
/-- Parents at hand are of a round that fits, whatever comes. -/
theorem fits_receive (committee : Committee) {message : Message}
    (hs : s.last_parents ≠ [] → s.round + 1 < 2 ^ 64) (hfit : (Event.turn message).fits = true) :
    (receive committee s message).last_parents ≠ [] →
      (receive committee s message).round + 1 < 2 ^ 64 := by
  unfold receive
  cases message with
  | core parents round =>
    have hround : round + 1 < 2 ^ 64 := of_decide_eq_true hfit
    dsimp only [update_leader]
    split
    · exact fun _ => hround
    · exact hs
    · rename_i heq
      rw [Nat.compare_eq_eq] at heq
      exact fun _ => heq ▸ hround
  | timeout_cert | no_vote_cert =>
    dsimp only
    split <;> exact hs
  | worker | timer => exact hs

/-- A proposer that has parents is below the last round. -/
theorem fits_run (hfit : RoundsFit events) :
    (run name committee header_size events).last_parents ≠ [] →
      (run name committee header_size events).round + 1 < 2 ^ 64 := by
  induction events using List.reverseRecOn with
  | nil => exact fun _ => (by decide : 0 + 1 < 2 ^ 64)
  | append_singleton events e ih =>
    have hold := ih hfit.of_append
    rw [run_concat]
    cases e with
    | elapse => exact hold
    | turn message =>
      apply fits_receive committee _ (hfit _ (List.mem_append_right _ List.mem_cons_self))
      rw [last_parents_propose, round_propose]
      split
      · exact fun hne => absurd rfl hne
      · exact hold

/-- So the round never wraps. -/
theorem RoundsFit.fits_of_ready (hfit : RoundsFit events)
    (hready : ready name committee header_size (run name committee header_size events) = true) :
    (run name committee header_size events).round + 1 < 2 ^ 64 :=
  fits_run hfit (parents_of_ready hready)

end

end Proposer

end sailfish.primary
