-- The core of a primary (`primary/src/core.rs`): it checks and stores headers, votes
-- for them, makes certificates of votes, and passes both on to the consensus.
-- The serialization of the messages is left out, and a store failure too.
import Mathlib
import Sailfish.Aggregators
import Sailfish.Synchronizer

open Std sailfish.crypto sailfish.config

namespace sailfish.primary

inductive PrimaryMessage
  | header (header : Header)
  | timeout (timeout : Timeout)
  | no_vote_msg (no_vote_msg : NoVoteMsg)
  | vote (vote : Vote)
  | certificate (certificate : Certificate)
  | certificates_request (digests : List Digest) (requestor : PublicKey)
deriving DecidableEq

/-- The commands that can be sent to the `Waiter`. -/
inductive WaiterMessage
  | sync_batches (missing : List (Digest × ℕ)) (header : Header)
  | sync_parents (missing : List Digest) (header : Header)
deriving DecidableEq

/-- The header that waits. -/
def WaiterMessage.header : WaiterMessage → Header
  | .sync_batches _ header => header
  | .sync_parents _ header => header

/-- Everything that the header waits for is in the store, so that the `HeaderWaiter` delivers it
back to the core. -/
def WaiterMessage.ready (store : Store) : WaiterMessage → Bool
  | .sync_batches missing _ => missing.all store.batches.contains
  | .sync_parents missing _ => missing.all store.records.contains

/-- What the core puts on its channels and on the network. -/
inductive Output
  | consensus_header (header : Header)
  | consensus (certificate : Certificate)
  | proposer (parents : List Certificate) (round : ℕ)
  | timeout_cert (timeout_cert : TimeoutCert) (round : ℕ)
  | no_vote_cert (no_vote_cert : NoVoteCert) (round : ℕ)
  | header_waiter (message : WaiterMessage)
  | certificate_waiter (certificate : Certificate)
  | network (addresses : List PublicKey) (message : PrimaryMessage)
deriving DecidableEq

/-- A vote that the core created, with the header it is for and the parents found for it. -/
structure Voted where
  vote : Vote
  header : Header
  parents : List Certificate
deriving DecidableEq

/-- What `Core::spawn` is given and the core never changes. -/
structure Node where
  name : PublicKey
  committee : Committee
  gc_depth : ℕ

structure Core where
  store : Store
  /-- The current consensus round (used for cleanup). -/
  consensus_round : ℕ
  /-- The last garbage collected round. -/
  gc_round : ℕ
  /-- The authors of the last voted headers. -/
  last_voted : ExtTreeMap ℕ (ExtTreeSet PublicKey)
  /-- The set of headers we are currently processing. -/
  processing : ExtTreeMap ℕ (ExtTreeSet Digest)
  /-- The last header we proposed (for which we are waiting votes). -/
  current_header : Header
  votes_aggregator : VotesAggregator
  certificates_aggregators : ExtTreeMap ℕ CertificatesAggregator
  /-- The addressees of the messages we sent. -/
  cancel_handlers : ExtTreeMap ℕ (List PublicKey)
  timeouts_aggregators : ExtTreeMap ℕ TimeoutAggregator
  no_vote_aggregators : ExtTreeMap ℕ NoVoteAggregator
  /-- Everything sent so far. -/
  sent : List Output
  /-- The votes created so far. -/
  voted : List Voted
deriving DecidableEq

namespace Core

/-- How a computation of the core stops: with an error that `run` logs, or with a panic. -/
inductive Halt
  | error (e : DagError)
  | panic
deriving DecidableEq

/-- A computation of the core. What it changed before an error stays. -/
abbrev CoreM := EStateM Halt Core

/-- The `?` operator. -/
def propagate {α : Type} : DagResult α → CoreM α
  | .ok a => pure a
  | .error e => throw (.error e)

/-- `expect`: an error is a panic. -/
def expect {α : Type} (x : CoreM α) : CoreM α := fun s =>
  match x s with
  | .ok a s => .ok a s
  | .error _ s => .error .panic s

def send (output : Output) : CoreM Unit := modify fun s => { s with sent := s.sent ++ [output] }

/-- Sends the output of an aggregator, if any. -/
def send_some : Option Output → CoreM Unit
  | some output => send output
  | none => pure ()

/-- The set of a round, in a map of sets by rounds. -/
def at_round {α : Type} [Ord α] [TransOrd α] (m : ExtTreeMap ℕ (ExtTreeSet α)) (round : ℕ) :
    ExtTreeSet α := (m[round]?).getD ∅

/-- `m.entry(round).or_insert_with(HashSet::new).insert(x)`. -/
def insert_at {α : Type} [Ord α] [TransOrd α] (m : ExtTreeMap ℕ (ExtTreeSet α)) (round : ℕ)
    (x : α) : ExtTreeMap ℕ (ExtTreeSet α) := m.insert round ((at_round m round).insert x)

/-! ## The check of the parents -/

/-- The loop over the parents: their stake, and whether one is of the leader. -/
def check_parents_loop (committee : Committee) (header : Header) :
    List Certificate → ℕ → Bool → DagResult (ℕ × Bool)
  | [], stake, has_leader => .ok (stake, has_leader)
  | x :: parents, stake, has_leader => do
    ensure (wrapping_succ x.round == header.round) (.MalformedHeader header.id)
    check_parents_loop committee header parents (u32 (stake + committee.stake x.origin))
      (has_leader || committee.leader (wrapping_pred header.round) == x.header.author)

/-- Check the parent certificates. Ensure the parents form a quorum and are all from the
previous round. -/
def check_parents (committee : Committee) (header : Header) (parents : List Certificate) :
    DagResult Unit := do
  let (stake, has_leader) ← check_parents_loop committee header parents 0 false
  ensure (stake ≥ committee.quorum_threshold) (.HeaderRequiresQuorum header.id)
  if has_leader then return ()
  else
    header.timeout_cert.verify committee
    if committee.leader header.round == header.author then header.no_vote_cert.verify committee

/-- The loop goes over parents of the previous round only, and looks for the leader in them. -/
theorem check_parents_loop_ok {committee : Committee} {header : Header} {parents : List Certificate}
    {stake total : ℕ} {has_leader found : Bool}
    (h : check_parents_loop committee header parents stake has_leader = .ok (total, found)) :
    (∀ x ∈ parents, wrapping_succ x.round = header.round) ∧
      total ≤ stake + (parents.map fun x => committee.stake x.origin).sum ∧
      found = (has_leader || parents.any fun x =>
        committee.leader (wrapping_pred header.round) == x.origin) := by
  induction parents generalizing stake has_leader with
  | nil =>
    simp only [check_parents_loop, Except.ok.injEq, Prod.mk.injEq] at h
    simp [h]
  | cons x parents ih =>
    unfold check_parents_loop at h
    by_cases hr : wrapping_succ x.round = header.round
    · simp only [hr, beq_self_eq_true, ensure, if_true, bind, Except.bind] at h
      obtain ⟨hrounds, hle, hfound⟩ := ih h
      have hwrap := u32_le (stake + committee.stake x.origin)
      refine ⟨List.forall_mem_cons.mpr ⟨hr, hrounds⟩, ?_, ?_⟩
      · rw [List.map_cons, List.sum_cons]
        omega
      · rw [hfound, List.any_cons, Bool.or_assoc]
        rfl
    · simp [hr, ensure, bind, Except.bind] at h

/-- Parents that pass are of the previous round. Without one of the leader, the header has the
certificates that let it skip the leader. -/
theorem check_parents_ok {committee : Committee} {header : Header} {parents : List Certificate}
    (h : check_parents committee header parents = .ok ()) :
    (∀ x ∈ parents, wrapping_succ x.round = header.round) ∧
      committee.quorum_threshold ≤ (parents.map fun x => committee.stake x.origin).sum ∧
      ((∀ x ∈ parents, x.origin ≠ committee.leader (wrapping_pred header.round)) →
        header.timeout_cert.verify committee = .ok () ∧
          (header.author = committee.leader header.round →
            header.no_vote_cert.verify committee = .ok ())) := by
  unfold check_parents at h
  rcases hloop : check_parents_loop committee header parents 0 false with e | ⟨total, found⟩
  · simp [hloop, bind, Except.bind] at h
  · obtain ⟨hrounds, hle, hfound⟩ := check_parents_loop_ok hloop
    by_cases hquorum : total ≥ committee.quorum_threshold
    · refine ⟨hrounds, by omega, ?_⟩
      intro hskip
      have hnone : found = false := by
        rw [hfound, Bool.false_or, List.any_eq_false]
        intro x hx
        rw [beq_iff_eq]
        exact fun heq => hskip x hx heq.symm
      rcases htimeout : header.timeout_cert.verify committee with e | u
      · simp [hloop, hquorum, hnone, htimeout, ensure, bind, Except.bind] at h
      · refine ⟨rfl, fun hleader => ?_⟩
        simpa [hloop, hquorum, hnone, htimeout, hleader, ensure, bind, Except.bind] using h
    · simp [hloop, hquorum, ensure, bind, Except.bind] at h

section

variable [Crypto] (node : Node)

def spawn (store : Store) : Core where
  store
  consensus_round := 0
  gc_round := 0
  last_voted := ∅
  processing := ∅
  current_header := .default
  votes_aggregator := .new
  certificates_aggregators := ∅
  cancel_handlers := ∅
  timeouts_aggregators := ∅
  no_vote_aggregators := ∅
  sent := []
  voted := []

/-- Sends a message to some primaries, and keeps their handlers. -/
def send_to (addresses : List PublicKey) (round : ℕ) (message : PrimaryMessage) : CoreM Unit := do
  send (.network addresses message)
  modify fun s => { s with cancel_handlers :=
    s.cancel_handlers.insert round ((s.cancel_handlers[round]?).getD [] ++ addresses) }

def broadcast (round : ℕ) (message : PrimaryMessage) : CoreM Unit :=
  send_to (node.committee.others_primaries node.name) round message

/-- The address of a primary. The source expects it to be in the committee. -/
def address (name : PublicKey) : CoreM PublicKey :=
  match node.committee.primary name with
  | .ok address => pure address
  | .error _ => throw .panic

/-! ## The processing of headers, votes and certificates -/

/-- Returns the parents of a header if we have them all. If at least one parent is missing, we
return an empty vector. -/
def get_parents (header : Header) : CoreM (List Certificate) := do
  let s ← get
  let (missing, parents) ← propagate
    (find_parents (genesis_digests node.committee) s.store header.parents.toList)
  if missing.isEmpty then return parents
  else
    send (.header_waiter (.sync_parents missing header))
    return []

/-- Returns `true` if a part of the payload is missing. -/
def missing_payload (header : Header) : CoreM Bool := do
  let s ← get
  let missing := missing_batches node.name s.store header
  if missing.isEmpty then return false
  else
    send (.header_waiter (.sync_batches missing header))
    return true

/-- Check whether we have all the ancestors of the certificate. -/
def deliver_certificate (certificate : Certificate) : CoreM Bool := do
  let s ← get
  if has_ancestors (genesis_digests node.committee) s.store certificate then return true
  else
    send (.certificate_waiter certificate)
    return false

/-- Process the header embedded in the certificate if we haven't already voted for it. -/
def process_embedded (process_header : Header → CoreM Unit) (header : Header) : CoreM Unit := do
  let s ← get
  if header.id ∉ at_round s.processing header.round then process_header header

/-- The end of the processing of a certificate, once all its ancestors are there. -/
def store_certificate (certificate : Certificate) : CoreM Unit := do
  -- Store the certificate.
  modify fun s => { s with store := s.store.write certificate.digest (.certificate certificate) }
  -- Check if we have enough certificates to enter a new dag round and propose a header.
  let s ← get
  let (parents, aggregator) := ((s.certificates_aggregators[certificate.round]?).getD .new).append
    certificate node.committee
  modify fun s => { s with certificates_aggregators :=
    s.certificates_aggregators.insert certificate.round aggregator }
  send_some (parents.map (.proposer · certificate.round))
  -- Send it to the consensus layer.
  send (.consensus certificate)

def process_certificate (process_header : Header → CoreM Unit) (certificate : Certificate) :
    CoreM Unit := do
  process_embedded process_header certificate.header
  -- Ensure we have all the ancestors of this certificate yet.
  if ← deliver_certificate node certificate then store_certificate node certificate

def process_vote (process_header : Header → CoreM Unit) (vote : Vote) : CoreM Unit := do
  let s ← get
  -- Add it to the votes' aggregator and try to make a new certificate.
  let (certificate, aggregator) ← propagate
    (s.votes_aggregator.append vote node.committee s.current_header)
  modify fun s => { s with votes_aggregator := aggregator }
  match certificate with
  | none => pure ()
  | some certificate =>
    -- Broadcast the certificate.
    broadcast node certificate.round (.certificate certificate)
    -- Process the new certificate.
    expect (process_certificate node process_header certificate)

end

end Core

/-- `Vote::new`. -/
def Vote.new [Crypto] (header : Header) (author : PublicKey) : Vote :=
  let vote : Vote :=
    { id := header.id, round := header.round, origin := header.author, author,
      signature := .default }
  { vote with signature := Crypto.sign author vote.digest }

/-- `NoVoteMsg::new`. -/
def NoVoteMsg.new [Crypto] (round : ℕ) (author : PublicKey) : NoVoteMsg :=
  let msg : NoVoteMsg := { round, author, signature := .default }
  { msg with signature := Crypto.sign author msg.digest }

namespace Core

section

variable [Crypto] (node : Node)

/-- The state once a vote for the header is created. -/
def vote (s : Core) (header : Header) (parents : List Certificate) : Core :=
  { s with
    last_voted := insert_at s.last_voted header.round header.author
    voted := s.voted ++ [{ vote := .new header node.name, header, parents }] }

/-- Send a vote to the header's creator. -/
def send_vote (process_header : Header → CoreM Unit) (header : Header) (vote : Vote) :
    CoreM Unit := do
  if vote.origin == node.name then expect (process_vote node process_header vote)
  else
    let address ← address node header.author
    send_to [address] header.round (.vote vote)

/-- Check if we can vote for this header. -/
def vote_for (process_header : Header → CoreM Unit) (header : Header)
    (parents : List Certificate) : CoreM Unit := do
  let s ← get
  if header.author ∉ at_round s.last_voted header.round then
    -- Make a vote and send it to the header's creator.
    modify fun s => s.vote node header parents
    send_vote node process_header header (.new header node.name)

/-- `process_header`, with its recursive calls as a parameter. -/
def process_header_with (process_header : Header → CoreM Unit) (header : Header) :
    CoreM Unit := do
  -- Send header to consensus
  send (.consensus_header header)
  -- Indicate that we are processing this header.
  modify fun s => { s with processing := insert_at s.processing header.round header.id }
  -- Ensure we have the parents.
  let parents ← get_parents node header
  if parents.isEmpty then return ()
  else
    propagate (check_parents node.committee header parents)
    -- Ensure we have the payload.
    if ← missing_payload node header then return ()
    else
      -- Store the header.
      modify fun s => { s with store := s.store.write header.id (.header header) }
      vote_for node process_header header parents

/-- The processing of a header, and of `n - 1` more that it may lead to. -/
def process_header_within : ℕ → Header → CoreM Unit
  | 0, _ => throw .panic
  | n + 1, header => process_header_with node (process_header_within n) header

/-- A header may lead to a certificate for the current header, and that one to the processing of
the current header, but not further: `process_header_within_eq`. -/
def process_header (header : Header) : CoreM Unit := process_header_within node 2 header

def process_timeout (timeout : Timeout) : CoreM Unit := do
  let s ← get
  -- Check if we have enough timeout messages to create a timeout cert to propose next header.
  let (timeout_cert, aggregator) ← propagate (TimeoutAggregator.append
    ((s.timeouts_aggregators[timeout.round]?).getD .new) timeout node.committee)
  modify fun s => { s with timeouts_aggregators :=
    s.timeouts_aggregators.insert timeout.round aggregator }
  send_some (timeout_cert.map (.timeout_cert · timeout.round))

/-- The aggregator of a round, with our own message in a new one. -/
def no_vote_aggregator (round : ℕ) : CoreM NoVoteAggregator := do
  let s ← get
  match s.no_vote_aggregators[round]? with
  | some aggregator => return aggregator
  | none =>
    let (_, aggregator) ← propagate
      (NoVoteAggregator.append .new (.new round node.name) node.committee)
    modify fun s => { s with no_vote_aggregators := s.no_vote_aggregators.insert round aggregator }
    return aggregator

def process_no_vote_msg (no_vote_msg : NoVoteMsg) : CoreM Unit := do
  let aggregator ← no_vote_aggregator node no_vote_msg.round
  -- Check if we have no vote messages to create a no vote cert to propose next header.
  let (no_vote_cert, aggregator) ← propagate
    (NoVoteAggregator.append aggregator no_vote_msg node.committee)
  modify fun s => { s with no_vote_aggregators :=
    s.no_vote_aggregators.insert no_vote_msg.round aggregator }
  send_some (no_vote_cert.map (.no_vote_cert · no_vote_msg.round))

/-! ## The messages of the proposer -/

def process_own_timeout (timeout : Timeout) : CoreM Unit := do
  broadcast node timeout.round (.timeout timeout)
  process_timeout node timeout

def process_own_no_vote_msg (no_vote_msg : NoVoteMsg) : CoreM Unit := do
  -- Send No Vote Msg to the leader of the round
  let address ← address node (node.committee.leader (wrapping_succ no_vote_msg.round))
  send_to [address] no_vote_msg.round (.no_vote_msg no_vote_msg)

def process_own_header (header : Header) : CoreM Unit := do
  -- Reset the votes aggregator.
  modify fun s => { s with current_header := header, votes_aggregator := .new }
  -- Broadcast the new header in a reliable manner.
  broadcast node header.round (.header header)
  process_header node header

/-! ## The checks of the messages of other primaries -/

/-- The message is not of a round that the garbage collector is past. -/
def check_round (gc_round : ℕ) (digest : Digest) (round : ℕ) : DagResult Unit :=
  ensure (gc_round ≤ round) (.TooOld digest round)

def sanitize_header (s : Core) (header : Header) : DagResult Unit := do
  check_round s.gc_round header.id header.round
  header.verify node.committee

def sanitize_timeout (s : Core) (timeout : Timeout) : DagResult Unit := do
  check_round s.gc_round timeout.digest timeout.round
  timeout.verify node.committee

def sanitize_no_vote_msg (s : Core) (no_vote_msg : NoVoteMsg) : DagResult Unit := do
  check_round s.gc_round no_vote_msg.digest no_vote_msg.round
  no_vote_msg.verify node.committee

def sanitize_vote (s : Core) (vote : Vote) : DagResult Unit := do
  check_round s.current_header.round vote.digest vote.round
  -- Ensure we receive a vote on the expected header.
  ensure (vote.id == s.current_header.id && vote.origin == s.current_header.author &&
    vote.round == s.current_header.round) (.UnexpectedVote vote.id)
  vote.verify node.committee

def sanitize_certificate (s : Core) (certificate : Certificate) : DagResult Unit := do
  check_round s.gc_round certificate.digest certificate.round
  certificate.verify node.committee

/-! ## The main loop -/

/-- What the main loop receives, by the channel that it comes on. -/
inductive Input
  | primaries (message : PrimaryMessage)
  | header_waiter (header : Header)
  | certificate_waiter (certificate : Certificate)
  | proposer (header : Header)
  | timeout (timeout : Timeout)
  | no_vote_msg (no_vote_msg : NoVoteMsg)
deriving DecidableEq

def handle_message (message : PrimaryMessage) : CoreM Unit := do
  let s ← get
  match message with
  | .header header => do
    propagate (s.sanitize_header node header)
    process_header node header
  | .timeout timeout => do
    propagate (s.sanitize_timeout node timeout)
    process_timeout node timeout
  | .no_vote_msg no_vote_msg => do
    propagate (s.sanitize_no_vote_msg node no_vote_msg)
    process_no_vote_msg node no_vote_msg
  | .vote vote => do
    propagate (s.sanitize_vote node vote)
    process_vote node (process_header node) vote
  | .certificate certificate => do
    propagate (s.sanitize_certificate node certificate)
    process_certificate node (process_header node) certificate
  | .certificates_request _ _ => throw .panic

def handle : Input → CoreM Unit
  | .primaries message => handle_message node message
  | .header_waiter header => process_header node header
  | .certificate_waiter certificate => process_certificate node (process_header node) certificate
  | .proposer header => process_own_header node header
  | .timeout timeout => process_own_timeout node timeout
  | .no_vote_msg no_vote_msg => process_own_no_vote_msg node no_vote_msg

/-- Cleanup internal state. -/
def cleanup (s : Core) : Core :=
  let round := s.consensus_round
  if round > node.gc_depth then
    let gc_round := round - node.gc_depth
    { s with
      last_voted := s.last_voted.filter fun k _ => k ≥ gc_round
      processing := s.processing.filter fun k _ => k ≥ gc_round
      certificates_aggregators := s.certificates_aggregators.filter fun k _ => k ≥ gc_round
      cancel_handlers := s.cancel_handlers.filter fun k _ => k ≥ gc_round
      gc_round }
  else s

/-- What happens to the core: an input, a marker that the `PayloadReceiver` writes into the store,
or a committed certificate of a round that the `GarbageCollector` sees. -/
inductive Event
  | input (input : Input)
  | payload (digest : Digest) (worker_id : ℕ)
  | committed (round : ℕ)
deriving DecidableEq

/-- The `HeaderWaiter` may deliver the header back to the core. -/
def looped_back (s : Core) (header : Header) : Bool :=
  s.sent.any fun
    | .header_waiter message => message.header == header && message.ready s.store
    | _ => false

/-- One event. `none` is a panic. -/
def step (s : Core) : Event → Option Core
  | .input input =>
    match handle node input s with
    | .ok _ s => some (s.cleanup node)
    | .error (.error _) s => some (s.cleanup node)
    | .error .panic _ => none
  | .payload digest worker_id =>
    some { s with store := { s.store with batches := (digest, worker_id) :: s.store.batches } }
  | .committed round =>
    some (if round > s.consensus_round then { s with consensus_round := round } else s)

/-- The run of a core from its start, with what is in the store then. -/
def run (store : Store) (events : List Event) : Option Core :=
  events.foldlM (step node) (spawn store)

end

end Core

end sailfish.primary
