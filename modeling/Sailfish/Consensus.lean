-- The `consensus` crate: the dag in memory, the leaders, the order of the
-- sub-dags and the two branches of `Consensus::run`. Logs are left out.
import Mathlib
import Sailfish.Messages
import Sailfish.Lib.Traversal

open Std sailfish.crypto sailfish.config sailfish.primary

namespace sailfish.consensus

/-- The certificates of one round, by their authors. -/
abbrev Layer := ExtTreeMap PublicKey (Digest × Certificate)

/-- The representation of the DAG in memory. -/
abbrev Dag := ExtTreeMap ℕ Layer

/-- `layer.values()`. -/
def Layer.values (layer : Layer) : List (Digest × Certificate) := layer.toList.map (·.2)

/-- The state that needs to be persisted for crash-recovery. -/
structure State where
  /-- The last committed round. -/
  last_committed_round : ℕ
  /-- Keeps the last committed round for each authority. This map is used to clean up the dag
  and ensure we don't commit twice the same certificate. -/
  last_committed : ExtTreeMap PublicKey ℕ
  /-- Keeps the latest committed certificate (and its parents) for every authority. -/
  dag : Dag
deriving DecidableEq

/-- The closure of `dag.retain` in `update`, for one entry of `last_committed`. -/
def Dag.retain (dag : Dag) (name : PublicKey) (round gc_depth last_committed_round : ℕ) : Dag :=
  dag.filterMap fun r (authorities : Layer) =>
    let authorities := authorities.filter fun n _ => n != name || r ≥ round
    if !authorities.isEmpty && wrapping_add r gc_depth ≥ last_committed_round then some authorities
    else none

/-- `last_committed.values().max()`. The map is never empty when `update` reads it. -/
def max_round (last_committed : ExtTreeMap PublicKey ℕ) : ℕ :=
  (last_committed.toList.map (·.2)).foldl max 0

namespace State

/-- Update and clean up internal state base on committed certificates. -/
def update (s : State) (certificate : Certificate) (gc_depth : ℕ) : State :=
  let last_committed := s.last_committed.alter certificate.origin fun
    | some r => some (max r certificate.round)
    | none => some certificate.round
  let last_committed_round := max_round last_committed
  { last_committed_round, last_committed,
    dag := last_committed.toList.foldl
      (fun dag (name, round) => dag.retain name round gc_depth last_committed_round) s.dag }

end State

section

variable [Crypto]

def State.new (genesis : List Certificate) : State :=
  let genesis : Layer := ExtTreeMap.ofList (genesis.map fun x => (x.origin, x.digest, x))
  { last_committed_round := 0
    last_committed := genesis.map fun _ (_, y) => y.round
    dag := (∅ : Dag).insert 0 genesis }

/-- Adds a certificate to the local storage. -/
def State.insert (s : State) (certificate : Certificate) : State :=
  let authorities : Layer := (s.dag[certificate.round]?).getD ∅
  let authorities := authorities.insert certificate.origin (certificate.digest, certificate)
  { s with dag := s.dag.insert certificate.round authorities }

/-- Returns the certificate (and the certificate's digest) originated by the leader of the
specified round (if any). -/
def leader (committee : Committee) (round : ℕ) (dag : Dag) : Option (Digest × Certificate) :=
  (dag[round]?).bind fun (x : Layer) => x[committee.leader round]?

/-- The certificates of a layer that are parents. -/
def Layer.parents_of (layer : Layer) (parents : List Certificate) : List Certificate :=
  (layer.values.filter fun (digest, _) => parents.any fun x => digest ∈ x.header.parents).map (·.2)

/-- One turn of the loop of `linked`. A missing round is a panic: "We should have the whole
history by now". -/
def Dag.parents_at (dag : Dag) (parents : List Certificate) (r : ℕ) : Option (List Certificate) := do
  let layer : Layer ← dag[r]?
  return layer.parents_of parents

/-- Checks if there is a path between two leaders. -/
def linked (leader prev_leader : Certificate) (dag : Dag) : Option Bool := do
  let rounds := (List.range' prev_leader.round (leader.round - prev_leader.round)).reverse
  let parents ← rounds.foldlM dag.parents_at [leader]
  return parents.any prev_leader.eq

/-- The loop of `order_leaders`: the certificates it pushes after `leader`. -/
def order_leaders_loop (committee : Committee) (dag : Dag) :
    Certificate → List ℕ → Option (List Certificate)
  | _, [] => some []
  | leader, r :: rounds =>
    -- Get the certificate proposed by the previous leader.
    match consensus.leader committee r dag with
    | none => order_leaders_loop committee dag leader rounds
    | some (_, prev_leader) => do
      -- Check whether there is a path between the last two leaders.
      if ← linked leader prev_leader dag then
        return prev_leader :: (← order_leaders_loop committee dag prev_leader rounds)
      else order_leaders_loop committee dag leader rounds

/-- Order the past leaders that we didn't already commit. -/
def order_leaders (committee : Committee) (leader : Certificate) (s : State) :
    Option (List Certificate) := do
  -- This is called with leaders above the last committed round, so its successor does not wrap.
  let rounds := (List.range' (s.last_committed_round + 1)
    (wrapping_pred leader.round - s.last_committed_round)).reverse
  return leader :: (← order_leaders_loop committee s.dag leader rounds)

/-- The lookup of one parent of a certificate in `order_dag`. It skips a parent that is not in
the dag ("We already ordered or GC up to here.") and one of a round that is already committed
for its author. -/
def State.lookup (s : State) (round : ℕ) (parent : Digest) : Option (Digest × Certificate) := do
  let layer : Layer ← s.dag[wrapping_pred round]?
  let (digest, certificate) ← layer.values.find? fun (digest, _) => digest == parent
  if s.last_committed[certificate.origin]? = some certificate.round then none
  else some (digest, certificate)

/-- The parents of a certificate that `order_dag` goes on to. -/
def State.next (s : State) (x : Digest × Certificate) : List (Digest × Certificate) :=
  x.2.header.parents.toList.filterMap (s.lookup x.2.round)

/-- The entries of the dag. -/
def Dag.entries (dag : Dag) : List (Digest × Certificate) :=
  dag.toList.flatMap fun (_, layer) => Layer.values layer

/-- The certificates that the depth-first search of `order_dag` pops. It ends before its bound:
`walk_popped`. -/
def State.popped (s : State) (leader : Certificate) : List (Digest × Certificate) :=
  traversal.walk s.next Prod.fst (s.dag.entries.length + 1) [(leader.digest, leader)] []

/-- Flatten the dag referenced by the input certificate. This is a classic depth-first search
(pre-order). -/
def order_dag (leader : Certificate) (gc_depth : ℕ) (s : State) : List Certificate :=
  let ordered := s.popped leader
  -- Ensure we do not commit garbage collected certificates.
  let ordered := (ordered.map (·.2)).filter fun x =>
    wrapping_add x.round gc_depth ≥ s.last_committed_round
  -- Ordering the output by round is not really necessary but it makes the commit sequence prettier.
  ordered.insertionSort fun a b => a.round ≤ b.round

/-- A leader that the consensus committed. -/
structure Commit where
  leader : Certificate
  /-- The state just before the sub-dag of the leader is sequenced. -/
  before : State
  /-- The certificates that the leader adds to the sequence. -/
  block : List Certificate
deriving DecidableEq

/-- The last committed round just before the sub-dag of the leader is sequenced. -/
def Commit.floor (k : Commit) : ℕ := k.before.last_committed_round

/-- The loop over the leaders to commit, from the oldest one. -/
def sequence (gc_depth : ℕ) : List Certificate → State → State × List Commit
  | [], s => (s, [])
  | leader :: leaders, s =>
    -- Flatten the sub-dag referenced by the leader.
    let block := order_dag leader gc_depth s
    -- Update and clean up internal state.
    let (s', commits) := sequence gc_depth leaders (block.foldl (·.update · gc_depth) s)
    (s', { leader, before := s, block } :: commits)

/-- The commit of a leader, with the past leaders that are linked to it. -/
def commit (committee : Committee) (gc_depth : ℕ) (leader : Certificate) (s : State) :
    Option (State × List Commit) := do
  let leaders ← order_leaders committee leader s
  return sequence gc_depth leaders.reverse s

/-- What `Consensus::run` changes, with a record of what it committed. -/
structure Consensus where
  state : State
  /-- The stake vote received by the leader of a round. -/
  stake_vote : ExtTreeMap ℕ ℕ
  /-- The leaders committed so far. Their blocks are what went to `tx_primary` and `tx_output`. -/
  commits : List Commit
deriving DecidableEq

/-- The sequence of certificates sent to `tx_primary` and `tx_output`. -/
def Consensus.output (c : Consensus) : List Certificate := c.commits.flatMap (·.block)

/-- The leaders committed so far, oldest first. -/
def Consensus.leaders (c : Consensus) : List Certificate := c.commits.map (·.leader)

inductive Event
  | header (header : Header)
  | certificate (certificate : Certificate)
deriving DecidableEq

namespace Consensus

variable (committee : Committee) (gc_depth : ℕ)

def spawn : Consensus where
  state := .new (Certificate.genesis committee)
  stake_vote := ∅
  commits := []

/-- The end of the two branches: commits a leader that has enough support. -/
def commit_leader (leader : Certificate) (c : Consensus) : Option Consensus := do
  let (state, commits) ← commit committee gc_depth leader c.state
  return { c with state, commits := c.commits ++ commits }

/-- Adds the stake of the author of a header that lists the leader to the votes of its round. -/
def count_vote (header : Header) (leader_digest : Digest) (c : Consensus) : Consensus :=
  if leader_digest ∈ header.parents then
    let stake_vote := c.stake_vote.alter header.round fun stake =>
      some (u32 (stake.getD 0 + committee.stake header.author))
    { c with stake_vote }
  else c

/-- The branch of `run` for an incoming header. -/
def on_header (header : Header) (c : Consensus) : Option Consensus :=
  -- Try to order the dag to commit. Start from the previous round.
  let leader_round := wrapping_pred header.round
  -- If we already ordered this leader, there is nothing to do.
  if leader_round ≤ c.state.last_committed_round then some c
  else
    match leader committee leader_round c.state.dag with
    | none => some c
    | some (leader_digest, leader) =>
      let c := c.count_vote committee header leader_digest
      let current_stake := (c.stake_vote[header.round]?).getD 0
      -- Commit if we have QT
      if current_stake ≥ committee.quorum_threshold then commit_leader committee gc_depth leader c
      else some c

/-- The stake of the certificates of a round that list the leader of the round before it. -/
def support (layer : Layer) (leader_digest : Digest) : ℕ :=
  u32 ((layer.values.filter fun (_, x) => leader_digest ∈ x.header.parents).map
    fun (_, x) => committee.stake x.origin).sum

/-- The branch of `run` for an incoming certificate. -/
def on_certificate (certificate : Certificate) (c : Consensus) : Option Consensus :=
  let round := certificate.round
  -- Add the new certificate to the local storage.
  let c := { c with state := c.state.insert certificate }
  -- Try to order the dag to commit. Start from the previous round.
  let leader_round := wrapping_pred round
  -- If we already ordered this leader, there is nothing to do.
  if leader_round ≤ c.state.last_committed_round then some c
  else
    match leader committee leader_round c.state.dag with
    | none => some c
    | some (leader_digest, leader) => do
      -- Check if the leader has f+1 support from its children.
      let layer : Layer ← c.state.dag[round]?
      if support committee layer leader_digest < committee.validity_threshold then some c
      else commit_leader committee gc_depth leader c

def step (c : Consensus) : Event → Option Consensus
  | .header header => on_header committee gc_depth header c
  | .certificate certificate => on_certificate committee gc_depth certificate c

/-- The run on a sequence of deliveries. `none` is a panic. -/
def run (events : List Event) : Option Consensus :=
  events.foldlM (step committee gc_depth) (spawn committee)

end Consensus

end

end sailfish.consensus
