-- The aggregators of the primary (`primary/src/aggregators.rs`): votes into a
-- certificate, certificates into the parents of a round, timeouts and no-vote
-- messages into the certificates that let a header skip a leader.
import Mathlib
import Sailfish.Messages

open Std sailfish.crypto sailfish.config

namespace sailfish.primary

/-- What the aggregators of votes, timeouts and no-vote messages keep. -/
structure Aggregator where
  weight : ℕ
  signatures : List (PublicKey × Signature)
  used : ExtTreeSet PublicKey
deriving DecidableEq

def Aggregator.new : Aggregator := { weight := 0, signatures := [], used := ∅ }

/-- The part that the three share. -/
def Aggregator.add (a : Aggregator) (committee : Committee) (author : PublicKey)
    (signature : Signature) : DagResult Aggregator := do
  -- Ensure it is the first time this authority votes.
  ensure (author ∉ a.used) (.AuthorityReuse author)
  return {
    weight := u32 (a.weight + committee.stake author)
    signatures := a.signatures ++ [(author, signature)]
    used := a.used.insert author }

/-- Every author is new to a new aggregator. -/
theorem Aggregator.add_new (committee : Committee) (author : PublicKey) (signature : Signature) :
    ∃ a, Aggregator.new.add committee author signature = .ok a := by
  have hauthor : author ∉ Aggregator.new.used := ExtTreeSet.not_mem_empty
  unfold Aggregator.add
  rw [decide_eq_true hauthor]
  exact ⟨_, rfl⟩

/-- Aggregates votes for a particular header into a certificate. -/
abbrev VotesAggregator := Aggregator

def VotesAggregator.append (a : VotesAggregator) (vote : Vote) (committee : Committee)
    (header : Header) : DagResult (Option Certificate × VotesAggregator) := do
  let a ← a.add committee vote.author vote.signature
  -- to check if we have received vote from the current round leader
  if committee.leader vote.round ∉ a.used then return (none, a)
  else if a.weight ≥ committee.quorum_threshold then
    -- Ensures quorum is only reached once.
    return (some { header, votes := a.signatures }, { a with weight := 0 })
  else return (none, a)

/-- A certificate of votes is for the header that the votes are aggregated for. -/
theorem VotesAggregator.append_header {a a' : VotesAggregator} {vote : Vote} {committee : Committee}
    {header : Header} {certificate : Certificate}
    (h : a.append vote committee header = .ok (some certificate, a')) :
    certificate.header = header := by
  unfold VotesAggregator.append at h
  rcases hadd : a.add committee vote.author vote.signature with e | b
  · simp [hadd, bind, Except.bind] at h
  · simp only [hadd, bind, Except.bind, pure, Except.pure] at h
    split at h
    · simp at h
    · split at h
      · simp only [Except.ok.injEq, Prod.mk.injEq, Option.some.injEq] at h
        rw [← h.1]
      · simp at h

/-- Aggregates timeouts for a particular round. -/
abbrev TimeoutAggregator := Aggregator

def TimeoutAggregator.append (a : TimeoutAggregator) (timeout : Timeout) (committee : Committee) :
    DagResult (Option TimeoutCert × TimeoutAggregator) := do
  let a ← a.add committee timeout.author timeout.signature
  if a.weight ≥ committee.quorum_threshold then
    return (some { round := timeout.round, timeouts := a.signatures }, a)
  else return (none, a)

theorem TimeoutAggregator.append_new (timeout : Timeout) (committee : Committee) :
    ∃ cert aggregator,
      TimeoutAggregator.append .new timeout committee = .ok (cert, aggregator) := by
  obtain ⟨a, hadd⟩ := Aggregator.add_new committee timeout.author timeout.signature
  simp only [TimeoutAggregator.append, hadd, bind, Except.bind, pure, Except.pure]
  split <;> exact ⟨_, _, rfl⟩

/-- Aggregates no-vote messages for a particular round. -/
abbrev NoVoteAggregator := Aggregator

def NoVoteAggregator.append (a : NoVoteAggregator) (no_vote_msg : NoVoteMsg)
    (committee : Committee) : DagResult (Option NoVoteCert × NoVoteAggregator) := do
  let a ← a.add committee no_vote_msg.author no_vote_msg.signature
  if a.weight ≥ committee.quorum_threshold then
    return (some { round := no_vote_msg.round, no_votes := a.signatures }, a)
  else return (none, a)

theorem NoVoteAggregator.append_new (no_vote_msg : NoVoteMsg) (committee : Committee) :
    ∃ cert aggregator,
      NoVoteAggregator.append .new no_vote_msg committee = .ok (cert, aggregator) := by
  obtain ⟨a, hadd⟩ := Aggregator.add_new committee no_vote_msg.author no_vote_msg.signature
  simp only [NoVoteAggregator.append, hadd, bind, Except.bind, pure, Except.pure]
  split <;> exact ⟨_, _, rfl⟩

/-- Aggregate certificates and check if we reach a quorum. -/
structure CertificatesAggregator where
  weight : ℕ
  certificates : List Certificate
  used : ExtTreeSet PublicKey
deriving DecidableEq

def CertificatesAggregator.new : CertificatesAggregator :=
  { weight := 0, certificates := [], used := ∅ }

def CertificatesAggregator.append (a : CertificatesAggregator) (certificate : Certificate)
    (committee : Committee) : Option (List Certificate) × CertificatesAggregator :=
  let origin := certificate.origin
  -- Ensure it is the first time this authority votes.
  if origin ∈ a.used then (none, a)
  else
    let certificates := a.certificates ++ [certificate]
    let weight := u32 (a.weight + committee.stake origin)
    let used := a.used.insert origin
    if weight ≥ committee.quorum_threshold then
      (some certificates, { weight, certificates := [], used })
    else (none, { weight, certificates, used })

end sailfish.primary
