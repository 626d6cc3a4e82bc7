-- The law of the garbage-collection boundary: the header waiter should keep a header that
-- the core accepts. The two clean up at one consensus round, but compare with it in
-- different ways, so a header of the boundary round is accepted and then dropped.
import Mathlib
import Sailfish.SyncRequests
import Sailfish.VoteOnce

open Std sailfish.crypto sailfish.config

namespace sailfish.primary

section

variable [Crypto] {node : Node} {core : Core} {s s' : HeaderWaiter} {header : Header}

/-- The core does not reject the header as too old. -/
def Core.Accepts (node : Node) (core : Core) (header : Header) : Prop :=
  ∀ digest round, core.sanitize_header node header ≠ .error (.TooOld digest round)

omit [Crypto] in
theorem Core.gc_round_cleanup : (core.cleanup node).gc_round =
    if core.consensus_round > node.gc_depth then core.consensus_round - node.gc_depth
    else core.gc_round := by
  unfold Core.cleanup
  dsimp only
  split <;> rfl

omit [Crypto] in
theorem ensure_bind_ne {cond : Bool} {e e' : DagError} {f : Unit → DagResult Unit} (he : e ≠ e')
    (hf : f () ≠ .error e') : (ensure cond e >>= f) ≠ .error e' := by
  cases cond
  · exact fun h => he (Except.error.inj h)
  · exact hf

/-- The checks of a header itself do not find it too old. -/
theorem Header.verify_ne_tooOld {committee : Committee} {digest : Digest} {round : ℕ} :
    header.verify committee ≠ .error (.TooOld digest round) := by
  unfold Header.verify
  refine ensure_bind_ne nofun (ensure_bind_ne nofun (ensure_bind_ne nofun ?_))
  unfold ensure
  split <;> nofun

theorem Core.accepts_iff : core.Accepts node header ↔ core.gc_round ≤ header.round := by
  unfold Core.Accepts Core.sanitize_header
  constructor
  · intro h
    by_contra hlt
    refine h header.id header.round ?_
    simp [check_round, ensure, hlt, bind, Except.bind]
  · intro hle digest round
    have hcheck : check_round core.gc_round header.id header.round = .ok () := by
      simp [check_round, hle]
    rw [hcheck]
    exact Header.verify_ne_tooOld

omit [Crypto] in
/-- The waiter keeps a header that waits, when it cleans up, if its round is past the boundary. -/
theorem HeaderWaiter.mem_pending_cleanup_iff {handler : ℕ}
    (h : s.pending[header.id]? = some (header.round, handler)) :
    header.id ∈ (s.cleanup node).pending ↔
      s.consensus_round ≤ node.gc_depth ∨ s.consensus_round - node.gc_depth < header.round := by
  rw [← ExtTreeMap.isSome_getElem?_iff_mem, Option.isSome_iff_exists]
  simp [HeaderWaiter.cleanup_pending, h, HeaderWaiter.survives]

/-- For every depth, every consensus round and every header that waits: the waiter keeps the header,
if the core accepts it after a cleanup at that round, if and only if the header is not of the
boundary round. -/
theorem waiter_keeps_accepted_iff (node : Node) (core : Core) (s : HeaderWaiter) (header : Header)
    (handler : ℕ) (hround : s.consensus_round = core.consensus_round)
    (hpending : s.pending[header.id]? = some (header.round, handler)) :
    ((core.cleanup node).Accepts node header → header.id ∈ (s.cleanup node).pending) ↔
      core.consensus_round ≤ node.gc_depth ∨
        header.round ≠ core.consensus_round - node.gc_depth := by
  rw [Core.accepts_iff, Core.gc_round_cleanup, HeaderWaiter.mem_pending_cleanup_iff hpending, hround]
  by_cases h : core.consensus_round ≤ node.gc_depth
  · simp [h]
  · rw [if_pos (Nat.lt_of_not_le h)]
    simp only [h, false_or]
    omega

end

section

attribute [local instance] crypto.sample

/-- The consensus reaches round 2, with a depth of 1. The core cleans up, and then gets a header of
round 1 that misses a parent. -/
def boundary : List Core.Event :=
  let timeout : Timeout := { round := 1, author := 1, signature := .default }
  [.committed 2, .input (.timeout timeout),
    .input (.primaries (.header (HeaderWaiter.orphan 2 1)))]

def boundary_core : Core := (Core.run Core.voter .empty boundary).get (by decide +kernel)

/-- The waiter gets the message of the core. -/
def boundary_waiter : HeaderWaiter :=
  (HeaderWaiter.run Core.voter 5 .empty
    [.committed 2, .message (.sync_parents [7] (HeaderWaiter.orphan 2 1)) 0]).get (by decide +kernel)

/-- The waiter with a header of round 2, at the same consensus round. -/
def waiter_past_boundary : HeaderWaiter :=
  ({ HeaderWaiter.spawn .empty with consensus_round := 2 } : HeaderWaiter).suspend
    (.sync_parents [7] (HeaderWaiter.orphan 2 2))

theorem waiter_keeps_accepted_iff_past_boundary :
    (HeaderWaiter.orphan 2 2).id ∈ (waiter_past_boundary.cleanup Core.voter).pending := by
  have haccepts : (boundary_core.cleanup Core.voter).Accepts Core.voter
      (HeaderWaiter.orphan 2 2) := Core.accepts_iff.mpr (by decide +kernel)
  exact (waiter_keeps_accepted_iff Core.voter boundary_core waiter_past_boundary
    (HeaderWaiter.orphan 2 2) 0 (by decide +kernel) (by decide +kernel)).mpr
      (Or.inr (by decide +kernel)) haccepts

/-- The core, cleaned up at the boundary, accepts the header and suspends it, and the waiter drops
it in the turn that takes it. -/
theorem boundary_header_is_dropped :
    Core.run Core.voter .empty boundary = some boundary_core ∧ boundary_core.gc_round = 1 ∧
      boundary_core.sanitize_header Core.voter (HeaderWaiter.orphan 2 1) = .ok () ∧
      .header_waiter (.sync_parents [7] (HeaderWaiter.orphan 2 1)) ∈ boundary_core.sent ∧
      boundary_waiter.consensus_round = boundary_core.consensus_round ∧
      boundary_waiter.waiting.length = 1 ∧
      (HeaderWaiter.orphan 2 1).id ∉ boundary_waiter.pending :=
  ⟨(Option.some_get _).symm, by decide +kernel⟩

end

end sailfish.primary
