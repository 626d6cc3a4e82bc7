-- The law of votes: a core votes once for each author and round, as long as it
-- processes no header of a round that the garbage collector is past.
import Mathlib
import Sailfish.CoreMoves
import Sailfish.Lib.Splits

open Std Relation effects splits sailfish.crypto sailfish.config

namespace sailfish.primary.Core

section

variable {node : Node} {s s' : Core}

/-- The authors of the votes of the rounds that are not garbage collected are in `last_voted`. -/
structure Tracked (node : Node) (s : Core) : Prop where
  once : s.voted.Pairwise fun a b => a.vote.origin = b.vote.origin → a.vote.round ≠ b.vote.round
  tracked : ∀ v ∈ s.voted, s.gc_round ≤ v.vote.round →
    v.vote.origin ∈ at_round s.last_voted v.vote.round
  behind : s.gc_round ≤ s.consensus_round - node.gc_depth

theorem tracked_spawn (store : Store) : Tracked node (spawn store) where
  once := List.Pairwise.nil
  tracked := fun _ hv => nomatch hv
  behind := Nat.zero_le _

theorem Tracked.cleanup (h : Tracked node s) : Tracked node (s.cleanup node) := by
  unfold Core.cleanup
  have hbehind := h.behind
  dsimp only
  split
  · refine ⟨h.once, ?_, Nat.le_refl _⟩
    intro v hv hr
    exact mem_at_round_filter.mpr ⟨hr, h.tracked v hv (Nat.le_trans hbehind hr)⟩
  · exact h

variable [Crypto]

/-- A quiet move changes nothing of it, and a vote for a recent header is the first one. -/
theorem Tracked.move {gc_round : ℕ} (hmove : Move node (fun h => gc_round ≤ h.round) s s')
    (h : Tracked node s ∧ s.gc_round = gc_round) : Tracked node s' ∧ s'.gc_round = gc_round := by
  obtain ⟨h, rfl⟩ := h
  cases hmove with
  | quiet hq =>
    refine ⟨⟨?_, ?_, ?_⟩, hq.gc_round⟩
    · rw [hq.voted]
      exact h.once
    · rw [hq.voted, hq.gc_round, hq.last_voted]
      exact h.tracked
    · rw [hq.gc_round, hq.consensus_round]
      exact h.behind
  | @vote header parents hround _ hnew =>
    refine ⟨⟨?_, ?_, h.behind⟩, rfl⟩
    · refine List.pairwise_append.mpr ⟨h.once, List.pairwise_singleton _ _, ?_⟩
      intro v hv w hw horigin hr
      rw [List.mem_singleton.mp hw] at horigin hr
      have hin := h.tracked v hv (by rw [hr]; exact hround)
      rw [horigin, hr] at hin
      exact hnew hin
    · intro v hv hr
      change v.vote.origin ∈ at_round (insert_at s.last_voted header.round header.author) v.vote.round
      rw [mem_insert_at]
      rcases List.mem_append.mp hv with hv | hv
      · exact Or.inr (h.tracked v hv hr)
      · rw [List.mem_singleton.mp hv]
        exact Or.inl ⟨rfl, rfl⟩

/-- An event that brings recent headers only keeps the votes tracked. -/
theorem Tracked.step {e : Event} (h : Tracked node s)
    (hrecent : ∀ input, e = .input input →
      Allowed node (fun header => s.gc_round ≤ header.round) s input)
    (hstep : step node s e = some s') : Tracked node s' := by
  cases e with
  | input input =>
    obtain ⟨s₁, hmoves, rfl⟩ := step_input (hrecent input rfl) hstep
    have hstart : Tracked node (s.start input) ∧ (s.start input).gc_round = s.gc_round := by
      cases input <;> exact ⟨⟨h.once, h.tracked, h.behind⟩, rfl⟩
    exact (of_steps (P := fun t => Tracked node t ∧ t.gc_round = s.gc_round)
      (fun _ _ => Tracked.move) hmoves hstart).1.cleanup
  | payload digest worker_id =>
    cases hstep
    exact ⟨h.once, h.tracked, h.behind⟩
  | committed round =>
    have hbehind := h.behind
    unfold Core.step at hstep
    dsimp only at hstep
    split at hstep
    · cases hstep
      exact ⟨h.once, h.tracked, by simp only; omega⟩
    · cases hstep
      exact h

/-- For every run of a core, no two of its votes are for one author and one round, when no header
comes to be processed while its round is below the last garbage collected one. -/
theorem one_vote_for_each_author_and_round (node : Node) (store : Store) (events : List Event)
    (s : Core) (hrun : run node store events = some s)
    (hrecent : Each (fun pre e => ∀ input before, e = .input input →
      run node store pre = some before →
      Allowed node (fun header => before.gc_round ≤ header.round) before input) events) :
    s.voted.Pairwise fun a b => a.vote.origin = b.vote.origin → a.vote.round ≠ b.vote.round := by
  suffices h : Tracked node s from h.once
  induction events using List.reverseRecOn generalizing s with
  | nil =>
    cases hrun
    exact tracked_spawn store
  | append_singleton events e ih =>
    obtain ⟨before, hbefore, hstep⟩ := run_concat.mp hrun
    exact (ih before hbefore hrecent.of_append).step
      (fun input he => hrecent.last input before he hbefore) hstep

end

/-! ## A second vote -/

section

attribute [local instance] crypto.sample

/-- The node of authority 1, which garbage collects all but the last round. -/
def voter : Node := { name := 1, committee := .four, gc_depth := 1 }

/-- A header of authority 2 for round 1, with some batches of worker 0. -/
def proposal (batches : List Digest) : Header :=
  let parents := ExtTreeSet.ofList ((Certificate.genesis .four).map Certificate.digest)
  let payload := ExtTreeMap.ofList (batches.map fun digest => (digest, 0))
  { Header.default with author := 2, round := 1, payload, parents }.signed

/-- Two headers of one author and round. The second one is suspended, and its batch comes. -/
def suspended : List Event :=
  [.input (.primaries (.header (proposal []))), .input (.primaries (.header (proposal [7]))),
    .payload 7 0]

def suspended_state : Core := (run voter .empty suspended).get (by decide +kernel)

theorem one_vote_for_each_author_and_round_suspended :
    suspended_state.voted.length = 1 ∧
    suspended_state.voted.Pairwise fun a b =>
      a.vote.origin = b.vote.origin → a.vote.round ≠ b.vote.round := by
  refine ⟨by decide +kernel, one_vote_for_each_author_and_round voter .empty suspended
    suspended_state (by simp [suspended_state]) ?_⟩
  intro pre e post heq input before hinput _
  have hm : e ∈ suspended := by simp [heq]
  subst hinput
  simp only [suspended, List.mem_cons, Event.input.injEq, reduceCtorEq, List.not_mem_nil, or_false]
    at hm
  have hother : ∀ batches, (proposal batches).author ≠ voter.name := by
    intro batches
    change (2 : PublicKey) ≠ 1
    decide
  rcases hm with rfl | rfl
  · exact fun hr => ⟨hr, fun hown => absurd hown (hother _)⟩
  · exact fun hr => ⟨hr, fun hown => absurd hown (hother _)⟩

/-- The second header comes back once the garbage collector is past its round. -/
def collected : List Event :=
  let timeout : Timeout := { round := 3, author := 1, signature := .default }
  suspended ++ [.committed 3, .input (.timeout timeout)]

theorem looped_back_header_gets_a_second_vote :
    ∃ before s, run voter .empty collected = some before ∧
      before.looped_back (proposal [7]) = true ∧
      run voter .empty (collected ++ [.input (.header_waiter (proposal [7]))]) = some s ∧
      s.voted.map (·.vote) = [.new (proposal []) 1, .new (proposal [7]) 1] ∧
      (proposal []).author = (proposal [7]).author ∧ (proposal []).round = (proposal [7]).round ∧
      (proposal []).id ≠ (proposal [7]).id :=
  ⟨(run voter .empty collected).get (by decide +kernel),
    (run voter .empty (collected ++ [.input (.header_waiter (proposal [7]))])).get
      (by decide +kernel),
    by simp, by decide +kernel, by simp, by decide +kernel, rfl, rfl, by decide +kernel⟩

end

end sailfish.primary.Core
