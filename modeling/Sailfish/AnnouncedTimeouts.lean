-- The law of announced timeouts: a proposer whose timer expired has sent one timeout for
-- its round. It remembers that it sent a timeout, but not for which round, so a jump to
-- a newer round may leave that round without one.
import Mathlib
import Sailfish.Proposer
import Sailfish.Lib.Splits

open Std splits sailfish.crypto sailfish.config

namespace sailfish.primary

namespace Proposer

section

variable [Crypto] (name : PublicKey) (committee : Committee) (header_size : ℕ)

/-- The rounds of the timeouts sent so far, in order. -/
def timeout_rounds (s : Proposer) : List ℕ := (timeouts s.sent).map (·.round)

/-- After the head of the main loop: if the timer expired and no header was made, one timeout of the
round was sent. -/
def Announced (s : Proposer) : Prop :=
  s.timer_expired = true → ready name committee header_size s = false →
    (propose name committee header_size s).timeout_rounds.count
      (propose name committee header_size s).round = 1

/-- Parents of a newer round arrive while the proposer remembers a timeout. -/
def Jumps (pre : List Event) (e : Event) : Prop :=
  let s := propose name committee header_size (run name committee header_size pre)
  ∃ parents round, e = .turn (.core parents round) ∧ s.timeout_sent = true ∧ s.round < round

/-- The proposer makes a header and forgets the timeout. -/
def Advances (pre : List Event) (e : Event) : Prop :=
  (∃ m, e = .turn m) ∧ ready name committee header_size (run name committee header_size pre) = true

/-- Since the proposer jumped after its timeout, it made no header. -/
abbrev Jumped (events : List Event) : Prop :=
  Lasts (Jumps name committee header_size) (Advances name committee header_size) events

/-- The timeouts sent so far, and what `timeout_sent` says about them when it is known whether the
proposer jumped. -/
structure Timely (jumped : Prop) (s : Proposer) : Prop where
  sorted : s.timeout_rounds.Pairwise (· < ·)
  le : ∀ r ∈ s.timeout_rounds, r ≤ s.round
  unsent : s.timeout_sent = false → s.round ∉ s.timeout_rounds ∧ ¬ jumped
  sent : s.timeout_sent = true → (s.round ∈ s.timeout_rounds ↔ ¬ jumped)

variable {name committee header_size} {s : Proposer} {events : List Event}

theorem timeout_rounds_propose : (propose name committee header_size s).timeout_rounds =
    s.timeout_rounds ++ if s.timer_expired && !s.timeout_sent then [s.round] else [] := by
  unfold timeout_rounds
  rw [timeouts_propose, List.map_append]
  split <;> rfl

/-- Without a header, the round stays, and an expired timer is remembered. -/
theorem propose_idle (h : ready name committee header_size s = false) :
    (propose name committee header_size s).round = s.round ∧
      (propose name committee header_size s).timeout_sent = (s.timer_expired || s.timeout_sent) := by
  rw [propose_of_not_ready h]
  unfold check_timer
  rcases s.timer_expired with _ | _ <;> rcases hsent : s.timeout_sent with _ | _ <;>
    simp [make_timeout_msg, hsent]

/-- With a header, the proposer is in the next round and forgets its timeout. -/
theorem propose_advances (h : ready name committee header_size s = true) :
    (propose name committee header_size s).round = wrapping_succ s.round ∧
      (propose name committee header_size s).timeout_sent = false := by
  rw [propose_of_ready h]
  unfold advance_round check_timer
  split <;> split <;> exact ⟨rfl, rfl⟩

omit [Crypto] in
/-- A message may only bring the proposer to a newer round. -/
theorem receive_round (committee : Committee) (s : Proposer) (m : Message) :
    (receive committee s m).timeout_rounds = s.timeout_rounds ∧
      (receive committee s m).timeout_sent = s.timeout_sent ∧
      ((∃ parents round, m = .core parents round ∧ s.round < round ∧
          (receive committee s m).round = round) ∨
        (∀ parents round, m = .core parents round → round ≤ s.round) ∧
          (receive committee s m).round = s.round) := by
  cases m with
  | core parents round =>
    rcases Nat.lt_trichotomy s.round round with hlt | rfl | hgt
    · have heq : receive committee s (.core parents round) =
          update_leader committee { s with round, last_parents := parents } := by
        simp only [receive, Nat.compare_eq_gt.mpr hlt]
      rw [heq]
      exact ⟨rfl, rfl, Or.inl ⟨parents, round, rfl, hlt, rfl⟩⟩
    · have heq : receive committee s (.core parents s.round) =
          update_leader committee { s with last_parents := s.last_parents ++ parents } := by
        simp only [receive, compare_self]
      rw [heq]
      refine ⟨rfl, rfl, Or.inr ⟨?_, rfl⟩⟩
      rintro _ _ ⟨⟩
      exact Nat.le_refl _
    · have heq : receive committee s (.core parents round) = update_leader committee s := by
        simp only [receive, Nat.compare_eq_lt.mpr hgt]
      rw [heq]
      refine ⟨rfl, rfl, Or.inr ⟨?_, rfl⟩⟩
      rintro _ _ ⟨⟩
      exact Nat.le_of_lt hgt
  | worker => exact ⟨rfl, rfl, Or.inr ⟨nofun, rfl⟩⟩
  | timeout_cert timeout_cert round =>
    unfold receive
    dsimp only
    split <;> exact ⟨rfl, rfl, Or.inr ⟨nofun, rfl⟩⟩
  | no_vote_cert no_vote_cert round =>
    unfold receive
    dsimp only
    split <;> exact ⟨rfl, rfl, Or.inr ⟨nofun, rfl⟩⟩
  | timer => exact ⟨rfl, rfl, Or.inr ⟨nofun, rfl⟩⟩

/-- A message that brings a newer round after the head of the main loop. -/
theorem jumps_turn_iff {m : Message} : Jumps name committee header_size events (.turn m) ↔
    (propose name committee header_size (run name committee header_size events)).timeout_sent = true ∧
      ∃ parents round, m = .core parents round ∧
        (propose name committee header_size (run name committee header_size events)).round < round := by
  unfold Jumps
  constructor
  · rintro ⟨parents, round, heq, hsent, hlt⟩
    cases heq
    exact ⟨hsent, parents, round, rfl, hlt⟩
  · rintro ⟨hsent, parents, round, rfl, hlt⟩
    exact ⟨parents, round, rfl, hsent, hlt⟩

/-- The head of the main loop, when no header is made: a timeout that goes out is the first one of
its round. -/
theorem Timely.propose_idle {jumped : Prop} (h : Timely jumped s)
    (hready : ready name committee header_size s = false) :
    Timely jumped (propose name committee header_size s) := by
  obtain ⟨hround, hsent⟩ := Proposer.propose_idle hready
  have hrounds : (propose name committee header_size s).timeout_rounds = _ := timeout_rounds_propose
  by_cases hsends : s.timer_expired = true ∧ s.timeout_sent = false
  · obtain ⟨hnew, hjumped⟩ := h.unsent hsends.2
    rw [hsends.1, hsends.2, Bool.not_false, Bool.and_true, if_pos rfl] at hrounds
    rw [hsends.1, Bool.true_or] at hsent
    refine ⟨?_, ?_, ?_, ?_⟩
    · rw [hrounds, List.pairwise_append]
      refine ⟨h.sorted, List.pairwise_singleton _ _, fun r hr r' hr' => ?_⟩
      rw [List.mem_singleton.mp hr']
      exact Nat.lt_of_le_of_ne (h.le r hr) fun heq => hnew (heq ▸ hr)
    · rw [hrounds, hround, List.forall_mem_append]
      exact ⟨h.le, fun r hr => Nat.le_of_eq (List.mem_singleton.mp hr)⟩
    · rw [hsent]
      exact nofun
    · rw [hrounds, hround]
      exact fun _ => iff_of_true (List.mem_append_right _ (List.mem_singleton_self _)) hjumped
  · have hflag : (s.timer_expired && !s.timeout_sent) = false := by
      rw [← Bool.not_eq_true]
      simpa using hsends
    rw [hflag, if_neg Bool.false_ne_true, List.append_nil] at hrounds
    have hsame : (propose name committee header_size s).timeout_sent = s.timeout_sent := by
      rw [hsent]
      rcases hexpired : s.timer_expired with _ | _
      · rfl
      · rw [hexpired, Bool.true_and, Bool.not_eq_false'] at hflag
        rw [hflag, Bool.or_true]
    refine ⟨?_, ?_, ?_, ?_⟩
    · rw [hrounds]
      exact h.sorted
    · rw [hrounds, hround]
      exact h.le
    · rw [hrounds, hround, hsame]
      exact h.unsent
    · rw [hrounds, hround, hsame]
      exact h.sent

/-- A header starts a round without a timeout. -/
theorem Timely.propose_advances {jumped : Prop} (h : Timely jumped s)
    (hfit : s.round + 1 < 2 ^ 64) (hready : ready name committee header_size s = true) :
    Timely False (propose name committee header_size s) := by
  obtain ⟨hround, hsent⟩ := Proposer.propose_advances hready
  rw [wrapping_succ_of_lt hfit] at hround
  have hrounds : (propose name committee header_size s).timeout_rounds = _ := timeout_rounds_propose
  have hle : ∀ r ∈ (propose name committee header_size s).timeout_rounds, r ≤ s.round := by
    rw [hrounds, List.forall_mem_append]
    refine ⟨h.le, fun r hr => ?_⟩
    split at hr
    · exact Nat.le_of_eq (List.mem_singleton.mp hr)
    · cases hr
  refine ⟨?_, ?_, ?_, ?_⟩
  · rw [hrounds, List.pairwise_append]
    refine ⟨h.sorted, by split <;> simp, fun r hr r' hr' => ?_⟩
    split at hr'
    · rename_i hsends
      rw [Bool.and_eq_true, Bool.not_eq_true'] at hsends
      rw [List.mem_singleton.mp hr']
      exact Nat.lt_of_le_of_ne (h.le r hr) fun heq => (h.unsent hsends.2).1 (heq ▸ hr)
    · cases hr'
  · rw [hround]
    exact fun r hr => Nat.le_succ_of_le (hle r hr)
  · rw [hround]
    exact fun _ => ⟨fun hm => Nat.not_succ_le_self _ (hle _ hm), id⟩
  · rw [hsent]
    exact nofun

omit [Crypto] in
/-- A message that brings a newer round leaves the proposer without a timeout of its round. -/
theorem Timely.receive {jumped : Prop} (h : Timely jumped s) (m : Message) :
    Timely (jumped ∨ s.timeout_sent = true ∧
      ∃ parents round, m = .core parents round ∧ s.round < round) (receive committee s m) := by
  obtain ⟨hrounds, hsent, ⟨parents, round, rfl, hlt, hround⟩ | ⟨hold, hround⟩⟩ :=
    receive_round committee s m
  · have hnew : round ∉ s.timeout_rounds := fun hm => Nat.not_lt_of_le (h.le round hm) hlt
    refine ⟨?_, ?_, ?_, ?_⟩
    · rw [hrounds]
      exact h.sorted
    · rw [hrounds, hround]
      exact fun r hr => Nat.le_trans (h.le r hr) (Nat.le_of_lt hlt)
    · rw [hrounds, hround, hsent]
      intro hunsent
      refine ⟨hnew, ?_⟩
      rintro (hjumped | ⟨htrue, -⟩)
      · exact (h.unsent hunsent).2 hjumped
      · rw [hunsent] at htrue
        cases htrue
    · rw [hrounds, hround, hsent]
      intro htrue
      exact iff_of_false hnew fun hnot => hnot (Or.inr ⟨htrue, parents, round, rfl, hlt⟩)
  · have hjumps : (jumped ∨ s.timeout_sent = true ∧
        ∃ parents round, m = .core parents round ∧ s.round < round) ↔ jumped := by
      refine or_iff_left ?_
      rintro ⟨-, parents, round, hm, hlt⟩
      exact absurd hlt (Nat.not_lt_of_le (hold parents round hm))
    rw [hjumps]
    refine ⟨?_, ?_, ?_, ?_⟩
    · rw [hrounds]
      exact h.sorted
    · rw [hrounds, hround]
      exact h.le
    · rw [hrounds, hround, hsent]
      exact h.unsent
    · rw [hrounds, hround, hsent]
      exact h.sent

/-! ## Whole runs -/

theorem timely_of_run {events : List Event} (hfit : RoundsFit events) :
    Timely (Jumped name committee header_size events)
      (run name committee header_size events) := by
  induction events using List.reverseRecOn with
  | nil => exact ⟨List.Pairwise.nil, nofun, fun _ => ⟨nofun, not_lasts_nil⟩, nofun⟩
  | append_singleton events e ih =>
    have ih := ih hfit.of_append
    rw [run_concat, Jumped, lasts_concat]
    cases e with
    | elapse =>
      have hjumps : (Jumped name committee header_size events ∧
          ¬ Advances name committee header_size events .elapse ∨
            Jumps name committee header_size events .elapse) ↔
          Jumped name committee header_size events := by
        have hadvances : ¬ Advances name committee header_size events .elapse := by
          rintro ⟨⟨m, hm⟩, -⟩
          cases hm
        have hnot : ¬ Jumps name committee header_size events .elapse := by
          rintro ⟨parents, round, hm, -⟩
          cases hm
        rw [or_iff_left hnot, and_iff_left hadvances]
      rw [hjumps]
      exact ⟨ih.sorted, ih.le, ih.unsent, ih.sent⟩
    | turn m =>
      rw [jumps_turn_iff]
      rcases hready : ready name committee header_size (run name committee header_size events)
        with _ | _
      · have hadvances : ¬ Advances name committee header_size events (.turn m) := by
          rintro ⟨-, htrue⟩
          rw [hready] at htrue
          cases htrue
        rw [and_iff_left hadvances]
        exact (ih.propose_idle hready).receive m
      · have hadvances : Advances name committee header_size events (.turn m) := ⟨⟨m, rfl⟩, hready⟩
        have hjumped : (Jumped name committee header_size events ∧
            ¬ Advances name committee header_size events (.turn m)) ↔ False :=
          iff_false_intro fun h => h.2 hadvances
        rw [hjumped]
        exact (ih.propose_advances (hfit.of_append.fits_of_ready hready) hready).receive m

/-- For every run of a proposer, over any order of timer, parents of rounds below the last one of a
`u64`, certificates and digests: after the head of the main loop, when the timer expired and no
header is made, exactly one timeout of the current round was sent, if and only if it is not so that
parents of a newer round arrived after a timeout and no header was made since. -/
theorem timeout_is_announced_iff (name : PublicKey) (committee : Committee) (header_size : ℕ)
    (events : List Event) (hfit : RoundsFit events) :
    Announced name committee header_size (run name committee header_size events) ↔
      ((run name committee header_size events).timer_expired = true →
        ready name committee header_size (run name committee header_size events) = false →
          ¬ Jumped name committee header_size events) := by
  refine forall_congr' fun hexpired => forall_congr' fun hready => ?_
  have htimely := (timely_of_run hfit).propose_idle hready
  have hsent := (Proposer.propose_idle (s := run name committee header_size events) hready).2
  rw [hexpired, Bool.true_or] at hsent
  have hnodup : (propose name committee header_size
      (run name committee header_size events)).timeout_rounds.Nodup :=
    htimely.sorted.imp Nat.ne_of_lt
  rw [← htimely.sent hsent]
  constructor
  · intro hcount
    exact List.count_pos_iff.mp (by omega)
  · exact List.count_eq_one_of_mem hnodup

end

section

attribute [local instance] crypto.sample

/-- A proposer whose timer expired in rounds 0 and 1. -/
theorem timeout_is_announced_iff_expired :
    (propose 1 .four 32 (run 1 .four 32 [.elapse, .turn .timer])).timeout_rounds = [0, 1] ∧
      ¬ Jumped 1 .four 32 [.elapse, .turn .timer] :=
  ⟨by decide +kernel, (timeout_is_announced_iff 1 .four 32 [.elapse, .turn .timer]
    (by decide +kernel)).mp (fun _ _ => by decide +kernel) (by decide +kernel) (by decide +kernel)⟩

/-- The timer expires in round 0, where the proposer makes a header, and in round 1. Then a quorum
of parents of round 5 arrives. -/
def jump : List Event :=
  let parents := [1, 2, 3].map fun author => .sample author 5 []
  [.elapse, .turn .timer, .turn (.core parents 5)]

/-- The proposer is in round 5 with an expired timer, and has sent timeouts of rounds 0 and 1. -/
theorem jump_is_not_announced :
    (run 1 .four 32 jump).timer_expired = true ∧ ready 1 .four 32 (run 1 .four 32 jump) = false ∧
      (propose 1 .four 32 (run 1 .four 32 jump)).round = 5 ∧
      (propose 1 .four 32 (run 1 .four 32 jump)).timeout_rounds = [0, 1] ∧
      ¬ Announced 1 .four 32 (run 1 .four 32 jump) := by
  have hexpired : (run 1 .four 32 jump).timer_expired = true := by decide +kernel
  have hready : ready 1 .four 32 (run 1 .four 32 jump) = false := by decide +kernel
  refine ⟨hexpired, hready, by decide +kernel, by decide +kernel, fun h => ?_⟩
  have hcount := h hexpired hready
  revert hcount
  decide +kernel

end

end Proposer

end sailfish.primary
