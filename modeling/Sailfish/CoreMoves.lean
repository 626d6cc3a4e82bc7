-- The moves of the core: whatever an input leads to, the core only sends, stores and
-- aggregates, or creates a vote for a header whose parents it has found and checked.
import Mathlib
import Sailfish.CoreEffects

open Std Relation effects sailfish.crypto sailfish.config

namespace sailfish.primary.Core

variable {node : Node} {P : Header → Prop} {T R : ℕ → Prop} {s s' : Core}

/-- A move that creates no vote. -/
structure Quiet (s s' : Core) : Prop where
  voted : s'.voted = s.voted
  last_voted : s'.last_voted = s.last_voted
  gc_round : s'.gc_round = s.gc_round
  consensus_round : s'.consensus_round = s.consensus_round
  current_header : s'.current_header = s.current_header
  processing : ∀ r d, d ∈ at_round s.processing r → d ∈ at_round s'.processing r

theorem Quiet.rfl : Quiet s s := ⟨.refl _, .refl _, .refl _, .refl _, .refl _, fun _ _ h => h⟩

theorem check_round_of_ok {α : Type} {gc_round round : ℕ} {digest : Digest} {r : DagResult α} {a : α}
    (h : (check_round gc_round digest round >>= fun _ => r) = .ok a) : gc_round ≤ round := by
  by_contra hlt
  have herr : check_round gc_round digest round = .error (.TooOld digest round) := by
    simp [check_round, ensure, hlt]
  rw [herr] at h
  cases h

variable [Crypto]

/-- A move of the core while it processes headers that meet `P`. -/
inductive Move (node : Node) (P : Header → Prop) (s : Core) : Core → Prop
  | quiet {s' : Core} : Quiet s s' → Move node P s s'
  | vote {header : Header} {parents : List Certificate} : P header →
      check_parents node.committee header parents = .ok () →
      header.author ∉ at_round s.last_voted header.round →
      Move node P s (s.vote node header parents)

/-- An effect is a quiet move, or a quiet one and then a vote. -/
theorem Effect.moves (h : Effect node P T R s s') : ReflTransGen (Move node P) s s' := by
  cases h with
  | processing =>
    exact .single (.quiet { Quiet.rfl with
      processing := fun _ _ hd => mem_insert_at.mpr (Or.inr hd) })
  | @vote header parents hP haccepted hnew =>
    have hstore : Quiet s { s with store := s.store.write header.id (.header header) } :=
      { Quiet.rfl with }
    exact .tail (.single (.quiet hstore)) (.vote hP haccepted.checked hnew)
  | send | accept | store_certificate | votes | handlers | timeouts | no_votes =>
    exact .single (.quiet { Quiet.rfl with })

theorem moves_of_effects (h : ReflTransGen (Effect node P T R) s s') :
    ReflTransGen (Move node P) s s' :=
  of_steps (P := fun s' => ReflTransGen (Move node P) s s')
    (fun _ _ heffect hmoves => hmoves.trans heffect.moves) h .refl

/-- The headers that an input brings to `process_header` meet `P`. One that comes from another
primary has passed the check of its round. -/
def Allowed (node : Node) (P : Header → Prop) (s : Core) : Input → Prop
  | .primaries (.header header) => s.gc_round ≤ header.round → HeaderAllowed node P s header
  | .primaries (.certificate certificate) =>
    s.gc_round ≤ certificate.round → HeaderAllowed node P s certificate.header
  | .primaries (.vote _) => P s.current_header
  | .header_waiter header => HeaderAllowed node P s header
  | .certificate_waiter certificate => HeaderAllowed node P s certificate.header
  | .proposer header => P header
  | _ => True

theorem Allowed.brings {input : Input} (h : Allowed node P s input) :
    Brings node P (fun _ => True) s input := by
  cases input with
  | primaries message =>
    cases message with
    | header => exact fun hok => h (check_round_of_ok hok)
    | certificate => exact fun hok => h (check_round_of_ok hok)
    | vote => exact fun _ _ => h
    | no_vote_msg => exact fun _ _ => trivial
    | timeout | certificates_request => exact trivial
  | header_waiter | certificate_waiter | proposer | timeout | no_vote_msg => exact h

/-- One iteration of the main loop: the moves of the input, then the cleanup. -/
theorem step_input {input : Input} (h : Allowed node P s input)
    (hstep : step node s (.input input) = some s') :
    ∃ s₁, ReflTransGen (Move node P) (s.start input) s₁ ∧ s' = s₁.cleanup node := by
  obtain ⟨s₁, heffects, heq⟩ := step_effects h.brings (fun _ _ => trivial) hstep
  exact ⟨s₁, moves_of_effects heffects, heq⟩

end sailfish.primary.Core
