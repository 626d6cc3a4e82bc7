-- Where the inputs of the core come from: a header or a certificate that is looped back
-- was handed to its waiter before, and a header of the proposer is our own. So a fact
-- about the headers that enter holds of all that the core ever processes.
import Mathlib
import Sailfish.CoreEffects
import Sailfish.Lib.Splits

open Std Relation effects splits sailfish.crypto sailfish.config

namespace sailfish.primary

/-- The header in an output for the consensus or for a waiter meets `P`. -/
def Output.Meets (P : Header → Prop) : Output → Prop
  | .consensus_header header => P header
  | .consensus certificate => P certificate.header
  | .header_waiter message => P message.header
  | .certificate_waiter certificate => P certificate.header
  | .proposer _ _ | .timeout_cert _ _ | .no_vote_cert _ _ | .network _ _ => True

namespace Core

/-- The input is one that the tasks around the core give it. The requests for certificates go to
another task, and the proposer makes headers that meet `Own`. -/
def Arrives (Own : Header → Prop) (s : Core) : Input → Prop
  | .primaries message => ∀ digests requestor, message ≠ .certificates_request digests requestor
  | .header_waiter header => s.looped_back header = true
  | .certificate_waiter certificate => .certificate_waiter certificate ∈ s.sent
  | .proposer header => Own header
  | .timeout _ | .no_vote_msg _ => True

theorem header_waiter_of_looped_back {s : Core} {header : Header}
    (h : s.looped_back header = true) : ∃ message, .header_waiter message ∈ s.sent ∧
      message.header = header ∧ message.ready s.store = true := by
  unfold looped_back at h
  obtain ⟨output, hm, hout⟩ := List.any_eq_true.mp h
  cases output with
  | header_waiter message =>
    rw [Bool.and_eq_true, beq_iff_eq] at hout
    exact ⟨message, hm, hout⟩
  | consensus_header | consensus | proposer | timeout_cert | no_vote_cert | certificate_waiter
  | network => cases hout

section

variable [Crypto] {node : Node} {P : Header → Prop} {T R : ℕ → Prop} {Own : Header → Prop}
  {s s' : Core}

/-- Every input of the run is one that the tasks around the core give it. -/
abbrev FromTasks (node : Node) (Own : Header → Prop) (store : Store) (events : List Event) : Prop :=
  Each (fun pre e => ∀ input before, e = .input input → run node store pre = some before →
    Arrives Own before input) events

/-- The headers that enter the core meet `P`: those of the proposer, those that pass the checks of
the network, and the one that is the current header at the start. -/
structure Enters (node : Node) (Own P : Header → Prop) : Prop where
  start : P .default
  own : ∀ header, Own header → P header
  header : ∀ header : Header, header.verify node.committee = .ok () → P header
  certificate : ∀ certificate : Certificate, certificate.verify node.committee = .ok () →
    P certificate.header

/-- The headers that a core holds, and those that it sent, meet `P`. -/
structure Holds (P : Header → Prop) (s : Core) : Prop where
  sent : ∀ output ∈ s.sent, output.Meets P
  current : P s.current_header

theorem Effect.meets (heffect : Effect node P T R s s') (h : ∀ output ∈ s.sent, output.Meets P) :
    ∀ output ∈ s'.sent, output.Meets P := by
  cases heffect with
  | @send output hsend =>
    intro o ho
    rcases List.mem_append.mp ho with ho | ho
    · exact h o ho
    · rw [List.mem_singleton.mp ho]
      cases output <;> first | exact hsend | trivial
  | @store_certificate c _ parents hP _ =>
    intro o ho
    simp only [List.mem_append, Option.mem_toList, Option.map_eq_some_iff,
      List.mem_singleton] at ho
    rcases ho with (ho | ⟨_, -, rfl⟩) | rfl
    · exact h o ho
    · trivial
    · exact hP
  | processing | accept | vote | votes | handlers | timeouts | no_votes => exact h

theorem Effect.holds (heffect : Effect node P T R s s') (h : Holds P s) : Holds P s' :=
  ⟨heffect.meets h.sent, by rw [heffect.current_header]; exact h.current⟩

omit [Crypto] in
/-- What passes the check of the network passes its check on its own. -/
theorem verify_of_sanitize {α : Type} {gc_round round : ℕ} {digest : Digest} {r : DagResult α}
    {a : α} (h : (check_round gc_round digest round >>= fun _ => r) = .ok a) : r = .ok a := by
  unfold check_round ensure at h
  split at h
  · exact h
  · cases h

/-- An input that the tasks around the core give it brings only headers that meet `P`. -/
theorem Holds.brings (h : Holds P s) (henters : Enters node Own P) {input : Input}
    (harrives : Arrives Own s input) : Brings node P (fun _ => True) s input := by
  have hallowed : ∀ header, P header → HeaderAllowed node P s header :=
    fun header hP => ⟨hP, fun _ _ => h.current⟩
  cases input with
  | primaries message =>
    cases message with
    | header header => exact fun hok => hallowed _ (henters.header _ (verify_of_sanitize hok))
    | certificate c => exact fun hok => hallowed _ (henters.certificate _ (verify_of_sanitize hok))
    | vote => exact fun _ _ => h.current
    | no_vote_msg => exact fun _ _ => trivial
    | timeout | certificates_request => exact trivial
  | header_waiter header =>
    obtain ⟨message, hm, rfl, -⟩ := header_waiter_of_looped_back harrives
    exact hallowed _ (h.sent _ hm)
  | certificate_waiter c => exact hallowed _ (h.sent _ harrives)
  | proposer header => exact henters.own header harrives
  | timeout | no_vote_msg => exact trivial

theorem Holds.start (h : Holds P s) (henters : Enters node Own P) {input : Input}
    (harrives : Arrives Own s input) : Holds P (s.start input) := by
  cases input with
  | proposer header => exact ⟨h.sent, henters.own header harrives⟩
  | primaries | header_waiter | certificate_waiter | timeout | no_vote_msg => exact h

omit [Crypto] in
theorem current_header_cleanup : (s.cleanup node).current_header = s.current_header := by
  unfold cleanup
  dsimp only
  split <;> rfl

/-- Only a header of the proposer changes the current header. -/
theorem current_header_of_step {e : Event} (hstep : step node s e = some s') :
    s'.current_header = s.current_header ∨
      ∃ header, e = .input (.proposer header) ∧ s'.current_header = header := by
  cases e with
  | input input =>
    obtain ⟨s₁, heffects, rfl⟩ := step_effects (brings_any input) (fun _ _ => trivial) hstep
    rw [current_header_cleanup, current_header_of_effects heffects]
    cases input with
    | proposer header => exact Or.inr ⟨header, rfl, rfl⟩
    | primaries | header_waiter | certificate_waiter | timeout | no_vote_msg => exact Or.inl rfl
  | payload digest worker_id =>
    cases hstep
    exact Or.inl rfl
  | committed round =>
    unfold Core.step at hstep
    dsimp only at hstep
    split at hstep <;> cases hstep <;> exact Or.inl rfl

theorem current_header_of_run {store : Store} {events : List Event}
    (hfrom : FromTasks node Own store events) (hrun : run node store events = some s) :
    s.current_header = .default ∨ Own s.current_header := by
  induction events using List.reverseRecOn generalizing s with
  | nil =>
    cases hrun
    exact Or.inl rfl
  | append_singleton events e ih =>
    obtain ⟨before, hbefore, hstep⟩ := run_concat.mp hrun
    rcases current_header_of_step hstep with heq | ⟨header, rfl, heq⟩
    · rw [heq]
      exact ih hfrom.of_append hbefore
    · rw [heq]
      exact Or.inr (hfrom.last _ before rfl hbefore)

theorem Holds.step (h : Holds P s) (henters : Enters node Own P) {e : Event}
    (harrives : ∀ input, e = .input input → Arrives Own s input)
    (hstep : step node s e = some s') : Holds P s' := by
  cases e with
  | input input =>
    have hin := harrives input rfl
    obtain ⟨s₁, heffects, rfl⟩ := step_effects (h.brings henters hin) (fun _ _ => trivial) hstep
    have h₁ := of_steps (P := Holds P) (fun _ _ => Effect.holds) heffects (h.start henters hin)
    refine ⟨?_, by rw [current_header_cleanup]; exact h₁.current⟩
    rw [cleanup_frame.sent]
    exact h₁.sent
  | payload digest worker_id =>
    cases hstep
    exact ⟨h.sent, h.current⟩
  | committed round =>
    unfold Core.step at hstep
    dsimp only at hstep
    split at hstep <;> cases hstep <;> exact ⟨h.sent, h.current⟩

theorem holds_of_run {store : Store} {events : List Event} (henters : Enters node Own P)
    (hfrom : FromTasks node Own store events) (hrun : run node store events = some s) :
    Holds P s := by
  induction events using List.reverseRecOn generalizing s with
  | nil =>
    cases hrun
    exact ⟨fun _ ho => absurd ho List.not_mem_nil, henters.start⟩
  | append_singleton events e ih =>
    obtain ⟨before, hbefore, hstep⟩ := run_concat.mp hrun
    exact (ih hfrom.of_append hbefore).step henters
      (fun input he => hfrom.last input before he hbefore) hstep

/-- An event that the tasks around the core may cause at any time: it loops nothing back. -/
def fresh (own : Header → Bool) : Event → Bool
  | .input (.primaries (.certificates_request _ _)) => false
  | .input (.header_waiter _) | .input (.certificate_waiter _) => false
  | .input (.proposer header) => own header
  | .input (.primaries _) | .input (.timeout _) | .input (.no_vote_msg _) => true
  | .payload _ _ | .committed _ => true

theorem fromTasks_of_fresh {own : Header → Bool} (hown : ∀ header, own header = true → Own header)
    {store : Store} {events : List Event} (h : events.all (fresh own) = true) :
    FromTasks node Own store events := by
  rintro pre e post rfl input before rfl -
  have hfresh := List.all_eq_true.mp h _ (List.mem_append_right _ List.mem_cons_self)
  cases input with
  | primaries message =>
    rintro digests requestor rfl
    cases hfresh
  | proposer header => exact hown header hfresh
  | header_waiter | certificate_waiter => cases hfresh
  | timeout | no_vote_msg => trivial

end

end Core

end sailfish.primary
