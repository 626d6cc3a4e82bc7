-- The law of forwarded headers: the headers that count towards a commit pass the checks
-- of the core, as long as every header that comes to be processed does. The core sends
-- a header to the consensus before it checks it.
import Mathlib
import Sailfish.CoreEffects
import Sailfish.HeaderVotes

open Std Relation effects splits sailfish.crypto sailfish.config

namespace sailfish.primary.Core

/-- The header passes the checks of `process_header` on its parents, with what is in the store. -/
def Valid [Crypto] (node : Node) (store : Store) (header : Header) : Prop :=
  ∃ parents, find_parents (genesis_digests node.committee) store header.parents.toList =
    .ok ([], parents) ∧ check_parents node.committee header parents = .ok ()

section

variable [Crypto] {node : Node} {P : Header → Prop} {T R : ℕ → Prop} {s s' : Core}

/-- The headers that the effects of an input send meet `P`. -/
theorem new_of_effects (h : ReflTransGen (Effect node P T R) s s') :
    ∃ new, s'.sent = s.sent ++ new ∧ ∀ header, .consensus_header header ∈ new → P header := by
  refine of_steps (P := fun s' => ∃ new, s'.sent = s.sent ++ new ∧
    ∀ header, .consensus_header header ∈ new → P header) ?_ h ⟨[], by simp, by simp⟩
  rintro s₁ s₂ heffect ⟨new, heq, hnew⟩
  cases heffect with
  | @send output hsend =>
    refine ⟨new ++ [output], by rw [heq, List.append_assoc], ?_⟩
    intro header hm
    rcases List.mem_append.mp hm with hm | hm
    · exact hnew header hm
    · rw [← List.mem_singleton.mp hm] at hsend
      exact hsend
  | @store_certificate c _ parents _ _ =>
    refine ⟨new ++ (parents.map (Output.proposer · c.round)).toList ++ [.consensus c],
      by simp only [heq, List.append_assoc], ?_⟩
    intro header hm
    simp only [List.mem_append, Option.mem_toList, Option.map_eq_some_iff, reduceCtorEq, and_false,
      exists_false, List.mem_singleton, or_false] at hm
    exact hnew header hm
  | processing | accept | vote | votes | handlers | timeouts | no_votes => exact ⟨new, heq, hnew⟩

/-! ## The errors of a computation -/

/-- The computation stops with a panic, or before it sends a header. -/
abbrev Harmless (s : Core) (e : Halt) (s' : Core) : Prop :=
  e = .panic ∨ consensus.headers_sent s' = consensus.headers_sent s

omit [Crypto] in
theorem propagate_eq_ok {α : Type} {r : DagResult α} {a : α} (h : propagate r s = .ok a s') :
    r = .ok a ∧ s' = s := by
  cases r with
  | ok b =>
    cases h
    exact ⟨rfl, rfl⟩
  | error e => cases h

omit [Crypto] in
theorem propagate_fails {α : Type} {r : DagResult α} : Fails (Harmless s) (propagate r) s := by
  cases r with
  | ok a => exact Fails.pure
  | error e => exact Fails.throw (Or.inr rfl)

omit [Crypto] in
theorem expect_fails {α : Type} {x : CoreM α} : Fails (Harmless s) (expect x) s' := by
  intro e s'' h
  unfold expect at h
  split at h
  · cases h
  · cases h
    exact Or.inl rfl

omit [Crypto] in
theorem send_to_fails {addresses : List PublicKey} {round : ℕ} {message : PrimaryMessage} :
    Fails (Harmless s) (send_to addresses round message) s' := Fails.of_ok rfl

theorem get_parents_of_found {header : Header} {parents : List Certificate}
    (h : find_parents (genesis_digests node.committee) s.store header.parents.toList =
      .ok ([], parents)) : get_parents node header s = .ok parents s := by
  change (propagate _ >>= _) s = _
  rw [h]
  rfl

omit [Crypto] in
theorem missing_payload_fails {header : Header} :
    Fails (Harmless s) (missing_payload node header) s' := by
  refine Fails.bind_of_ok rfl ?_
  dsimp only
  split
  · exact Fails.pure
  · exact Fails.bind_of_ok rfl Fails.pure

theorem vote_for_fails {process : Header → CoreM Unit} {header : Header}
    {parents : List Certificate} : Fails (Harmless s) (vote_for node process header parents) s' := by
  refine Fails.bind_of_ok rfl ?_
  split
  · refine Fails.bind_of_ok rfl ?_
    unfold send_vote
    split
    · exact expect_fails
    · refine Fails.bind ?_ fun _ _ _ => send_to_fails
      unfold address
      split
      · exact Fails.pure
      · exact Fails.throw (Or.inl rfl)
  · exact Fails.pure

/-- The processing of a valid header may panic, but gives no error. -/
theorem process_header_fails {header : Header} (h : Valid node s'.store header) :
    Fails (Harmless s) (process_header node header) s' := by
  obtain ⟨parents, hfound, hcheck⟩ := h
  refine Fails.bind_of_ok rfl (Fails.bind_of_ok rfl ?_)
  refine Fails.bind_of_ok (get_parents_of_found hfound) ?_
  split
  · exact Fails.pure
  rw [hcheck]
  refine Fails.bind_of_ok rfl (Fails.bind missing_payload_fails fun missing s₁ _ => ?_)
  split
  · exact Fails.pure
  · exact Fails.bind_of_ok rfl vote_for_fails

theorem process_certificate_fails {certificate : Certificate}
    (h : Valid node s'.store certificate.header) :
    Fails (Harmless s) (process_certificate node (process_header node) certificate) s' := by
  refine Fails.bind ?_ fun _ s₁ _ => Fails.bind ?_ fun delivered s₂ _ => ?_
  · refine Fails.bind_of_ok rfl ?_
    split
    · exact process_header_fails h
    · exact Fails.pure
  · refine Fails.bind_of_ok rfl ?_
    split
    · exact Fails.pure
    · exact Fails.bind_of_ok rfl Fails.pure
  · split
    · exact Fails.of_ok (store_certificate_eq rfl)
    · exact Fails.pure

theorem process_vote_fails {vote : Vote} :
    Fails (Harmless s) (process_vote node (process_header node) vote) s := by
  refine Fails.bind_of_ok rfl (Fails.bind propagate_fails ?_)
  rintro ⟨certificate, aggregator⟩ s₁ _
  refine Fails.bind_of_ok rfl ?_
  dsimp only
  split
  · exact Fails.pure
  · exact Fails.bind send_to_fails fun _ _ _ => expect_fails

/-- Effects without a header for the consensus leave the headers that were sent. -/
theorem fails_of_effects {x : CoreM Unit} (h : Effects node (fun _ => False) T R x s) :
    Fails (Harmless s) x s := by
  intro e s' hx
  obtain ⟨new, heq, hnew⟩ := new_of_effects (h.of_error e s' hx)
  right
  unfold consensus.headers_sent
  rw [heq, List.filterMap_append, List.append_right_eq_self, List.filterMap_eq_nil_iff]
  intro output hm
  split
  · exact absurd hm (hnew _)
  · rfl

theorem handle_fails {input : Input} (h : Brings node (Valid node s.store) R s input) :
    Fails (Harmless s) (handle node input) s := by
  cases input with
  | primaries message =>
    refine Fails.bind_of_ok rfl ?_
    cases message with
    | header header =>
      refine Fails.bind propagate_fails fun _ s₁ hok => ?_
      obtain ⟨hok, rfl⟩ := propagate_eq_ok hok
      exact process_header_fails (h hok).1
    | certificate certificate =>
      refine Fails.bind propagate_fails fun _ s₁ hok => ?_
      obtain ⟨hok, rfl⟩ := propagate_eq_ok hok
      exact process_certificate_fails (h hok).1
    | vote vote =>
      refine Fails.bind propagate_fails fun _ s₁ hok => ?_
      obtain ⟨-, rfl⟩ := propagate_eq_ok hok
      exact process_vote_fails
    | timeout timeout =>
      exact fails_of_effects (T := fun _ => True) (R := fun _ => True)
        (Runs.bind propagate_runs fun _ _ _ _ => process_timeout_effects trivial)
    | no_vote_msg msg =>
      exact fails_of_effects (T := fun _ => True) (R := fun _ => True) (Runs.bind propagate_runs fun _ _ _ _ =>
        process_no_vote_msg_effects fun _ => trivial)
    | certificates_request digests requestor => exact Fails.throw (Or.inl rfl)
  | header_waiter header => exact process_header_fails h.1
  | certificate_waiter certificate => exact process_certificate_fails h.1
  | proposer header =>
    refine Fails.bind_of_ok rfl (Fails.bind send_to_fails fun _ s₁ hsend => ?_)
    cases hsend
    exact process_header_fails h
  | timeout timeout =>
    exact fails_of_effects (T := fun _ => True) (R := fun _ => True)
      (send_to_effects.bind fun _ _ _ => process_timeout_effects trivial)
  | no_vote_msg msg =>
    exact fails_of_effects (T := fun _ => True) (R := fun _ => True)
      (address_effects.bind fun _ _ _ => send_to_effects)

/-- The header was valid in a state of the run. -/
def WasValid (node : Node) (store : Store) (events : List Event) (header : Header) : Prop :=
  ∃ pre before, pre <+: events ∧ run node store pre = some before ∧ Valid node before.store header

theorem WasValid.append {store : Store} {events rest : List Event} {header : Header}
    (h : WasValid node store events header) : WasValid node store (events ++ rest) header := by
  obtain ⟨pre, before, hprefix, hvalid⟩ := h
  exact ⟨pre, before, hprefix.trans (List.prefix_append _ _), hvalid⟩

/-- Every input of the run brings only valid headers to be processed. -/
abbrev BringsValid (node : Node) (store : Store) (events : List Event) : Prop :=
  Each (fun pre e => ∀ input before, e = .input input → run node store pre = some before →
    Brings node (Valid node before.store) (fun _ => True) before input) events

theorem forwarded_was_valid {store : Store} {events : List Event}
    (hvalid : BringsValid node store events) (hrun : run node store events = some s)
    {header : Header} (hm : .consensus_header header ∈ s.sent) :
    WasValid node store events header := by
  induction events using List.reverseRecOn generalizing s with
  | nil =>
    cases hrun
    cases hm
  | append_singleton events e ih =>
    obtain ⟨before, hbefore, hstep⟩ := run_concat.mp hrun
    have hold := ih hvalid.of_append hbefore
    rcases step_cases hstep with hframe | ⟨input, rfl, h⟩
    · rw [hframe.sent] at hm
      exact (hold hm).append
    · obtain ⟨s₁, heffects, rfl⟩ := h _ _ (hvalid.last input before rfl hbefore)
      obtain ⟨new, hnew, hall⟩ := new_of_effects heffects
      rw [cleanup_frame.sent, hnew, (start_frame input).sent] at hm
      rcases List.mem_append.mp hm with hm | hm
      · exact (hold hm).append
      · exact ⟨events, before, List.prefix_append _ _, hbefore, hall header hm⟩

/-- For every run of a core in which the inputs bring only valid headers to be processed: a header
that goes to the consensus was valid, so a vote that the consensus counts is one of a valid header,
and an input that ends with an error sends no header. -/
theorem only_valid_headers_count (node : Node) (store : Store) (events : List Event)
    (hvalid : BringsValid node store events) :
    (∀ s, run node store events = some s → ∀ header ∈ consensus.headers_sent s,
      WasValid node store events header) ∧
    (∀ s delivered, consensus.Feeds node store events s delivered → ∀ n k,
      consensus.Counted node.committee node.gc_depth delivered n k →
      ∃ header, header.author = n ∧ header.round = k ∧ WasValid node store events header) ∧
    Each (fun pre e => ∀ input before err halted, e = .input input →
      run node store pre = some before → handle node input before = .error (.error err) halted →
      consensus.headers_sent halted = consensus.headers_sent before) events := by
  have hsent : ∀ s, run node store events = some s → ∀ header ∈ consensus.headers_sent s,
      WasValid node store events header := by
    intro s hrun header hm
    exact forwarded_was_valid hvalid hrun (consensus.mem_headers_sent.mp hm)
  refine ⟨hsent, ?_, ?_⟩
  · intro s delivered hfeeds n k hcounted
    obtain ⟨header, hm, hauthor, hround, -⟩ := hcounted.header
    exact ⟨header, hauthor, hround, hsent s hfeeds.run header (hfeeds.headers.subset hm)⟩
  · intro pre e post heq input before err halted hinput hbefore hhandle
    rcases handle_fails (hvalid pre e post heq input before hinput hbefore) _ _ hhandle with
      hpanic | hsame
    · cases hpanic
    · exact hsame

end

/-! ## A header without a quorum of parents -/

section

attribute [local instance] crypto.sample

/-- A header for round 2 that lists the leader of round 1, and nothing else. -/
def lone : Header :=
  let parents := ExtTreeSet.ofList [(consensus.first_of 2).digest]
  { Header.default with author := 1, round := 2, parents }.signed

def leader_arrives : List Event := [.input (.primaries (.certificate (consensus.first_of 2)))]

def lone_arrives : List Event := leader_arrives ++ [.input (.primaries (.header lone))]

def leader_state : Core := (run consensus.counting_node .empty leader_arrives).get (by decide +kernel)

def lone_state : Core := (run consensus.counting_node .empty lone_arrives).get (by decide +kernel)

/-- The consensus receives the leader, its header, and some more headers. -/
def deliveries_with (headers : List Header) : List consensus.Event :=
  [.certificate (consensus.first_of 2), .header (consensus.first_of 2).header] ++
    headers.map .header

def counted_with (headers : List Header)
    (h : (consensus.Consensus.run .four 50 (deliveries_with headers)).isSome := by decide +kernel) :
    consensus.Consensus :=
  (consensus.Consensus.run .four 50 (deliveries_with headers)).get h

/-- The error of a computation, with the state that it leaves. -/
def failure : EStateM.Result Halt Core Unit → Option (Halt × Core)
  | .ok _ _ => none
  | .error e s => some (e, s)

theorem eq_error_of_failure {r : EStateM.Result Halt Core Unit} {e : Halt} {s : Core}
    (h : failure r = some (e, s)) : r = .error e s := by
  cases r with
  | ok => cases h
  | error =>
    cases h
    rfl

theorem only_valid_headers_count_leader :
    (consensus.first_of 2).header ∈ consensus.headers_sent leader_state ∧
      WasValid consensus.counting_node .empty leader_arrives (consensus.first_of 2).header := by
  have hm : (consensus.first_of 2).header ∈ consensus.headers_sent leader_state := by
    decide +kernel
  refine ⟨hm, (only_valid_headers_count consensus.counting_node .empty leader_arrives ?_).1
    leader_state (by simp [leader_state]) _ hm⟩
  refine each_nil.concat (l := []) ?_
  rintro _ _ ⟨⟩ ⟨⟩ -
  refine ⟨⟨Certificate.genesis .four, by decide +kernel, by decide +kernel⟩, fun hown => ?_⟩
  exact absurd hown (by decide +kernel)

/-- The core forwards the header before it finds no quorum in its parents, and the consensus
counts its author. -/
theorem lone_header_counts :
    run consensus.counting_node .empty leader_arrives = some leader_state ∧
      handle consensus.counting_node (.primaries (.header lone)) leader_state =
        .error (.error (.HeaderRequiresQuorum lone.id)) lone_state ∧
      ¬ Valid consensus.counting_node leader_state.store lone ∧
      lone ∈ consensus.headers_sent lone_state ∧
      consensus.Feeds consensus.counting_node .empty lone_arrives lone_state
        (deliveries_with [lone]) ∧
      (counted_with []).stake_of 2 = 0 ∧ (counted_with [lone]).stake_of 2 = 1 := by
  refine ⟨by simp [leader_state], eq_error_of_failure (by decide +kernel), ?_, by decide +kernel,
    consensus.feeds_of_check (by simp [lone_state]) (by decide +kernel), by decide +kernel,
    by decide +kernel⟩
  rintro ⟨parents, hfound, hcheck⟩
  have hlone : find_parents (genesis_digests .four) leader_state.store lone.parents.toList =
      .ok ([], [consensus.first_of 2]) := by decide +kernel
  have hparents : parents = [consensus.first_of 2] :=
    (Prod.mk.inj (Except.ok.inj (hfound.symm.trans hlone))).2
  rw [hparents] at hcheck
  have herror : check_parents .four lone [consensus.first_of 2] =
      .error (.HeaderRequiresQuorum lone.id) := by decide +kernel
  exact nomatch herror.symm.trans hcheck

end

end sailfish.primary.Core
