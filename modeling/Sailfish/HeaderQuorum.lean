-- The law of header quorums: a header counts only when the certificate that it lists
-- is in the dag already, so the order of the headers and the certificate of their
-- leader decides whether the quorum of the headers commits it.
import Mathlib
import Sailfish.HeaderVotes

open Std sailfish.crypto sailfish.config sailfish.primary

namespace sailfish.consensus

section

variable [Crypto] {committee : Committee} {gc_depth : ℕ} {c c' : Consensus}

/-! ## The states that a run reaches -/

/-- A state between two deliveries: no leader that is not committed has a quorum of headers. -/
structure Counting (committee : Committee) (gc_depth : ℕ) (c : Consensus) : Prop where
  wf : Wf gc_depth c.state
  below : ∀ k, c.state.last_committed_round < k →
    c.stake_of (k + 1) < committee.quorum_threshold

/-- A certificate that is delivered has no parents in round 0, and its round fits. -/
def Event.Regular (gc_depth : ℕ) (e : Event) : Prop :=
  ∀ x, e = .certificate x → consensus.Regular gc_depth x

theorem Wf.receive {s : State} (h : Wf gc_depth s) {e : Event} (he : e.Regular gc_depth) :
    Wf gc_depth (s.receive e) := by
  cases e with
  | header header => exact h
  | certificate x => exact h.insert (he x rfl).grounded (he x rfl).fits

/-- The commit of the certificate of a leader ends at its round. -/
theorem Wf.of_commit_leader (h : Wf gc_depth c.state) {r : ℕ} {d : Digest} {leader : Certificate}
    (hleader : consensus.leader committee r c.state.dag = some (d, leader))
    (hlt : c.state.last_committed_round < r)
    (hcommit : c.commit_leader committee gc_depth leader = some c') :
    Wf gc_depth c'.state ∧ c'.state.last_committed_round = r ∧
      (∀ k n, r ≤ k → c'.state.dag.entry k n = c.state.dag.entry k n) ∧
      ∃ new, c'.commits = c.commits ++ new ∧ ∃ k ∈ new, k.leader.round = r := by
  obtain ⟨-, (hr : leader.round = r), -, hself⟩ := h.filed_dag.leader_self hleader
  obtain ⟨new, hnew, hcommits⟩ := Consensus.commit_leader_eq_some hcommit
  have hp : c.state.Pending leader := ⟨hself, by omega⟩
  obtain ⟨hw, hlast, hentry, older, -, -, hleaders⟩ := h.of_commit hp hnew
  have hmem : leader ∈ new.map (·.leader) := by
    rw [hleaders]
    simp
  obtain ⟨k, hk, hkl⟩ := List.mem_map.mp hmem
  rw [hr] at hlast hentry
  exact ⟨hw, hlast, hentry, new, hcommits, k, hk, by rw [hkl, hr]⟩

theorem Wf.of_header_commit (h : Wf gc_depth c.state) {header : Header} {r : ℕ} {d : Digest}
    {leader : Certificate} (hleader : consensus.leader committee r c.state.dag = some (d, leader))
    (hlt : c.state.last_committed_round < r)
    (hcommit : (c.count_vote committee header d).commit_leader committee gc_depth leader =
      some c') : Wf gc_depth c'.state ∧ c'.state.last_committed_round = r ∧
      ∃ new, c'.commits = c.commits ++ new ∧ ∃ k ∈ new, k.leader.round = r := by
  have hstate : (c.count_vote committee header d).state = c.state :=
    Consensus.count_vote_state header d c
  have hcommits : (c.count_vote committee header d).commits = c.commits :=
    Consensus.count_vote_commits header d c
  rw [← hstate] at h hleader hlt
  obtain ⟨hw, hlast, -, hnew⟩ := h.of_commit_leader hleader hlt hcommit
  rw [hcommits] at hnew
  exact ⟨hw, hlast, hnew⟩

/-- A step keeps the state well formed. It commits up to the round of one leader, or nothing, and
leaves the entries from there on. -/
theorem Wf.step (h : Wf gc_depth c.state) {e : Event} (he : e.Regular gc_depth)
    (hstep : Consensus.step committee gc_depth c e = some c') :
    Wf gc_depth c'.state ∧ c.state.last_committed_round ≤ c'.state.last_committed_round ∧
      (∀ x, e = .certificate x → c.state.last_committed_round < x.round →
        c'.state.last_committed_round < x.round) ∧
      ∀ r n, c'.state.last_committed_round ≤ r →
        c'.state.dag.entry r n = (c.state.receive e).dag.entry r n := by
  have hmid := h.receive he
  have hround : (c.state.receive e).last_committed_round = c.state.last_committed_round := by
    cases e <;> rfl
  obtain ⟨mid, hstate, -, hcases⟩ := Consensus.step_cases hstep
  rw [← hstate] at hmid hround ⊢
  rcases hcases with rfl | ⟨r, d, leader, hleader, hlt, hx, hcommit⟩
  · refine ⟨hmid, Nat.le_of_eq hround.symm, ?_, fun _ _ _ => rfl⟩
    intro x _ hlt
    rw [hround]
    exact hlt
  · obtain ⟨hw, hlast, hentry, -⟩ := hmid.of_commit_leader hleader hlt hcommit
    refine ⟨hw, by omega, ?_, fun k n hk => hentry k n (by omega)⟩
    intro x hex hlt'
    have hpred := (hx x hex).1
    rw [wrapping_pred, if_neg (by omega)] at hpred
    omega

theorem Counting.step (h : Counting committee gc_depth c) {e : Event} (he : e.Regular gc_depth)
    (hstep : Consensus.step committee gc_depth c e = some c') : Counting committee gc_depth c' := by
  obtain ⟨hw, hle, -⟩ := h.wf.step he hstep
  refine ⟨hw, ?_⟩
  intro k hk
  have hold := h.below k (by omega)
  rcases Consensus.step_stake_of hstep (k + 1) with hsame | ⟨header, rfl, -, hround, -⟩
  · rw [hsame]
    exact hold
  · have hpred : wrapping_pred header.round = k := by
      rw [← hround]
      rfl
    rcases Consensus.header_cases hstep with ⟨-, rfl⟩ | ⟨d, leader, mid, hlt, hleader, rfl, hrest⟩
    · exact hold
    · rcases hrest with ⟨-, hcommit⟩ | ⟨hquorum, rfl⟩
      · -- a quorum for the round of `k` commits its leader
        have hlast := (h.wf.of_header_commit hleader hlt hcommit).2.1
        omega
      · rw [hround]
        exact hquorum

theorem counting_spawn (hdepth : gc_depth < 2 ^ 64) :
    Counting committee gc_depth (Consensus.spawn committee) where
  wf := wf_new hdepth
  below := fun _ _ => Committee.quorum_threshold_pos

/-- Every state that a run on regular certificates reaches. -/
theorem counting_of_run {events : List Event} (hdepth : gc_depth < 2 ^ 64)
    (he : ∀ e ∈ events, e.Regular gc_depth)
    (h : Consensus.run committee gc_depth events = some c) : Counting committee gc_depth c := by
  induction events using List.reverseRecOn generalizing c with
  | nil =>
    cases h
    exact counting_spawn hdepth
  | append_singleton events e ih =>
    obtain ⟨before, hbefore, hstep⟩ := Consensus.run_concat.mp h
    rw [List.forall_mem_append] at he
    exact (ih he.1 hbefore).step (he.2 e List.mem_cons_self) hstep

/-! ## The headers around the certificate of their leader -/

/-- The headers that list the certificate of their leader and find it in the dag, where the entry
is its digest at the start. -/
def votes : Option Digest → List Event → List Header
  | _, [] => []
  | _, .certificate x :: events => votes (some x.digest) events
  | entry, .header h :: events =>
    if entry.any fun d => d ∈ h.parents then h :: votes entry events else votes entry events

omit [Crypto] in
/-- Some of the headers, one after the other, bring the stake to a quorum. -/
def Reaches (committee : Committee) (stake : ℕ) (headers : List Header) : Prop :=
  ∃ first, first <+: headers ∧ committee.quorum_threshold ≤
    u32 (stake + (first.map fun h => committee.stake h.author).sum)

/-- One of the headers makes the consensus commit a leader of the round. -/
def CommitsOnHeader (committee : Committee) (gc_depth r : ℕ) (c : Consensus)
    (events : List Event) : Prop :=
  ∃ pre header post before after, events = pre ++ .header header :: post ∧
    pre.foldlM (Consensus.step committee gc_depth) c = some before ∧
    Consensus.step committee gc_depth before (.header header) = some after ∧
    ∃ new, after.commits = before.commits ++ new ∧ ∃ k ∈ new, k.leader.round = r

/-- A header for the round after `r`, or a certificate of the leader of `r`. -/
def Around (committee : Committee) (r : ℕ) (e : Event) : Prop :=
  (∃ header, e = .header header ∧ header.round = r + 1) ∨
    ∃ x, e = .certificate x ∧ x.round = r ∧ x.origin = committee.leader r

omit [Crypto] in
theorem not_reaches_nil {stake : ℕ} (h : stake < committee.quorum_threshold) :
    ¬ Reaches committee stake [] := by
  rintro ⟨first, hfirst, hquorum⟩
  rw [List.prefix_nil.mp hfirst] at hquorum
  have := u32_le (stake + 0)
  simp only [List.map_nil, List.sum_nil] at hquorum
  omega

omit [Crypto] in
theorem reaches_cons {stake : ℕ} (h : stake < committee.quorum_threshold) {header : Header}
    {headers : List Header} : Reaches committee stake (header :: headers) ↔
      Reaches committee (u32 (stake + committee.stake header.author)) headers := by
  have hsum : ∀ n, u32 (stake + (committee.stake header.author + n)) =
      u32 (u32 (stake + committee.stake header.author) + n) := by
    intro n
    unfold u32
    rw [Nat.mod_add_mod, Nat.add_assoc]
  constructor
  · rintro ⟨first, hfirst, hquorum⟩
    rcases List.prefix_cons_iff.mp hfirst with rfl | ⟨rest, rfl, hrest⟩
    · exact absurd ⟨[], List.nil_prefix, hquorum⟩ (not_reaches_nil h)
    · rw [List.map_cons, List.sum_cons, hsum] at hquorum
      exact ⟨rest, hrest, hquorum⟩
  · rintro ⟨rest, hrest, hquorum⟩
    refine ⟨header :: rest, (List.prefix_cons_inj header).mpr hrest, ?_⟩
    rw [List.map_cons, List.sum_cons, hsum]
    exact hquorum

omit [Crypto] in
theorem reaches_of_quorum {stake : ℕ} (h : committee.quorum_threshold ≤ u32 stake)
    (headers : List Header) : Reaches committee (u32 stake) headers := by
  refine ⟨[], List.nil_prefix, ?_⟩
  simpa [u32] using h

theorem commitsOnHeader_cons {r : ℕ} {e : Event} {events : List Event}
    (hstep : Consensus.step committee gc_depth c e = some c') :
    CommitsOnHeader committee gc_depth r c (e :: events) ↔
      (∃ header, e = .header header ∧
        ∃ new, c'.commits = c.commits ++ new ∧ ∃ k ∈ new, k.leader.round = r) ∨
      CommitsOnHeader committee gc_depth r c' events := by
  constructor
  · rintro ⟨pre, header, post, before, after, heq, hbefore, hafter, hnew⟩
    rcases List.cons_eq_append_iff.mp heq with ⟨rfl, hcons⟩ | ⟨pre', rfl, hrest⟩
    · obtain ⟨rfl, rfl⟩ := List.cons.inj hcons
      cases hbefore
      rw [hafter] at hstep
      cases hstep
      exact Or.inl ⟨header, rfl, hnew⟩
    · rw [List.foldlM_cons, hstep] at hbefore
      exact Or.inr ⟨pre', header, post, before, after, hrest, hbefore, hafter, hnew⟩
  · rintro (⟨header, rfl, hnew⟩ | ⟨pre, header, post, before, after, rfl, hbefore, hrest⟩)
    · exact ⟨[], header, events, c, c', rfl, rfl, hstep, hnew⟩
    · refine ⟨e :: pre, header, post, before, after, rfl, ?_, hrest⟩
      rw [List.foldlM_cons, hstep]
      exact hbefore

theorem not_commitsOnHeader_nil {r : ℕ} : ¬ CommitsOnHeader committee gc_depth r c [] := by
  rintro ⟨pre, header, post, before, after, heq, -⟩
  simp at heq

omit [Crypto] in
theorem Around.regular {r : ℕ} {e : Event} (h : Around committee r e) (hr : r ≠ 0)
    (hfit : r + gc_depth < 2 ^ 64) : e.Regular gc_depth := by
  rintro x rfl
  rcases h with ⟨header, heq, -⟩ | ⟨y, heq, rfl, -⟩
  · cases heq
  · cases heq
    exact ⟨fun h0 => absurd h0 hr, hfit⟩

/-- A certificate of the leader is the entry of its round when it arrives. -/
theorem Counting.leader_of_certificate (h : Counting committee gc_depth c) {x : Certificate}
    (hx : x.origin = committee.leader x.round) (hlt : c.state.last_committed_round < x.round)
    (hfit : x.round + gc_depth < 2 ^ 64)
    (hstep : Consensus.step committee gc_depth c (.certificate x) = some c') :
    c'.state.last_committed_round < x.round ∧
      leader committee x.round c'.state.dag = some (x.digest, x) ∧
      ∀ k, c'.stake_of k = c.stake_of k := by
  have hregular : (Event.certificate x).Regular gc_depth := by
    rintro _ ⟨⟩
    exact ⟨fun h0 => by omega, hfit⟩
  obtain ⟨-, -, hround, hentry⟩ := h.wf.step hregular hstep
  have hbelow := hround x rfl hlt
  refine ⟨hbelow, ?_, ?_⟩
  · change c'.state.dag.entry x.round (committee.leader x.round) = _
    rw [hentry _ _ (Nat.le_of_lt hbelow), State.receive, State.insert_dag_entry, if_pos ⟨rfl, hx.symm⟩]
  · intro k
    rcases Consensus.step_stake_of hstep k with hsame | ⟨header, heq, -⟩
    · exact hsame
    · cases heq

/-- A header of the round after `r` that finds the certificate that it lists adds its stake, and
commits when that makes a quorum. Any other one changes nothing. -/
theorem Counting.of_header (h : Counting committee gc_depth c) {r : ℕ}
    (hlt : c.state.last_committed_round < r) {header : Header} (hround : header.round = r + 1)
    (hstep : Consensus.step committee gc_depth c (.header header) = some c') {entry : Option Digest}
    (hentry : (leader committee r c.state.dag).map (·.1) = entry) :
    entry.any (fun d => d ∈ header.parents) = false ∧ c' = c ∨
    entry.any (fun d => d ∈ header.parents) = true ∧
      (committee.quorum_threshold ≤ u32 (c.stake_of (r + 1) + committee.stake header.author) ∧
          (∃ new, c'.commits = c.commits ++ new ∧ ∃ k ∈ new, k.leader.round = r) ∨
        c'.state = c.state ∧ c'.commits = c.commits ∧
          c'.stake_of (r + 1) = u32 (c.stake_of (r + 1) + committee.stake header.author)) := by
  have hpred : wrapping_pred header.round = r := by
    rw [hround]
    rfl
  subst hentry
  rcases Consensus.header_cases hstep with ⟨hnone, rfl⟩ | ⟨d, x, mid, -, hleader, rfl, hrest⟩
  · rw [hpred] at hnone
    rw [hnone.resolve_left (by omega)]
    exact Or.inl ⟨rfl, rfl⟩
  · rw [hpred] at hleader
    rw [hleader, Option.map_some, Option.any_some]
    by_cases hd : d ∈ header.parents
    · have hstake : (c.count_vote committee header d).stake_of header.round =
          u32 (c.stake_of header.round + committee.stake header.author) := by
        rw [Consensus.count_vote_stake_of hd, if_pos rfl]
      rw [hround] at hstake
      rw [hround, hstake] at hrest
      refine Or.inr ⟨decide_eq_true hd, ?_⟩
      rcases hrest with ⟨hquorum, hcommit⟩ | ⟨-, rfl⟩
      · exact Or.inl ⟨hquorum, (h.wf.of_header_commit hleader hlt hcommit).2.2⟩
      · exact Or.inr ⟨Consensus.count_vote_state header d c,
          Consensus.count_vote_commits header d c, hstake⟩
    · have hsame : c.count_vote committee header d = c := by
        unfold Consensus.count_vote
        rw [if_neg hd]
      have hbelow := h.below r hlt
      rw [hround, hsame] at hrest
      refine Or.inl ⟨decide_eq_false hd, ?_⟩
      rcases hrest with ⟨hquorum, -⟩ | ⟨-, heq⟩
      · omega
      · exact heq

/-- The headers of the round after `r` commit its leader when those that find the certificate that
they list reach a quorum. -/
theorem Counting.commitsOnHeader_iff (h : Counting committee gc_depth c) {r : ℕ}
    (hlt : c.state.last_committed_round < r) (hfit : r + gc_depth < 2 ^ 64) {events : List Event}
    (hall : ∀ e ∈ events, Around committee r e)
    (hrun : events.foldlM (Consensus.step committee gc_depth) c = some c') :
    CommitsOnHeader committee gc_depth r c events ↔
      Reaches committee (c.stake_of (r + 1))
        (votes ((leader committee r c.state.dag).map (·.1)) events) := by
  induction events generalizing c with
  | nil =>
    refine iff_of_false not_commitsOnHeader_nil ?_
    rw [votes]
    exact not_reaches_nil (h.below r hlt)
  | cons e events ih =>
    rw [List.foldlM_cons, Option.bind_eq_bind, Option.bind_eq_some_iff] at hrun
    obtain ⟨mid, hstep, hrun⟩ := hrun
    rw [List.forall_mem_cons] at hall
    have hmid := h.step (hall.1.regular (by omega) hfit) hstep
    rw [commitsOnHeader_cons hstep]
    rcases hall.1 with ⟨header, rfl, hround⟩ | ⟨x, rfl, rfl, hx⟩
    · -- a step without a commit adds nothing to the commits
      have hskip : mid.commits = c.commits → ¬ ∃ header', Event.header header = .header header' ∧
          ∃ new, mid.commits = c.commits ++ new ∧ ∃ k ∈ new, k.leader.round = r := by
        rintro hsame ⟨_, -, new, hnew, k, hk, -⟩
        rw [hsame, List.self_eq_append_right] at hnew
        subst hnew
        cases hk
      rcases h.of_header hlt hround hstep rfl with
        ⟨hany, rfl⟩ | ⟨hany, ⟨hquorum, hnew⟩ | ⟨hstate, hcommits, hstake⟩⟩
      · rw [or_iff_right (hskip rfl), ih h hlt hall.2 hrun, votes, hany]
        rfl
      · rw [votes, if_pos hany, reaches_cons (h.below r hlt)]
        exact iff_of_true (Or.inl ⟨header, rfl, hnew⟩) (reaches_of_quorum hquorum _)
      · rw [or_iff_right (hskip hcommits), ih hmid (by rw [hstate]; exact hlt) hall.2 hrun, votes,
          if_pos hany, reaches_cons (h.below r hlt), hstate, hstake]
    · obtain ⟨hbelow, hleader, hstake⟩ := h.leader_of_certificate hx hlt hfit hstep
      rw [ih hmid hbelow hall.2 hrun, hstake, hleader]
      have hno : ¬ ∃ header, Event.certificate x = .header header ∧ ∃ new,
          mid.commits = c.commits ++ new ∧ ∃ k ∈ new, k.leader.round = x.round := by
        rintro ⟨header, heq, -⟩
        cases heq
      rw [or_iff_right hno]
      rfl

/-- No header commits a leader that is committed already. -/
theorem not_commitsOnHeader_of_le {r : ℕ} (h : r ≠ 0 → Wf gc_depth c.state)
    (hle : r ≤ c.state.last_committed_round) (hfit : r + gc_depth < 2 ^ 64) {events : List Event}
    (hall : ∀ e ∈ events, Around committee r e)
    (hrun : events.foldlM (Consensus.step committee gc_depth) c = some c') :
    ¬ CommitsOnHeader committee gc_depth r c events := by
  induction events generalizing c with
  | nil => exact not_commitsOnHeader_nil
  | cons e events ih =>
    rw [List.foldlM_cons, Option.bind_eq_bind, Option.bind_eq_some_iff] at hrun
    obtain ⟨mid, hstep, hrun⟩ := hrun
    rw [List.forall_mem_cons] at hall
    have hmid : (r ≠ 0 → Wf gc_depth mid.state) ∧ r ≤ mid.state.last_committed_round := by
      by_cases hr : r = 0
      · exact ⟨fun hne => absurd hr hne, by omega⟩
      · obtain ⟨hw, hmono, -⟩ := (h hr).step (hall.1.regular hr hfit) hstep
        exact ⟨fun _ => hw, Nat.le_trans hle hmono⟩
    rw [commitsOnHeader_cons hstep]
    rintro (⟨header, rfl, new, hnew, k, hk, -⟩ | hrest)
    · have hround : header.round = r + 1 := by
        rcases hall.1 with ⟨_, heq, hround⟩ | ⟨x, heq, -⟩
        · cases heq
          exact hround
        · cases heq
      have hpred : wrapping_pred header.round = r := by
        rw [hround]
        rfl
      rcases Consensus.header_cases hstep with ⟨-, rfl⟩ | ⟨d, leader, m, hlt, -⟩
      · rw [List.self_eq_append_right] at hnew
        subst hnew
        cases hk
      · omega
    · exact ih hmid.1 hmid.2 hall.2 hrun hrest

omit [Crypto] in
theorem around_of_perm {r : ℕ} {certificate : Certificate} (hround : certificate.round = r)
    (hleader : certificate.origin = committee.leader r) {headers : List Header}
    (hheaders : ∀ h ∈ headers, h.round = r + 1) {events : List Event}
    (hperm : events.Perm (.certificate certificate :: headers.map .header)) :
    ∀ e ∈ events, Around committee r e := by
  intro e he
  rw [hperm.mem_iff, List.mem_cons, List.mem_map] at he
  rcases he with rfl | ⟨h, hh, rfl⟩
  · exact Or.inr ⟨certificate, rfl, hround, hleader⟩
  · exact Or.inl ⟨h, rfl, hheaders h hh⟩

/-- A state of the consensus that some deliveries reach, where no certificate of round 0 comes with
parents and every round fits. Deliveries in causal order are so: `Causal.regular`. -/
def Reachable (committee : Committee) (gc_depth : ℕ) (c : Consensus) : Prop :=
  gc_depth < 2 ^ 64 ∧ ∃ events, Consensus.run committee gc_depth events = some c ∧
    ∀ e ∈ events, e.Regular gc_depth

/-- The headers of a round and the certificate of their leader, whose round fits, in two orders: a
header commits the leader in both or in neither, just when it is committed already, or the headers
that come after the certificate that they list reach a quorum in both orders or in neither. -/
theorem header_quorum_ignores_the_order_iff (committee : Committee) (gc_depth : ℕ) (c : Consensus)
    (hreach : Reachable committee gc_depth c) (r : ℕ) (certificate : Certificate)
    (hround : certificate.round = r) (hfit : r + gc_depth < 2 ^ 64)
    (hleader : certificate.origin = committee.leader r)
    (headers : List Header) (hheaders : ∀ h ∈ headers, h.round = r + 1)
    (first second : List Event)
    (hfirst : first.Perm (.certificate certificate :: headers.map .header))
    (hsecond : second.Perm (.certificate certificate :: headers.map .header))
    (c₁ c₂ : Consensus) (hrun₁ : first.foldlM (Consensus.step committee gc_depth) c = some c₁)
    (hrun₂ : second.foldlM (Consensus.step committee gc_depth) c = some c₂) :
    let stake := c.stake_of (r + 1)
    let entry := (leader committee r c.state.dag).map (·.1)
    (CommitsOnHeader committee gc_depth r c first ↔ CommitsOnHeader committee gc_depth r c second) ↔
      r ≤ c.state.last_committed_round ∨
        (Reaches committee stake (votes entry first) ↔
          Reaches committee stake (votes entry second)) := by
  intro stake entry
  have haround₁ := around_of_perm hround hleader hheaders hfirst
  have haround₂ := around_of_perm hround hleader hheaders hsecond
  obtain ⟨hdepth, events, hrun, hregular⟩ := hreach
  have hcounting := counting_of_run hdepth hregular hrun
  by_cases hle : r ≤ c.state.last_committed_round
  · refine iff_of_true (iff_of_false ?_ ?_) (Or.inl hle)
    · exact not_commitsOnHeader_of_le (fun _ => hcounting.wf) hle hfit haround₁ hrun₁
    · exact not_commitsOnHeader_of_le (fun _ => hcounting.wf) hle hfit haround₂ hrun₂
  · have hlt : c.state.last_committed_round < r := by omega
    rw [hcounting.commitsOnHeader_iff hlt hfit haround₁ hrun₁,
      hcounting.commitsOnHeader_iff hlt hfit haround₂ hrun₂, or_iff_right hle]

end

/-! ## Three headers around a certificate -/

section

attribute [local instance] crypto.sample

/-- The certificate of the leader of round 1, then the headers of some authors for round 2. -/
def certificate_first (authors : List PublicKey) : List Event :=
  .certificate (first_of 2) :: (authors.map second_of).map .header

def certificate_last (authors : List PublicKey) : List Event :=
  (authors.map second_of).map .header ++ [.certificate (first_of 2)]

theorem reachable_spawn : Reachable .four 50 (Consensus.spawn .four) :=
  ⟨by decide, [], rfl, fun _ he => nomatch he⟩

/-- The certificate comes first, and both orders of the headers commit it. -/
theorem header_quorum_ignores_the_order_iff_certificate_first :
    CommitsOnHeader .four 50 1 (Consensus.spawn .four) (certificate_first [1, 3, 4]) ↔
      CommitsOnHeader .four 50 1 (Consensus.spawn .four) (certificate_first [4, 3, 1]) := by
  have hrun : ∀ authors ∈ [[1, 3, 4], [4, 3, 1]], ((certificate_first authors).foldlM
      (Consensus.step .four 50) (Consensus.spawn .four)).isSome := by
    decide +kernel
  obtain ⟨c₁, hrun₁⟩ := Option.isSome_iff_exists.mp (hrun [1, 3, 4] (by simp))
  obtain ⟨c₂, hrun₂⟩ := Option.isSome_iff_exists.mp (hrun [4, 3, 1] (by simp))
  apply (header_quorum_ignores_the_order_iff .four 50 _ reachable_spawn 1 (first_of 2)
    (by decide +kernel) (by decide) (by decide +kernel) ([1, 3, 4].map second_of)
    (by decide +kernel) _ _ (by decide +kernel) (by decide +kernel) c₁ c₂ hrun₁ hrun₂).mpr
  right
  refine iff_of_true ⟨[1, 3, 4].map second_of, ?_, ?_⟩ ⟨[4, 3, 1].map second_of, ?_, ?_⟩
  all_goals decide +kernel

/-- The headers come first: they are dropped, and no header commits the leader. -/
theorem header_quorum_depends_on_the_order : ¬ ∀ (committee : Committee) (gc_depth : ℕ)
    (c : Consensus), Reachable committee gc_depth c → ∀ (r : ℕ) (certificate : Certificate),
    certificate.round = r → certificate.origin = committee.leader r → ∀ (headers : List Header),
    (∀ h ∈ headers, h.round = r + 1) → (headers.map (·.author)).Nodup →
    ∀ (first second : List Event),
    first.Perm (.certificate certificate :: headers.map .header) →
    second.Perm (.certificate certificate :: headers.map .header) → ∀ (c₁ c₂ : Consensus),
    first.foldlM (Consensus.step committee gc_depth) c = some c₁ →
    second.foldlM (Consensus.step committee gc_depth) c = some c₂ →
    (CommitsOnHeader committee gc_depth r c first ↔
      CommitsOnHeader committee gc_depth r c second) := by
  intro h
  have hsome : ∀ events ∈ [certificate_first [1, 3, 4], certificate_last [1, 3, 4]],
      (events.foldlM (Consensus.step .four 50) (Consensus.spawn .four)).isSome := by
    decide +kernel
  obtain ⟨c₁, hrun₁⟩ := Option.isSome_iff_exists.mp
    (hsome (certificate_first [1, 3, 4]) List.mem_cons_self)
  obtain ⟨c₂, hrun₂⟩ := Option.isSome_iff_exists.mp
    (hsome (certificate_last [1, 3, 4]) (List.mem_cons_of_mem _ List.mem_cons_self))
  have hiff := h .four 50 _ reachable_spawn 1 (first_of 2) (by decide +kernel) (by decide +kernel)
    ([1, 3, 4].map second_of) (by decide +kernel) (by decide +kernel) _ _ (by decide +kernel)
    (by decide +kernel) c₁ c₂ hrun₁ hrun₂
  have haround : ∀ events : List Event,
      events.Perm (.certificate (first_of 2) :: ([1, 3, 4].map second_of).map .header) →
      ∀ e ∈ events, Around .four 1 e := by
    intro events hperm
    exact around_of_perm (by decide +kernel) (by decide +kernel) (by decide +kernel) hperm
  have hspawn : Counting .four 50 (Consensus.spawn .four) := counting_spawn (by decide)
  rw [hspawn.commitsOnHeader_iff (by decide) (by decide) (haround _ (by decide +kernel)) hrun₁,
    hspawn.commitsOnHeader_iff (by decide) (by decide) (haround _ (by decide +kernel)) hrun₂] at hiff
  have hnone : votes ((leader .four 1 (Consensus.spawn .four).state.dag).map (·.1))
      (certificate_last [1, 3, 4]) = [] := by
    decide +kernel
  rw [hnone] at hiff
  refine not_reaches_nil (by decide +kernel) (hiff.mp ⟨[1, 3, 4].map second_of, ?_, ?_⟩)
  all_goals decide +kernel

end

end sailfish.consensus
