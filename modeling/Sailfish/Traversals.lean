-- What the traversals compute on any dag that files its certificates: `order_dag`
-- the sub-dag of a leader that is not committed yet, `linked` the paths between two
-- certificates, and `order_leaders` the greedy chain of linked leaders.
import Mathlib
import Sailfish.Dependencies
import Sailfish.CommitState
import Sailfish.LeaderReachability

open Std Relation sailfish.crypto sailfish.config sailfish.primary

namespace sailfish.consensus

section

variable [Crypto] {s : State} {leader : Certificate} {gc_depth : ℕ}

/-! ## The sub-dag of a leader -/

/-- The search pops the leader first, then certificates of lower rounds with distinct digests. -/
theorem Dag.Filed.popped_nodup (h : s.dag.Filed)
    (hground : ∀ x, x = leader ∨ s.dag.Has x → s.dag.Grounded x) :
    ((s.popped leader).map (·.2)).Nodup := by
  obtain ⟨rest, heq, hnd, hreach⟩ := (s.walk_popped leader).from_one
  have hrest : ∀ x ∈ rest, x.1 = x.2.digest ∧ x.2.round < leader.round := by
    intro x hx
    obtain ⟨y, hy, hpath⟩ := hreach x hx
    obtain ⟨hdy, hstep⟩ := h.step_of_mem_next (hground leader (Or.inl rfl)) hy
    have hbelow : ∀ c, c = y.2 ∨ s.dag.Has c → s.dag.Grounded c := by
      rintro c (rfl | hc)
      · exact hground _ (Or.inr hstep.1.2.2)
      · exact hground c (Or.inr hc)
    obtain ⟨hdx, hsteps⟩ := h.steps_of_next hbelow hdy hpath
    have hle := layered.rank_le_of_path Dag.round_of_edge (State.path_of_steps hsteps)
    have hr : y.2.round + 1 = leader.round := hstep.1.1
    exact ⟨hdx, by omega⟩
  rw [heq, List.map_cons, List.nodup_cons]
  constructor
  · intro hm
    obtain ⟨x, hx, hxl⟩ := List.mem_map.mp hm
    have := (hrest x hx).2
    rw [hxl] at this
    exact Nat.lt_irrefl _ this
  · rw [List.nodup_map_iff_inj_on (List.Nodup.of_map _ hnd)]
    intro x hx y hy hxy
    apply List.inj_on_of_nodup_map hnd hx hy
    rw [(hrest x hx).1, (hrest y hy).1, hxy]

theorem Dag.Filed.order_dag_nodup (h : s.dag.Filed)
    (hground : ∀ x, x = leader ∨ s.dag.Has x → s.dag.Grounded x) :
    (order_dag leader gc_depth s).Nodup := by
  unfold order_dag
  rw [(List.perm_insertionSort _ _).nodup_iff]
  exact (h.popped_nodup hground).filter _

/-- On a dag with one certificate for each digest, `order_dag` ends, and it returns each
certificate once, in the order of the rounds: the leader and what it reaches through parents that
are not committed yet, as far as the garbage collector leaves it. A certificate of round 0 must not
list a parent of the round that `x.round() - 1` wraps to. -/
theorem order_dag_returns_the_uncommitted_sub_dag (s : State) (leader : Certificate) (gc_depth : ℕ)
    (hfiled : s.dag.Filed) (hdistinct : s.dag.Distinct)
    (hground : ∀ x, x = leader ∨ s.dag.Has x → s.dag.Grounded x) :
    traversal.Walk s.next Prod.fst [(leader.digest, leader)] [] (s.popped leader) ∧
    (order_dag leader gc_depth s).Nodup ∧
    (order_dag leader gc_depth s).Pairwise (fun a b => a.round ≤ b.round) ∧
    ∀ c, c ∈ order_dag leader gc_depth s ↔
      ReflTransGen s.Step leader c ∧
        s.last_committed_round ≤ wrapping_add c.round gc_depth :=
  ⟨s.walk_popped leader, hfiled.order_dag_nodup hground, order_dag_sorted,
    fun _ => hfiled.mem_order_dag_iff hdistinct hground⟩

end

section

attribute [local instance] crypto.sample

/-- A node that received one certificate, of the last round. -/
def last_round_state : State :=
  (State.new (Certificate.genesis .four)).insert (.sample 1 (2 ^ 64 - 1) [])

/-- A certificate of round 0 that lists the one of the last round. -/
def wrapped : Certificate := .sample 2 0 [.sample 1 (2 ^ 64 - 1) []]

/-- A node that committed a leader of round 60. -/
def round_sixty_state : State :=
  { State.new (Certificate.genesis .four) with last_committed_round := 60 }

/-- The subtraction wraps at round 0: a certificate of the last round, which no path reaches, comes
out as a part of the sub-dag of `wrapped`. The sum of the filter wraps too: a leader of the last
round does not come out itself. -/
theorem order_dag_wraps :
    (¬ ∀ (s : State) (leader : Certificate) (gc_depth : ℕ), s.dag.Filed → s.dag.Distinct →
      traversal.Walk s.next Prod.fst [(leader.digest, leader)] [] (s.popped leader) ∧
      (order_dag leader gc_depth s).Nodup ∧
      (order_dag leader gc_depth s).Pairwise (fun a b => a.round ≤ b.round) ∧
      ∀ c, c ∈ order_dag leader gc_depth s ↔
        ReflTransGen s.Step leader c ∧
          s.last_committed_round ≤ wrapping_add c.round gc_depth) ∧
    ∃ (s : State) (leader : Certificate), s.dag.Filed ∧ s.dag.Distinct ∧
      s.last_committed_round ≤ leader.round + 50 ∧ leader ∉ order_dag leader 50 s := by
  have hnew : Wf 0 (State.new (Certificate.genesis .four)) := wf_new (by decide)
  refine ⟨fun h => ?_, round_sixty_state, .sample 1 (2 ^ 64 - 1) [], hnew.filed, by decide +kernel,
    by decide +kernel, by decide +kernel⟩
  have hfiled : last_round_state.dag.Filed :=
    (hnew.insert (fun h0 => absurd h0 (by decide)) (by decide)).filed
  obtain ⟨-, -, -, hiff⟩ := h last_round_state wrapped 50 hfiled (by decide +kernel)
  have hmem : Certificate.sample 1 (2 ^ 64 - 1) [] ∈ order_dag wrapped 50 last_round_state := by
    decide +kernel
  have hpath := State.path_of_steps ((hiff _).mp hmem).1
  have hle := layered.rank_le_of_path Dag.round_of_edge hpath
  exact absurd hle (by decide)

theorem half_seen_wf : Wf 50 half_seen_state.state := by
  have hcausal : Causal .four (certificates (half_seen.map .certificate)) := by
    rw [certificates_map]
    decide +kernel
  have hfit : RoundsFit 50 (certificates (half_seen.map .certificate)) := by
    rw [certificates_map]
    decide +kernel
  have hrun : Consensus.run .four 50 (half_seen.map .certificate) = some half_seen_state := by
    simp [half_seen_state]
  exact (any_trace_of_run hcausal hfit hrun).wf

theorem order_dag_returns_the_uncommitted_sub_dag_half_seen :
    (order_dag (second_round 4 [1, 3, 4]) 50 half_seen_state.state).Nodup ∧
    ∀ c, c ∈ order_dag (second_round 4 [1, 3, 4]) 50 half_seen_state.state ↔
      ReflTransGen half_seen_state.state.Step (second_round 4 [1, 3, 4]) c ∧
        half_seen_state.state.last_committed_round ≤ wrapping_add c.round 50 := by
  have h := order_dag_returns_the_uncommitted_sub_dag half_seen_state.state
    (second_round 4 [1, 3, 4]) 50 half_seen_wf.filed (by decide +kernel)
    (by
      rintro x (rfl | hx)
      · exact Dag.grounded_of_empty fun h0 => absurd h0 (by decide)
      · exact Dag.grounded_of_empty (half_seen_wf.grounded _ _ _ _ hx))
  exact ⟨h.2.1, h.2.2.2⟩

end

/-! ## The chain of linked leaders -/

section

variable [Crypto] {s : State} {leader : Certificate} {committee : Committee}

/-- For a round that the chain leaves out, the last leader above it is not linked to the one of
that round. -/
theorem Dag.Filed.linked_skip (h : s.dag.Filed) {floor : ℕ} {older : List Certificate}
    (hchain : s.dag.Chain committee floor leader older) {r : ℕ} (hfloor : floor < r)
    (hr : r < leader.round) (hout : ∀ x ∈ older, x.round ≠ r)
    (hlayers : ∀ k, floor < k → k < leader.round → (s.dag[k]?).isSome) :
    ∃ pre last post, leader :: older = pre ++ last :: post ∧ r < last.round ∧
      (∀ x ∈ post, x.round < r) ∧
      ∀ p, consensus.leader committee r s.dag = some p → linked last p.2 s.dag = some false := by
  obtain ⟨pre, last, post, heq, hlast, hpost, hnone⟩ := hchain.skip hfloor hr hout
  refine ⟨pre, last, post, heq, hlast, hpost, ?_⟩
  rintro ⟨d, p⟩ hp
  obtain ⟨hd, hpr, -, hself⟩ := h.leader_self hp
  simp only at hd hpr hself ⊢
  have hle : last.round ≤ leader.round := by
    have hm : last ∈ leader :: older := by
      rw [heq]
      exact List.mem_append_right _ List.mem_cons_self
    rcases List.mem_cons.mp hm with rfl | hm
    · exact Nat.le_refl _
    · exact Nat.le_of_lt (hchain.rank_bounds hm).2
  have hsome : (linked last p s.dag).isSome :=
    linked_isSome fun k h1 h2 => hlayers k (by omega) (by omega)
  obtain ⟨v, hv⟩ := Option.isSome_iff_exists.mp hsome
  cases v with
  | false => exact hv
  | true =>
    have hpath := (h.linked_iff (by omega) hself hv).mp rfl
    exact absurd hpr (hnone p ⟨by rw [hpr, hp, hd], hpath⟩)

/-- `linked` says whether a path goes down to a certificate that equals the older one, and
`order_leaders` returns the leader, then the leaders that a descent takes: each one is linked to
the one before it, and a round without one has no certificate of its leader, or only one that the
last leader taken is not linked to. -/
theorem order_leaders_returns_the_linked_chain (committee : Committee) (s : State)
    (hfiled : s.dag.Filed) :
    (∀ a b : Certificate, (∀ r, b.round ≤ r → r < a.round → (s.dag[r]?).isSome) →
      ∃ v, linked a b s.dag = some v ∧ (v = true ↔ ∃ y, s.dag.Path a y ∧ b.eq y = true)) ∧
    ∀ leader : Certificate, s.last_committed_round < leader.round →
      (∀ r, s.last_committed_round < r → r < leader.round → (s.dag[r]?).isSome) →
      ∃ older, order_leaders committee leader s = some (leader :: older) ∧
        (leader :: older).Pairwise (fun a b => b.round < a.round) ∧
        (∀ x ∈ leader :: older, s.last_committed_round < x.round) ∧
        (∀ x ∈ older, consensus.leader committee x.round s.dag = some (x.digest, x)) ∧
        (leader :: older).IsChain (fun a b => linked a b s.dag = some true) ∧
        ∀ r, s.last_committed_round < r → r < leader.round → (∀ x ∈ older, x.round ≠ r) →
          ∃ pre last post, leader :: older = pre ++ last :: post ∧ r < last.round ∧
            (∀ x ∈ post, x.round < r) ∧
            ∀ p, consensus.leader committee r s.dag = some p →
              linked last p.2 s.dag = some false := by
  constructor
  · intro a b hlayers
    obtain ⟨v, hv⟩ := Option.isSome_iff_exists.mp (linked_isSome hlayers)
    exact ⟨v, hv, hfiled.linked_iff_path hv⟩
  · intro leader hlt hlayers
    obtain ⟨leaders, hleaders⟩ := Option.isSome_iff_exists.mp
      (hfiled.order_leaders_isSome hlt hlayers : (order_leaders committee leader s).isSome)
    obtain ⟨older, rfl, hchain⟩ := hfiled.chain_of_order_leaders hlt hleaders
    refine ⟨older, hleaders, hchain.pairwise, ?_, ?_, ?_, ?_⟩
    · rw [List.forall_mem_cons]
      exact ⟨hlt, fun x hx => (hchain.rank_bounds hx).1⟩
    · intro x hx
      obtain ⟨_, -, hlink⟩ := hchain.exists_link hx
      exact hlink.1
    · apply hchain.isChain.imp
      rintro a b ⟨hlink, hlt⟩
      exact hfiled.linked_of_path hlt hlink.2
    · intro r hfloor hr hout
      exact hfiled.linked_skip hchain hfloor hr hout hlayers

end

section

attribute [local instance] crypto.sample

/-- The certificate of authority 2 in round 2 does not list the leader of round 1. -/
theorem order_leaders_returns_the_linked_chain_half_seen :
    ∃ older, order_leaders .four (second_round 2 [1, 3, 4]) half_seen_state.state =
        some (second_round 2 [1, 3, 4] :: older) ∧
      (∀ x ∈ older, leader .four x.round half_seen_state.state.dag = some (x.digest, x)) ∧
      linked (second_round 2 [1, 3, 4]) (second_round 2 [1, 3, 4]) half_seen_state.state.dag =
        some true := by
  obtain ⟨hlinked, hchain⟩ := order_leaders_returns_the_linked_chain .four half_seen_state.state
    half_seen_wf.filed
  obtain ⟨v, hv, hiff⟩ := hlinked (second_round 2 [1, 3, 4]) (second_round 2 [1, 3, 4])
    (fun r h1 h2 => by omega)
  obtain ⟨older, horder, -, -, hleader, -⟩ := hchain (second_round 2 [1, 3, 4])
    (by decide +kernel) (fun r h1 h2 => by
      have hr : r = 1 := by
        have : (second_round 2 [1, 3, 4]).round = 2 := rfl
        omega
      subst hr
      decide +kernel)
  rw [hv, hiff.mpr ⟨_, .refl, Certificate.eq_refl _⟩]
  exact ⟨older, horder, hleader, rfl⟩

end

end sailfish.consensus
