-- The law of no double commit: a certificate is in the sequence once, as long as no
-- certificate of the sequence is delivered again once the dag is cleaned of it.
import Mathlib
import Sailfish.Sequence

open Std Relation splits sailfish.crypto sailfish.config sailfish.primary

namespace sailfish.consensus

theorem eq_symm {a b : Certificate} : a.eq b = b.eq a := by
  rw [Bool.eq_iff_iff, Certificate.eq_iff, Certificate.eq_iff]
  exact ⟨fun ⟨h1, h2, h3⟩ => ⟨h1.symm, h2.symm, h3.symm⟩,
    fun ⟨h1, h2, h3⟩ => ⟨h1.symm, h2.symm, h3.symm⟩⟩

section

variable [Crypto] {committee : Committee} {gc_depth : ℕ} {delivered : List Certificate} {s : State}
  {commits : List Commit}

/-! ## One sub-dag -/

theorem digest_eq_of_eq {a b : Certificate} (h : a.eq b = true) : a.digest = b.digest := by
  obtain ⟨hid, hr, ho⟩ := Certificate.eq_iff.mp h
  unfold Certificate.digest
  rw [hid, hr, ho]

/-- The search pops no two certificates that are equal. The leader comes first, and every other
one has a digest of its own and a lower round. -/
theorem State.Pending.popped_pairwise (hw : Wf gc_depth s) {leader : Certificate}
    (h : s.Pending leader) :
    (s.popped leader).Pairwise fun a b => a.2.eq b.2 = false := by
  have hground : leader.round = 0 → leader.header.parents = ∅ := by
    intro h0
    have := h.above
    omega
  have hwalk := s.walk_popped leader
  have hdigest : ∀ x ∈ s.popped leader, x.1 = x.2.digest :=
    fun x hx => (hw.path_of_mem_popped hground hx).1
  generalize s.popped leader = popped at hwalk hdigest
  cases hwalk with
  | @pop _ _ _ rest hrest =>
    rw [traversal.push_eq, List.append_nil, List.append_nil] at hrest
    rw [List.pairwise_cons]
    constructor
    · intro x hx
      obtain ⟨y, hy, hpath⟩ := hrest.reachable hx
      rw [List.mem_reverse] at hy
      obtain ⟨hd, hstep⟩ := hw.step_of_mem_next hground (traversal.mem_of_mem_fresh hy).1
      obtain ⟨-, hsteps⟩ := hw.steps_of_next hd (hw.grounded _ _ _ _ hstep.1.2.2) hpath
      have hle := layered.rank_le_of_path Dag.round_of_edge (State.path_of_steps hsteps)
      have hlt := hstep.1.1
      rw [Bool.eq_false_iff]
      intro heq
      have := (Certificate.eq_iff.mp heq).2.1
      omega
    · have hnodup : (rest.map Prod.fst).Nodup := by
        refine (hrest.nodup ?_ ?_).1
        · intro a ha
          rw [List.mem_reverse] at ha ⊢
          exact List.mem_map_of_mem ha
        · rw [List.map_reverse, List.nodup_reverse]
          exact traversal.nodup_map_fresh _ _
      rw [List.Nodup, List.pairwise_map] at hnodup
      refine hnodup.imp_of_mem ?_
      intro a b ha hb hne
      rw [Bool.eq_false_iff]
      intro heq
      apply hne
      rw [hdigest a (List.mem_cons_of_mem _ ha), hdigest b (List.mem_cons_of_mem _ hb)]
      exact digest_eq_of_eq heq

theorem State.Pending.order_dag_pairwise (hw : Wf gc_depth s) {leader : Certificate}
    (h : s.Pending leader) :
    (order_dag leader gc_depth s).Pairwise fun a b => a.eq b = false := by
  have hsymm : ∀ {a b : Certificate}, a.eq b = false → b.eq a = false := by
    intro a b hab
    rw [eq_symm, hab]
  unfold order_dag
  rw [(List.perm_insertionSort _ _).pairwise_iff hsymm]
  apply List.Pairwise.filter
  rw [List.pairwise_map]
  exact h.popped_pairwise hw

/-! ## The sequence -/

/-- A delivery is fresh when it is not a certificate of the sequence that the dag is cleaned of. -/
def Fresh (s : State) (commits : List Commit) (c : Certificate) : Prop :=
  ∀ o ∈ output commits, o.eq c = true → s.last c.origin ≤ c.round

/-- With fresh deliveries, no two certificates of the sequence are equal. -/
theorem Trace.output_pairwise (h : Trace committee gc_depth Fresh delivered s commits) :
    (output commits).Pairwise fun a b => a.eq b = false := by
  induction h with
  | spawn => exact List.Pairwise.nil
  | deliver _ _ _ ih => exact ih
  | @commit _ s commits leader htrace hp ih =>
    have hw := htrace.wf
    rw [output_append, output_singleton, List.pairwise_append]
    refine ⟨ih, hp.order_dag_pairwise hw, ?_⟩
    intro o ho c hm
    rw [Bool.eq_false_iff]
    intro heq
    obtain ⟨-, hr, hn⟩ := Certificate.eq_iff.mp heq
    obtain ⟨-, -, hentry, hcases⟩ := hp.of_mem_order_dag hw hm
    have hle := htrace.last_le_of_entry (Q := fun ks c => ∃ o ∈ output ks, o.eq c = true)
      (fun _ _ _ _ _ _ hfresh ⟨o, ho, heq⟩ => hfresh o ho heq) hentry ⟨o, ho, heq⟩
    have hcommitted := htrace.committed_of_output ho
    rw [hr, hn] at hcommitted
    rcases hcases with rfl | ⟨-, hopen⟩
    · have h1 := hcommitted.le_last
      have h2 := hw.latest.le c.origin
      have h3 := hp.above
      omega
    · have := hcommitted.lt_last hopen
      omega

/-- For every run on certificates in any order, any number of times, where those of round 0 list no
parents and the rounds fit: no two certificates of the sequence are equal, when no certificate of
the sequence is delivered again while a later round of its author is committed. -/
theorem no_certificate_is_committed_twice (committee : Committee) (gc_depth : ℕ)
    (events : List Event) (c : Consensus)
    (hground : ∀ x ∈ certificates events, x.round = 0 → x.header.parents = ∅)
    (hfit : RoundsFit gc_depth (certificates events))
    (hfresh : Each (fun pre e => ∀ x before, e = .certificate x →
      Consensus.run committee gc_depth pre = some before →
      ∀ o ∈ before.output, o.eq x = true → before.state.last x.origin ≤ x.round) events)
    (hrun : Consensus.run committee gc_depth events = some c) :
    c.output.Pairwise fun a b => a.eq b = false :=
  (trace_of_run hfit.1 (fun x hx => ⟨hground x hx, hfit.2 x hx⟩) hfresh hrun).output_pairwise

end

/-! ## Two runs -/

section

attribute [local instance] crypto.sample

/-- Authority 2 leads the odd rounds, and is a quorum on its own. -/
def two : Committee := .sample [(1, 1), (2, 3)] (by simp)

def heavy1 : Certificate := .sample 2 1 [.genesis_of 2]
def heavy2 : Certificate := .sample 2 2 [heavy1]
def heavy3 : Certificate := .sample 2 3 [heavy2]
def heavy4 : Certificate := .sample 2 4 [heavy3]

/-- The certificate of round 1 comes again while it is the last committed one of its author. -/
def fresh_again : List Event := [heavy1, heavy2, heavy1, heavy3, heavy4].map .certificate

def fresh_again_state : Consensus := (Consensus.run two 50 fresh_again).get (by decide +kernel)

/-- The condition on the deliveries, in one pass over them. -/
def fresh_deliveries (committee : Committee) (gc_depth : ℕ) (events : List Event) : Bool :=
  each (fun pre e => match e, Consensus.run committee gc_depth pre with
    | .certificate x, some before =>
      before.output.all fun o => !o.eq x || before.state.last x.origin ≤ x.round
    | _, _ => true) [] events

theorem fresh_of_check {committee : Committee} {gc_depth : ℕ} {events : List Event}
    (h : fresh_deliveries committee gc_depth events = true) :
    Each (fun pre e => ∀ x before, e = .certificate x →
      Consensus.run committee gc_depth pre = some before →
      ∀ o ∈ before.output, o.eq x = true → before.state.last x.origin ≤ x.round) events := by
  unfold fresh_deliveries at h
  rw [each_iff] at h
  refine h.imp ?_
  rintro pre e he x before rfl hrun o ho heq
  simp only [List.nil_append, hrun, List.all_eq_true, Bool.or_eq_true, Bool.not_eq_true',
    decide_eq_true_eq] at he
  rcases he o ho with hn | hle
  · rw [heq] at hn
    cases hn
  · exact hle

theorem no_certificate_is_committed_twice_fresh_again :
    fresh_again_state.output = [heavy1, heavy2, heavy3] ∧
      fresh_again_state.output.Pairwise fun a b => a.eq b = false :=
  ⟨by decide +kernel, no_certificate_is_committed_twice two 50 fresh_again fresh_again_state
    (by decide +kernel) (by decide +kernel) (fresh_of_check (by decide +kernel))
    (by simp [fresh_again_state])⟩

/-- The certificate of round 1 comes again once round 3 of its author is committed. The late
certificates of authority 1 reach it. -/
def late_again : List Certificate :=
  let light2 := .sample 1 2 [heavy1]
  let light3 := .sample 1 3 [heavy2, light2]
  let light4 := .sample 1 4 [heavy3, light3]
  [heavy1, heavy2, heavy3, heavy4, heavy1, light2, light3, light4, .sample 2 5 [heavy4, light4]]

theorem late_again_is_committed_twice :
    Causal two (certificates (late_again.map .certificate)) ∧
      ∃ c, Consensus.run two 50 (late_again.map .certificate) = some c ∧
        c.output.count heavy1 = 2 ∧ ¬ c.output.Pairwise fun a b => a.eq b = false :=
  ⟨by decide +kernel, (Consensus.run two 50 (late_again.map .certificate)).get
    (by decide +kernel), by simp, by decide +kernel, by decide +kernel⟩

end

end sailfish.consensus
