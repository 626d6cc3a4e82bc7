-- The sequence of certificates that a trace commits, beside the last committed
-- rounds: what is in the sequence is committed for its author, and what is
-- committed for an author is in the sequence.
import Mathlib
import Sailfish.Trace

open Std Relation splits sailfish.crypto sailfish.config sailfish.primary

namespace sailfish.consensus

/-- The certificates that a list of commits adds to the sequence. -/
def output (commits : List Commit) : List Certificate := commits.flatMap (·.block)

theorem mem_output {commits : List Commit} {c : Certificate} :
    c ∈ output commits ↔ ∃ k ∈ commits, c ∈ k.block := List.mem_flatMap

@[simp] theorem output_append (l l' : List Commit) : output (l ++ l') = output l ++ output l' :=
  List.flatMap_append

@[simp] theorem output_singleton (k : Commit) : output [k] = k.block := by simp [output]

/-! ## Committed rounds -/

namespace State

/-- A round from `r` on is committed for the author. -/
def Committed (s : State) (n : PublicKey) (r : ℕ) : Prop :=
  ∃ lc, s.last_committed[n]? = some lc ∧ r ≤ lc

variable {s : State} {n : PublicKey} {r : ℕ} {c : Certificate} {block : List Certificate}
  {gc_depth : ℕ}

theorem Committed.le_last (h : s.Committed n r) : r ≤ s.last n := by
  obtain ⟨lc, hlc, hr⟩ := h
  unfold last
  rw [hlc]
  exact hr

theorem update_committed : (s.update c gc_depth).Committed n r ↔
    s.Committed n r ∨ c.origin = n ∧ r ≤ c.round := by
  unfold Committed
  rw [update_last_committed]
  by_cases h : n = c.origin
  · subst h
    rcases hlc : s.last_committed[c.origin]? with _ | lc
    · simp [last, hlc]
    · simp [last, hlc]
  · simp [h, Ne.symm h]

theorem after_committed : (s.after block gc_depth).Committed n r ↔
    s.Committed n r ∨ ∃ c ∈ block, c.origin = n ∧ r ≤ c.round := by
  induction block generalizing s with
  | nil => simp [after]
  | cons c block ih =>
    rw [after_cons, ih, update_committed, or_assoc]
    simp

/-- An author whose round `r` is committed already, in an entry of the dag that the search may
go on to, has a later round committed. -/
theorem Committed.lt_last (h : s.Committed n r) (hopen : s.last_committed[n]? ≠ some r) :
    r < s.last n := by
  obtain ⟨lc, hlc, hr⟩ := h
  unfold last
  rw [hlc] at hopen ⊢
  exact Nat.lt_of_le_of_ne hr fun heq => hopen (by rw [heq]; rfl)

end State

section

variable [Crypto] {committee : Committee} {gc_depth : ℕ}
  {Ok : State → List Commit → Certificate → Prop} {delivered : List Certificate} {s : State}
  {commits : List Commit}

/-! ## The parts of a trace -/

/-- A trace stops just before each of its commits. -/
theorem Trace.before (h : Trace committee gc_depth Ok delivered s commits) :
    Each (fun pre k => ∃ first, first <+: delivered ∧
      Trace committee gc_depth Ok first k.before pre ∧ k.before.Pending k.leader ∧
      k.block = order_dag k.leader gc_depth k.before) commits := by
  induction h with
  | spawn => exact each_nil
  | deliver _ _ _ ih =>
    refine ih.imp ?_
    rintro pre k ⟨first, hfirst, hrest⟩
    exact ⟨first, hfirst.trans (List.prefix_append _ _), hrest⟩
  | @commit delivered _ _ _ htrace hp ih =>
    exact ih.concat ⟨delivered, List.prefix_refl _, htrace, hp, rfl⟩

/-- The last committed round is the round of the last leader, and it rises with each commit. -/
theorem Trace.leader_round_le (h : Trace committee gc_depth Ok delivered s commits)
    {k : Commit} (hk : k ∈ commits) :
    k.floor < k.leader.round ∧ k.leader.round ≤ s.last_committed_round := by
  induction h with
  | spawn => cases hk
  | deliver _ _ _ ih => exact ih hk
  | @commit _ s _ leader htrace hp ih =>
    have hround := hp.last_committed_round_after htrace.wf
    have habove := hp.above
    rcases List.mem_append.mp hk with hk | hk
    · have := ih hk
      omega
    · rw [List.mem_singleton] at hk
      subst hk
      exact ⟨habove, Nat.le_of_eq hround.symm⟩

/-! ## The sequence and the last committed rounds -/

/-- What is in the sequence is committed for its author. -/
theorem Trace.committed_of_output (h : Trace committee gc_depth Ok delivered s commits)
    {c : Certificate} (hc : c ∈ output commits) : s.Committed c.origin c.round := by
  induction h with
  | spawn => cases hc
  | deliver _ _ _ ih => exact ih hc
  | commit _ _ ih =>
    rw [State.after_committed]
    rw [output_append, output_singleton, List.mem_append] at hc
    rcases hc with hc | hc
    · exact Or.inl (ih hc)
    · exact Or.inr ⟨c, hc, rfl, Nat.le_refl _⟩

/-- The last committed round of an author is the one of a certificate of the sequence. -/
theorem Trace.output_of_last (h : Trace committee gc_depth Ok delivered s commits) {n : PublicKey}
    (hn : 0 < s.last n) : ∃ c ∈ output commits, c.origin = n ∧ c.round = s.last n := by
  induction h with
  | spawn =>
    unfold State.last at hn
    rw [State.new_last_committed] at hn
    split at hn <;> simp at hn
  | deliver _ _ _ ih => exact ih hn
  | @commit _ s _ leader _ _ ih =>
    set s' := s.after (order_dag leader gc_depth s) gc_depth with hs'
    have hle : s.last n ≤ s'.last n := (State.after_last_le.mp (Nat.le_refl (s'.last n))).1
    rw [output_append, output_singleton]
    by_cases hnew : s'.last n ≤ s'.last n - 1
    · omega
    · rw [hs', State.after_last_le, not_and_or] at hnew
      rw [← hs'] at hnew
      rcases hnew with hold | hnew
      · obtain ⟨c, hc, hcn, hcr⟩ := ih (by omega)
        exact ⟨c, List.mem_append_left _ hc, hcn, by omega⟩
      · push Not at hnew
        obtain ⟨c, hc, hcn, hcr⟩ := hnew
        have hmax := (State.after_last_le.mp (Nat.le_refl (s'.last n))).2 c hc hcn
        exact ⟨c, List.mem_append_right _ hc, hcn, by omega⟩

/-- A commit keeps an entry of the dag only when no later round of its author is committed. So
this holds of every entry that no delivery brings later. -/
theorem Trace.last_le_of_entry {Q : List Commit → Certificate → Prop}
    (h : Trace committee gc_depth Ok delivered s commits)
    (hQ : ∀ pre s' ks c, pre ++ [c] <+: delivered → Trace committee gc_depth Ok pre s' ks →
      Ok s' ks c → Q ks c → s'.last c.origin ≤ c.round) {r : ℕ} {n : PublicKey} {d : Digest}
    {c : Certificate} (hentry : s.dag.entry r n = some (d, c)) (hq : Q commits c) :
    s.last c.origin ≤ c.round := by
  induction h with
  | spawn =>
    unfold State.last
    rw [State.new_last_committed]
    split <;> exact Nat.zero_le _
  | @deliver l s commits _ htrace _ hok ih =>
    rw [State.insert_dag_entry] at hentry
    split at hentry
    · cases hentry
      exact hQ l s commits _ (List.prefix_refl _) htrace hok hq
    · refine ih ?_ hentry hq
      intro pre s' ks c hpre
      exact hQ pre s' ks c (hpre.trans (List.prefix_append _ _))
  | @commit _ s _ leader htrace hp _ =>
    have hw := htrace.wf
    have hne : order_dag leader gc_depth s ≠ [] := List.ne_nil_of_mem (hp.mem_order_dag hw)
    rw [State.after_dag_entry hne] at hentry
    split at hentry
    · rename_i hkept
      obtain ⟨-, hr, hn⟩ := hw.filed _ _ _ _ hentry
      rw [hr, hn]
      exact hkept.1
    · cases hentry

/-- Every authority of the committee has a last committed round. -/
theorem Trace.tracked (h : Trace committee gc_depth Ok delivered s commits) {n : PublicKey}
    (hn : n ∈ committee.authorities) : s.Committed n 0 := by
  induction h with
  | spawn =>
    refine ⟨0, ?_, Nat.le_refl 0⟩
    rw [State.new_last_committed, if_pos hn]
  | deliver _ _ _ ih => exact ih
  | commit _ _ ih => exact State.after_committed.mpr (Or.inl ih)

end

end sailfish.consensus
