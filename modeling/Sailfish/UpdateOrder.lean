-- The law of the cleanup of the dag: the updates of some certificates are a filter. It does
-- not matter in which order the certificates come, how often, and in which order the loop
-- of `update` goes through the hash map of the last committed rounds.
import Mathlib
import Sailfish.CommitState

open Std sailfish.crypto sailfish.config sailfish.primary

namespace sailfish.consensus

/-! ## Dags by their entries -/

theorem Dag.ext_entry {dag dag' : Dag} (h : dag.NoEmptyLayer) (h' : dag'.NoEmptyLayer)
    (heq : ∀ r n, dag.entry r n = dag'.entry r n) : dag = dag' :=
  ExtTreeMap.ext_getElem? fun r => h.layer_eq h' (heq r)

namespace State

variable {s s' : State} {c : Certificate} {gc_depth : ℕ} {block : List Certificate}
  {order : List (PublicKey × ℕ)}

/-- `update`, with the order in which its loop goes through `last_committed`. -/
def update_in (s : State) (certificate : Certificate) (gc_depth : ℕ)
    (order : List (PublicKey × ℕ)) : State :=
  let updated := s.update certificate gc_depth
  { updated with dag := order.foldl (fun dag (name, round) =>
      dag.retain name round gc_depth updated.last_committed_round) s.dag }

theorem update_in_eq (h : order.Perm (s.update c gc_depth).last_committed.toList) :
    s.update_in c gc_depth order = s.update c gc_depth := by
  have hne : (s.update c gc_depth).last_committed.toList ≠ [] := by
    have hmem : (s.update c gc_depth).last_committed[c.origin]? =
        some (max (s.last c.origin) c.round) := by
      rw [update_last_committed, if_pos rfl]
    exact List.ne_nil_of_mem (ExtTreeMap.mem_toList_iff_getElem?_eq_some.mpr hmem)
  have horder : order ≠ [] := fun hnil => hne (List.nil_perm.mp (hnil ▸ h))
  have hdag : (s.update_in c gc_depth order).dag = (s.update c gc_depth).dag := by
    apply Dag.ext_entry (Dag.foldl_retain_noEmptyLayer horder _ _ _) update_noEmptyLayer
    intro r n
    have hkept := Dag.foldl_retain_entry order gc_depth
      (s.update c gc_depth).last_committed_round s.dag r n
    have hsorted := Dag.foldl_retain_entry (s.update c gc_depth).last_committed.toList gc_depth
      (s.update c gc_depth).last_committed_round s.dag r n
    simp only [h.mem_iff, horder, ne_eq, not_false_eq_true, forall_const] at hkept
    simp only [hne, ne_eq, not_false_eq_true, forall_const] at hsorted
    exact hkept.trans hsorted.symm
  unfold update_in at hdag ⊢
  dsimp only at hdag ⊢
  rw [hdag]

/-- The updates of some certificates, one after the other, whatever the orders of the loops. -/
inductive Updates (gc_depth : ℕ) : State → List Certificate → State → Prop
  | nil (s : State) : Updates gc_depth s [] s
  | cons {s s' : State} {c : Certificate} {block : List Certificate}
      {order : List (PublicKey × ℕ)} :
      order.Perm (s.update c gc_depth).last_committed.toList →
      Updates gc_depth (s.update_in c gc_depth order) block s' → Updates gc_depth s (c :: block) s'

theorem updates_iff : Updates gc_depth s block s' ↔ s' = s.after block gc_depth := by
  constructor
  · intro h
    induction h with
    | nil => rfl
    | cons horder _ ih =>
      rw [ih, update_in_eq horder]
      rfl
  · rintro rfl
    induction block generalizing s with
    | nil => exact .nil s
    | cons c block ih =>
      refine .cons (.refl _) ?_
      rw [update_in_eq (.refl _)]
      exact ih

/-- What the updates of some certificates should give. -/
structure Filtered (gc_depth : ℕ) (s : State) (block : List Certificate) (s' : State) : Prop where
  /-- The last committed rounds are the maxima of those before and the certificates' rounds. -/
  last_committed : ∀ n, s'.last_committed[n]? = ((s.last_committed[n]?).toList ++
    (block.filter (·.origin = n)).map (·.round)).max?
  last_committed_round : s'.Greatest
  /-- The dag keeps exactly the entries that are recent enough for their author and for all. -/
  dag : ∀ r n x, s'.dag.entry r n = some x ↔ s.dag.entry r n = some x ∧
    (∀ last, s'.last_committed[n]? = some last → last ≤ r) ∧
      s'.last_committed_round ≤ wrapping_add r gc_depth
  no_empty_round : s'.dag.NoEmptyLayer

theorem after_last_committed (n : PublicKey) : (s.after block gc_depth).last_committed[n]? =
    ((s.last_committed[n]?).toList ++ (block.filter (·.origin = n)).map (·.round)).max? := by
  induction block generalizing s with
  | nil =>
    rcases hn : s.last_committed[n]? with _ | r
    · simpa [after] using hn
    · simpa [after] using hn
  | cons c block ih =>
    rw [after_cons, ih, update_last_committed]
    by_cases hn : n = c.origin
    · subst hn
      have hfilter : (c :: block).filter (·.origin = c.origin) =
          c :: block.filter (·.origin = c.origin) := List.filter_cons_of_pos (by simp)
      rw [if_pos rfl, hfilter, last]
      rcases s.last_committed[c.origin]? with _ | r
      · simp
      · rfl
    · have hfilter : (c :: block).filter (·.origin = n) = block.filter (·.origin = n) :=
        List.filter_cons_of_neg (by simpa using Ne.symm hn)
      rw [if_neg hn, hfilter]

theorem after_latest_of_ne_nil (hb : block ≠ []) : (s.after block gc_depth).Latest := by
  obtain ⟨c, rest, rfl⟩ := List.exists_cons_of_ne_nil hb
  exact after_latest (s := s.update c gc_depth) update_latest

theorem after_filtered (hb : block ≠ []) : Filtered gc_depth s block (s.after block gc_depth) where
  last_committed := after_last_committed
  last_committed_round := by
    obtain ⟨c, rest, rfl⟩ := List.exists_cons_of_ne_nil hb
    have hne : (s.after (c :: rest) gc_depth).last_committed ≠ ∅ := by
      intro hempty
      have hnone : (s.after (c :: rest) gc_depth).last_committed[c.origin]? = _ :=
        after_last_committed c.origin
      rw [hempty, ExtTreeMap.getElem?_empty, eq_comm, List.max?_eq_none_iff] at hnone
      simp at hnone
    unfold Greatest
    rw [after_latest_of_ne_nil hb]
    exact ⟨max_round_mem hne, fun _ ⟨n, hr⟩ => max_round_le.mp (Nat.le_refl _) n _ hr⟩
  dag := by
    intro r n x
    have hlast : (s.after block gc_depth).last n ≤ r ↔
        ∀ last, (s.after block gc_depth).last_committed[n]? = some last → last ≤ r := by
      unfold last
      rcases (s.after block gc_depth).last_committed[n]? with _ | r'
      · simp
      · simp
    rw [after_dag_entry hb, Option.ite_none_right_eq_some, hlast, and_comm]
  no_empty_round := after_noEmptyLayer hb

/-- The greatest of some numbers, whatever their order and their repeats. -/
theorem max?_eq_of_mem_iff {l l' : List ℕ} (h : ∀ r, r ∈ l ↔ r ∈ l') : l.max? = l'.max? := by
  rcases hmax : l.max? with _ | r
  · rw [List.max?_eq_none_iff] at hmax
    subst hmax
    rw [eq_comm, List.max?_eq_none_iff, List.eq_nil_iff_forall_not_mem]
    exact fun r hr => List.not_mem_nil ((h r).mpr hr)
  · rw [List.max?_eq_some_iff] at hmax
    rw [eq_comm, List.max?_eq_some_iff]
    exact ⟨(h r).mp hmax.1, fun r' hr' => hmax.2 r' ((h r').mpr hr')⟩

/-- A filter is known by what it filters. -/
theorem Filtered.unique {block' : List Certificate} {s₁ s₂ : State}
    (h₁ : Filtered gc_depth s block s₁) (h₂ : Filtered gc_depth s block' s₂)
    (hsame : ∀ c, c ∈ block' ↔ c ∈ block) : s₂ = s₁ := by
  have hlast : s₂.last_committed = s₁.last_committed := by
    apply ExtTreeMap.ext_getElem?
    intro n
    rw [h₁.last_committed, h₂.last_committed]
    apply max?_eq_of_mem_iff
    simp [hsame]
  have hround : s₂.last_committed_round = s₁.last_committed_round := by
    have hgreatest := h₂.last_committed_round
    unfold Greatest at hgreatest
    rw [hlast] at hgreatest
    exact hgreatest.unique h₁.last_committed_round
  have hdag : s₂.dag = s₁.dag := by
    apply Dag.ext_entry h₂.no_empty_round h₁.no_empty_round
    intro r n
    apply Option.ext
    intro x
    rw [h₁.dag, h₂.dag, hlast, hround]
  cases s₁
  cases s₂
  rw [mk.injEq]
  exact ⟨hround, hlast, hdag⟩

/-- For every state, every depth and every list of certificates but the empty one: the updates are a
filter, and the same one for all lists of the same certificates and all orders of the loops. -/
theorem updates_are_a_filter (gc_depth : ℕ) (s : State) (block : List Certificate)
    (hb : block ≠ []) : Filtered gc_depth s block (s.after block gc_depth) ∧
      ∀ block', (∀ c, c ∈ block' ↔ c ∈ block) → ∀ s', Updates gc_depth s block' s' ↔
        s' = s.after block gc_depth := by
  refine ⟨after_filtered hb, ?_⟩
  intro block' hsame s'
  have hb' : block' ≠ [] := by
    obtain ⟨c, hc⟩ := List.exists_mem_of_ne_nil block hb
    exact List.ne_nil_of_mem ((hsame c).mpr hc)
  rw [updates_iff, (after_filtered hb).unique (after_filtered hb') hsame]

end State

section

attribute [local instance] crypto.sample

def early : Certificate := .sample 1 1 [.genesis_of 1]
def committed : Certificate := .sample 1 2 [early]

/-- A certificate comes when a later one of its author is committed. -/
def late : State :=
  (((State.new (Certificate.genesis .four)).insert committed).update committed 5).insert early

theorem updates_are_a_filter_late :
    State.Filtered 5 late [committed, early] (late.after [committed, early] 5) ∧
      late.after [early, committed, early] 5 = late.after [committed, early] 5 := by
  obtain ⟨hfiltered, horder⟩ := State.updates_are_a_filter 5 late [committed, early] (by simp)
  refine ⟨hfiltered, (horder [early, committed, early] ?_ _).mp (State.updates_iff.mpr rfl)⟩
  intro c
  simp only [List.mem_cons, List.not_mem_nil, or_false]
  grind

/-- A node that received a certificate of the last round. -/
def far_ahead : State :=
  (State.new (Certificate.genesis .four)).insert (.sample 1 (2 ^ 64 - 1) [])

/-- No update leaves the certificate in the dag, below the last committed round of its author. And
the sum of an update wraps: the certificate of the last round is dropped. -/
theorem no_update_is_no_filter :
    (State.Updates 5 late [] late ∧ ¬ State.Filtered 5 late [] late) ∧
      (far_ahead.dag.entry (2 ^ 64 - 1) 1).isSome = true ∧
      (far_ahead.update (.sample 2 60 []) 50).last 1 ≤ 2 ^ 64 - 1 ∧
      (far_ahead.update (.sample 2 60 []) 50).last_committed_round ≤ 2 ^ 64 - 1 + 50 ∧
      (far_ahead.update (.sample 2 60 []) 50).dag.entry (2 ^ 64 - 1) 1 = none := by
  refine ⟨⟨.nil late, fun h => ?_⟩, by decide +kernel, by decide +kernel, by decide +kernel,
    by decide +kernel⟩
  have hkept := (h.dag 1 1 (early.digest, early)).mp (by decide +kernel)
  exact absurd (hkept.2.1 2 (by decide +kernel)) (by decide)

end

end sailfish.consensus
