-- The law of delivery orders: two nodes that commit the same leaders put the same
-- certificates in the sequence, in the same order, when every commit is complete.
import Mathlib
import Sailfish.Dependencies

open Std Relation splits sailfish.crypto sailfish.config sailfish.primary

namespace sailfish.consensus

section

variable [Crypto] {committee : Committee} {gc_depth : ℕ} {D : Set Certificate}
  {l l' : List Certificate} {s s' : State} {commits commits' : List Commit} {leader : Certificate}

/-- The last committed round is the one of the last leader. -/
theorem Trace.last_committed_round_eq {Ok : State → List Commit → Certificate → Prop}
    (h : Trace committee gc_depth Ok l s commits) :
    s.last_committed_round = ((commits.map (·.leader.round)).getLast?).getD 0 := by
  induction h with
  | spawn => rfl
  | deliver _ _ _ ih => exact ih
  | commit htrace hp _ =>
    rw [hp.last_committed_round_after htrace.wf, List.map_append]
    simp

/-- The garbage collector leaves a node of the search. -/
def recent (floor gc_depth : ℕ) (x : Digest × Certificate) : Bool := x.2.round + gc_depth ≥ floor

theorem State.Pending.order_dag_eq (hw : Wf gc_depth s) (h : s.Pending leader) :
    order_dag leader gc_depth s =
      (((s.popped leader).filter (recent s.last_committed_round gc_depth)).map
        (·.2)).insertionSort fun a b => a.round ≤ b.round := by
  have habove := h.above
  change List.insertionSort _ (((s.popped leader).map (·.2)).filter _) = _
  rw [List.filter_map]
  congr 2
  apply List.filter_congr
  intro x hx
  -- what the search pops is in the dag, so no sum wraps
  obtain ⟨-, hpath⟩ := hw.path_of_mem_popped (fun h0 => by omega) hx
  have hfits := hw.fits _ _ _ (h.entry_of_steps hpath)
  simp only [recent, Function.comp_apply, wrapping_add_of_lt hfits]

/-- The recent nodes of the search are popped in the order of a search among them. -/
theorem Trace.walk_recent (hD : OneEach committee D) (hl : Received committee D l)
    {Ok : State → List Commit → Certificate → Prop} (h : Trace committee gc_depth Ok l s commits)
    (hp : s.Pending leader) :
    traversal.Walk (fun x => (s.next x).filter (recent s.last_committed_round gc_depth)) Prod.fst
      [(leader.digest, leader)] []
      ((s.popped leader).filter (recent s.last_committed_round gc_depth)) := by
  have hw := h.wf
  have hd := h.distinct hD hl
  have hlead : recent s.last_committed_round gc_depth (leader.digest, leader) = true := by
    have habove := hp.above
    unfold recent
    rw [decide_eq_true_eq]
    simp only
    omega
  suffices hfilter : traversal.Walk
      (fun x => (s.next x).filter (recent s.last_committed_round gc_depth)) Prod.fst
      ([(leader.digest, leader)].filter (recent s.last_committed_round gc_depth)) []
      ((s.popped leader).filter (recent s.last_committed_round gc_depth)) by
    rwa [List.filter_cons_of_pos hlead, List.filter_nil] at hfilter
  refine (s.walk_popped leader).filter (R := {y | y.1 = y.2.digest ∧ s.dag.Has y.2}) ?_ ?_ ?_ ?_ ?_
  · rintro a ⟨hda, ha⟩ b ⟨hdb, hb⟩ hkey
    rw [Dag.Has, ← hda] at ha
    rw [Dag.Has, ← hdb] at hb
    exact hd a (Dag.mem_entries.mpr ⟨_, _, ha⟩) b (Dag.mem_entries.mpr ⟨_, _, hb⟩) hkey
  · rintro y ⟨-, hy⟩ z hz
    obtain ⟨hdz, hstep⟩ := hw.step_of_mem_next (hw.grounded _ _ _ _ hy) hz
    exact ⟨hdz, hstep.1.2.2⟩
  · rintro y ⟨-, hy⟩ hold z hz
    have hr := (hw.step_of_mem_next (hw.grounded _ _ _ _ hy) hz).2.1.1
    unfold recent at hold ⊢
    rw [decide_eq_false_iff_not] at hold ⊢
    omega
  · intro a ha
    rw [List.mem_singleton.mp ha]
    exact ⟨rfl, hp.entry⟩
  · simp

/-! ## Two nodes -/

/-- A commit that meets the condition, after complete ones. -/
structure Settled (committee : Committee) (D : Set Certificate) (gc_depth : ℕ)
    (pre : List Commit) (k : Commit) : Prop where
  commit : CommitOf committee D gc_depth pre k
  complete : Complete D gc_depth pre
  late : NoLateReference D gc_depth (pre ++ [k])

variable {pre pre' : List Commit} {k k' : Commit}

/-- Two nodes that have the same sequence so far, and commit the same leader. -/
structure Alike (committee : Committee) (D : Set Certificate) (gc_depth : ℕ)
    (pre : List Commit) (k : Commit) (pre' : List Commit) (k' : Commit) : Prop where
  left : Settled committee D gc_depth pre k
  right : Settled committee D gc_depth pre' k'
  leader : k.leader = k'.leader
  floor : k.floor = k'.floor
  output : output pre = output pre'

theorem Alike.symm (h : Alike committee D gc_depth pre k pre' k') :
    Alike committee D gc_depth pre' k' pre k where
  left := h.right
  right := h.left
  leader := h.leader.symm
  floor := h.floor.symm
  output := h.output.symm

/-- A recent parent that the search of one node goes on to, the search of the other one goes on
to as well. -/
theorem Alike.lookup (hD : OneEach committee D) (h : Alike committee D gc_depth pre k pre' k')
    {x : Certificate} (hx : Ancestor D k.leader x) (hxD : x ∈ D) {parent : Digest}
    (hparent : parent ∈ x.header.parents) {y : Digest × Certificate}
    (hy : k.before.lookup x.round parent = some y) (hr : k.floor ≤ y.2.round + gc_depth) :
    k'.before.lookup x.round parent = some y := by
  have hpos := hD.positive x hxD
  obtain ⟨l, hl, hnd, htrace, hp, -⟩ := h.left.commit
  obtain ⟨l', hl', hnd', htrace', hp', -⟩ := h.right.commit
  rw [htrace.wf.filed_dag.lookup_eq_some (htrace.distinct hD hl)] at hy
  obtain ⟨hkey, hdy, hround, hself, hopen⟩ := hy
  have hbelow : y.2.round + 1 = x.round := by
    rw [hround, wrapping_pred, if_neg (by omega)]
    omega
  have hstep : k.before.Step x y.2 :=
    ⟨⟨hbelow, by rw [← hdy, hkey]; exact hparent, hself⟩, hopen⟩
  have hanc : Ancestor D k.leader y.2 := hx.tail (htrace.mem_of_step hD hl hstep)
  have hnot := (htrace.not_mem_output_iff hD hl hnd h.left.complete hp h.left.late hanc hr).mpr
    ⟨hself, hopen⟩
  rw [h.output] at hnot
  rw [h.leader] at hanc
  rw [h.floor] at hr
  obtain ⟨hself', hopen'⟩ := (htrace'.not_mem_output_iff hD hl' hnd' h.right.complete hp'
    h.right.late hanc hr).mp hnot
  rw [htrace'.wf.filed_dag.lookup_eq_some (htrace'.distinct hD hl')]
  exact ⟨hkey, hdy, hround, hself', hopen'⟩

/-- The searches of the two nodes go on to the same recent parents, in the same order. -/
theorem Alike.next (hD : OneEach committee D) (h : Alike committee D gc_depth pre k pre' k')
    {x : Digest × Certificate} (hx : Ancestor D k.leader x.2) (hxD : x.2 ∈ D) :
    (k.before.next x).filter (recent k.floor gc_depth) =
      (k'.before.next x).filter (recent k'.floor gc_depth) := by
  have hx' : Ancestor D k'.leader x.2 := h.leader ▸ hx
  unfold State.next
  rw [List.filter_filterMap, List.filter_filterMap]
  apply List.filterMap_congr
  intro parent hparent
  rw [ExtTreeSet.mem_toList] at hparent
  ext y
  simp only [Option.filter_eq_some_iff]
  unfold recent
  simp only [decide_eq_true_eq]
  constructor
  · rintro ⟨hy, hr⟩
    exact ⟨h.lookup hD hx hxD hparent hy hr, h.floor ▸ hr⟩
  · rintro ⟨hy, hr⟩
    exact ⟨h.symm.lookup hD hx' hxD hparent hy hr, h.floor ▸ hr⟩

/-- The two nodes add the same sub-dag to the sequence. -/
theorem Alike.block (hD : OneEach committee D) (h : Alike committee D gc_depth pre k pre' k') :
    k.block = k'.block := by
  obtain ⟨l, hl, -, htrace, hp, hblock⟩ := h.left.commit
  obtain ⟨l', hl', -, htrace', hp', hblock'⟩ := h.right.commit
  have hw := htrace.wf
  have hwalk := htrace.walk_recent hD hl hp
  have hwalk' := htrace'.walk_recent hD hl' hp'
  have hlead := hl.mem _ (htrace.leader_mem hp)
  suffices hcongr : traversal.Walk
      (fun x => (k'.before.next x).filter (recent k'.floor gc_depth)) Prod.fst
      [(k.leader.digest, k.leader)] []
      ((k.before.popped k.leader).filter (recent k.before.last_committed_round gc_depth)) by
    rw [← h.leader] at hwalk'
    have heq := hcongr.unique hwalk'
    rw [hblock, hblock', hp.order_dag_eq hw, hp'.order_dag_eq htrace'.wf, heq, h.leader]
  refine hwalk.congr (R := {y | Ancestor D k.leader y.2 ∧ y.2 ∈ D}) ?_ ?_ ?_
  · rintro y ⟨hy, hyD⟩ z hz
    have hpos := hD.positive _ hyD
    have hz' := (List.mem_filter.mp hz).1
    have hdown := htrace.mem_of_step hD hl
      (hw.step_of_mem_next (fun h0 => by omega) hz').2
    exact ⟨hy.tail hdown, hdown.1⟩
  · rintro y ⟨hy, hyD⟩
    exact h.next hD hy hyD
  · intro y hy
    rw [List.mem_singleton.mp hy]
    exact ⟨.refl, hlead⟩

/-- Two lists of commits with the same leaders have the same sub-dags. -/
theorem blocks_eq (hD : OneEach committee D) (h : Each (CommitOf committee D gc_depth) commits)
    (h' : Each (CommitOf committee D gc_depth) commits')
    (hlate : NoLateReference D gc_depth commits) (hlate' : NoLateReference D gc_depth commits')
    (hleaders : commits.map (·.leader) = commits'.map (·.leader)) :
    commits.map (·.block) = commits'.map (·.block) := by
  induction commits using List.reverseRecOn generalizing commits' with
  | nil =>
    obtain rfl : commits' = [] := by simpa using hleaders.symm
    rfl
  | append_singleton pre k ih =>
    rcases List.eq_nil_or_concat' commits' with rfl | ⟨pre', k', rfl⟩
    · simp at hleaders
    · rw [List.map_append, List.map_append] at hleaders
      obtain ⟨hpre, hk⟩ := List.append_inj' hleaders rfl
      have hleader : k.leader = k'.leader := by simpa using hk
      have hblocks := ih h.of_append h'.of_append hlate.of_append hlate'.of_append hpre
      have hsettled : Settled committee D gc_depth pre k :=
        ⟨h.last, complete_of_noLateReference hD h.of_append hlate.of_append, hlate⟩
      have hsettled' : Settled committee D gc_depth pre' k' :=
        ⟨h'.last, complete_of_noLateReference hD h'.of_append hlate'.of_append, hlate'⟩
      have hfloor : k.floor = k'.floor := by
        obtain ⟨l, -, -, htrace, -⟩ := h.last
        obtain ⟨l', -, -, htrace', -⟩ := h'.last
        have hrounds := congrArg (List.map Certificate.round) hpre
        rw [List.map_map, List.map_map] at hrounds
        have heq := htrace.last_committed_round_eq
        have heq' := htrace'.last_committed_round_eq
        unfold Commit.floor
        rw [heq, heq']
        exact congrArg (fun l => (List.getLast? l).getD 0) hrounds
      have hout : output pre = output pre' := by
        unfold output
        rw [List.flatMap_def, List.flatMap_def, hblocks]
      have halike : Alike committee D gc_depth pre k pre' k' :=
        ⟨hsettled, hsettled', hleader, hfloor, hout⟩
      rw [List.map_append, List.map_append, hblocks]
      simp only [List.map_cons, List.map_nil, halike.block hD]

/-- For two runs on a valid dag, each with every certificate at most once and after its parents: if
the two commit the same leaders, and no leader refers to a certificate that an earlier commit passed
by, they put the same certificates in the sequence, in the same order. -/
theorem same_leaders_give_same_output_without_late_references (committee : Committee)
    (gc_depth : ℕ) (D : Set Certificate) (hD : ValidDag committee D)
    (hdigests : Set.InjOn Certificate.digest {c | c ∈ D ∨ c ∈ Certificate.genesis committee})
    (events events' : List Event) (hl : Received committee D (certificates events))
    (hl' : Received committee D (certificates events')) (hnodup : (certificates events).Nodup)
    (hnodup' : (certificates events').Nodup) (hfit : RoundsFit gc_depth (certificates events))
    (hfit' : RoundsFit gc_depth (certificates events')) (c c' : Consensus)
    (hrun : Consensus.run committee gc_depth events = some c)
    (hrun' : Consensus.run committee gc_depth events' = some c')
    (hleaders : c.leaders = c'.leaders) (hlate : NoLateReference D gc_depth c.commits)
    (hlate' : NoLateReference D gc_depth c'.commits) : c.output = c'.output := by
  have hone : OneEach committee D := ⟨hD.positive, hD.unique, hdigests⟩
  have hblocks := blocks_eq hone (commitOf_of_run hl hnodup hfit hrun)
    (commitOf_of_run hl' hnodup' hfit' hrun') hlate hlate' hleaders
  unfold Consensus.output
  rw [List.flatMap_def, List.flatMap_def, hblocks]

end

/-! ## Two nodes that commit the same leaders -/

section

attribute [local instance] crypto.sample

/-- The node of `first_commit`, with the first two certificates in the other order. -/
def swapped : Consensus :=
  (Consensus.run three 50 ([side1, main1, main2].map .certificate)).get (by decide +kernel)

theorem same_leaders_give_same_output_without_late_references_swapped :
    first_commit.output = swapped.output := by
  refine same_leaders_give_same_output_without_late_references three 50
    {c | c ∈ [main1, side1, main2]} (validDag_of_check (by decide +kernel)) ?_
    ([main1, side1, main2].map .certificate) ([side1, main1, main2].map .certificate) ?_ ?_
    (by decide +kernel) (by decide +kernel) (by decide +kernel) (by decide +kernel) first_commit
    swapped (by simp [first_commit]) (by simp [swapped]) (by decide +kernel)
    (noLateReference_of_first (by decide +kernel)) (noLateReference_of_first (by decide +kernel))
  · exact (oneEach_of_check (by decide +kernel)).digests
  · rw [certificates_map]
    exact received_of_check (by decide +kernel)
  · rw [certificates_map]
    exact received_of_check (by decide +kernel)

/-- The certificates of `passed_by`, with `side1` after the commit of `side2`. -/
def delivered_late : List Certificate :=
  [main1, main2, side2, main3, side1, third2, third3, main4]

theorem same_leaders_give_different_outputs :
    ValidDag three {c | c ∈ passed_by} ∧ Received three {c | c ∈ passed_by} passed_by ∧
    Received three {c | c ∈ passed_by} delivered_late ∧ passed_by.Nodup ∧
    delivered_late.Perm passed_by ∧ RoundsFit 50 passed_by ∧
    ∃ c c', Consensus.run three 50 (passed_by.map .certificate) = some c ∧
      Consensus.run three 50 (delivered_late.map .certificate) = some c' ∧
      c.leaders = c'.leaders ∧ c.output ≠ c'.output :=
  ⟨validDag_of_check (by decide +kernel), received_of_check (by decide +kernel),
    received_of_check (by decide +kernel), by decide +kernel, by decide +kernel,
    by decide +kernel, (Consensus.run three 50 (passed_by.map .certificate)).get (by decide +kernel),
    (Consensus.run three 50 (delivered_late.map .certificate)).get (by decide +kernel),
    by simp, by simp, by decide +kernel, by decide +kernel⟩

end

end sailfish.consensus
