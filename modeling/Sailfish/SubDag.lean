-- What the traversals of the dag return: `linked` says whether a path in the dag
-- goes from a leader to an older one, `order_leaders` returns the chain of linked
-- leaders, and `order_dag` pops the certificates that a leader reaches.
import Mathlib
import Sailfish.DagState

open Std Relation sailfish.crypto sailfish.config sailfish.primary

namespace sailfish.consensus

/-! ## No panic while the layers are there -/

theorem frontier_isSome {dag : Dag} {a k : ℕ} (hlayers : ∀ r, a ≤ r → r < a + k → (dag[r]?).isSome)
    (l : List Certificate) : ((List.range' a k).reverse.foldlM dag.parents_at l).isSome := by
  induction k generalizing a l with
  | zero => rfl
  | succ k ih =>
    rw [List.range'_succ, List.reverse_cons, List.foldlM_append]
    obtain ⟨above, habove⟩ := Option.isSome_iff_exists.mp
      (ih (a := a + 1) (fun r h1 h2 => hlayers r (by omega) (by omega)) l)
    obtain ⟨layer, hl⟩ := Option.isSome_iff_exists.mp (hlayers a (by omega) (by omega))
    simp [habove, Dag.parents_at, hl]

theorem linked_isSome {dag : Dag} {leader prev_leader : Certificate}
    (hlayers : ∀ r, prev_leader.round ≤ r → r < leader.round → (dag[r]?).isSome) :
    (linked leader prev_leader dag).isSome := by
  have hfrontier : ((List.range' prev_leader.round (leader.round - prev_leader.round)).reverse.foldlM
      dag.parents_at [leader]).isSome :=
    frontier_isSome (fun r h1 h2 => hlayers r h1 (by omega)) [leader]
  obtain ⟨parents, hp⟩ := Option.isSome_iff_exists.mp hfrontier
  simp [linked, hp]

/-- The rounds of the loop of `order_leaders` go down. -/
theorem rounds_succ (floor n : ℕ) : (List.range' (floor + 1) (n + 1)).reverse =
    (floor + 1 + n) :: (List.range' (floor + 1) n).reverse := by
  rw [List.range'_1_concat, List.reverse_append, List.reverse_singleton, List.singleton_append]

theorem order_leaders_loop_isSome {committee : Committee} {dag : Dag} {floor n : ℕ}
    {last : Certificate} (hself : ∀ r x, leader committee r dag = some x → x.2.round = r)
    (hlayers : ∀ r, floor < r → r < last.round → (dag[r]?).isSome) (hlt : floor + n < last.round) :
    (order_leaders_loop committee dag last (List.range' (floor + 1) n).reverse).isSome := by
  induction n generalizing last with
  | zero => rfl
  | succ n ih =>
    rw [rounds_succ]
    unfold order_leaders_loop
    rcases hp : consensus.leader committee (floor + 1 + n) dag with _ | ⟨d, prev_leader⟩
    · exact ih hlayers (by omega)
    · have hr : prev_leader.round = floor + 1 + n := hself _ _ hp
      have hlinked : (linked last prev_leader dag).isSome :=
        linked_isSome fun r h1 h2 => hlayers r (by omega) h2
      have hloop : (order_leaders_loop committee dag prev_leader
          (List.range' (floor + 1) n).reverse).isSome :=
        ih (fun r h1 h2 => hlayers r h1 (by omega)) (by omega)
      obtain ⟨b, hb⟩ := Option.isSome_iff_exists.mp hlinked
      obtain ⟨rest, hrest⟩ := Option.isSome_iff_exists.mp hloop
      cases b with
      | true => simp [hb, hrest]
      | false => simpa [hb] using ih hlayers (by omega)

section

variable [Crypto]

/-- `y` is in the dag, and it is a parent of `x`. -/
def Dag.Edge (dag : Dag) (x y : Certificate) : Prop :=
  y.round + 1 = x.round ∧ y.digest ∈ x.header.parents ∧
    dag.entry y.round y.origin = some (y.digest, y)

/-- A path in the dag, along the parents. -/
abbrev Dag.Path (dag : Dag) : Certificate → Certificate → Prop := ReflTransGen dag.Edge

theorem Dag.round_of_edge {dag : Dag} (x y : Certificate) (h : dag.Edge x y) :
    y.round + 1 = x.round := h.1

variable {s : State}

theorem Dag.Filed.entry_self (h : s.dag.Filed) {r : ℕ} {n : PublicKey} {x : Digest × Certificate}
    (hx : s.dag.entry r n = some x) : x.1 = x.2.digest ∧ x.2.round = r ∧ x.2.origin = n ∧
      s.dag.entry x.2.round x.2.origin = some (x.2.digest, x.2) := by
  obtain ⟨hd, hr, hn⟩ := h r n x.1 x.2 hx
  refine ⟨hd, hr, hn, ?_⟩
  rw [hr, hn, hx, ← hd]

/-! ## `linked` -/

theorem Dag.Filed.mem_parents_of (h : s.dag.Filed) {r : ℕ} {layer : Layer}
    (hl : s.dag[r]? = some layer) {parents : List Certificate} {y : Certificate} :
    y ∈ layer.parents_of parents ↔
      y.round = r ∧ s.dag.entry y.round y.origin = some (y.digest, y) ∧
        ∃ x ∈ parents, y.digest ∈ x.header.parents := by
  unfold Layer.parents_of
  simp only [List.mem_map, List.mem_filter, List.any_eq_true, decide_eq_true_eq, Layer.mem_values]
  constructor
  · rintro ⟨⟨d, x⟩, ⟨⟨n, hn⟩, hp⟩, rfl⟩
    rw [← Dag.entry_of_layer hl] at hn
    obtain ⟨hd, hr, -, hself⟩ := h.entry_self hn
    simp only at hd
    subst hd
    exact ⟨hr, hself, hp⟩
  · rintro ⟨rfl, hself, hp⟩
    rw [Dag.entry_of_layer hl] at hself
    exact ⟨(y.digest, y), ⟨⟨y.origin, hself⟩, hp⟩, rfl⟩

/-- After the turns of `linked` down to round `a`, the parents are the certificates of that
round on a path from the leader. -/
theorem Dag.Filed.mem_frontier (h : s.dag.Filed) {leader : Certificate} {a k : ℕ}
    {parents : List Certificate} (hk : leader.round = a + k)
    (hp : (List.range' a k).reverse.foldlM s.dag.parents_at [leader] = some parents)
    {y : Certificate} : y ∈ parents ↔ y.round = a ∧ s.dag.Path leader y := by
  induction k generalizing a parents y with
  | zero =>
    simp only [List.range'_zero, List.reverse_nil, List.foldlM_nil, Option.pure_def,
      Option.some.injEq] at hp
    subst hp
    rw [List.mem_singleton]
    constructor
    · rintro rfl
      exact ⟨hk, .refl⟩
    · rintro ⟨hy, hpath⟩
      exact (layered.eq_of_path Dag.round_of_edge hpath (by omega)).symm
  | succ k ih =>
    rw [List.range'_succ, List.reverse_cons, List.foldlM_append, Option.bind_eq_bind,
      Option.bind_eq_some_iff] at hp
    obtain ⟨above, habove, hp⟩ := hp
    simp only [List.foldlM_cons, List.foldlM_nil, Option.pure_def, Option.bind_eq_bind,
      Dag.parents_at, Option.bind_fun_some] at hp
    obtain ⟨layer, hl, hp⟩ := Option.bind_eq_some_iff.mp hp
    cases hp
    rw [h.mem_parents_of hl]
    constructor
    · rintro ⟨hy, hself, x, hx, hxy⟩
      obtain ⟨hxr, hpath⟩ := (ih (by omega) habove).mp hx
      exact ⟨hy, hpath.tail ⟨by omega, hxy, hself⟩⟩
    · rintro ⟨hy, hpath⟩
      rcases hpath.cases_tail with heq | ⟨x, hpath, hedge⟩
      · subst heq
        omega
      · have hx : x ∈ above := (ih (by omega) habove).mpr ⟨by have := hedge.1; omega, hpath⟩
        exact ⟨hy, hedge.2.2, x, hx, hedge.2.1⟩

/-- When it does not panic, `linked` is true when there is a path to a certificate that equals the
older leader. -/
theorem Dag.Filed.linked_iff_path (h : s.dag.Filed) {leader prev_leader : Certificate} {b : Bool}
    (hb : linked leader prev_leader s.dag = some b) :
    b = true ↔ ∃ y, s.dag.Path leader y ∧ prev_leader.eq y = true := by
  unfold linked at hb
  simp only [Option.pure_def, Option.bind_eq_bind, Option.bind_eq_some_iff, Option.some.injEq] at hb
  obtain ⟨parents, hp, rfl⟩ := hb
  rw [List.any_eq_true]
  by_cases hle : prev_leader.round ≤ leader.round
  · have hmem := fun y => h.mem_frontier (y := y) (by omega) hp
    constructor
    · rintro ⟨y, hy, heq⟩
      exact ⟨y, ((hmem y).mp hy).2, heq⟩
    · rintro ⟨y, hpath, heq⟩
      exact ⟨y, (hmem y).mpr ⟨(Certificate.eq_iff.mp heq).2.1.symm, hpath⟩, heq⟩
  · have hk : leader.round - prev_leader.round = 0 := by omega
    rw [hk] at hp
    simp only [List.range'_zero, List.reverse_nil, List.foldlM_nil, Option.pure_def,
      Option.some.injEq] at hp
    subst hp
    constructor
    · rintro ⟨y, hy, heq⟩
      rw [List.mem_singleton.mp hy] at heq
      exact ⟨leader, .refl, heq⟩
    · rintro ⟨y, hpath, heq⟩
      have h1 := layered.rank_le_of_path Dag.round_of_edge hpath
      have h2 := (Certificate.eq_iff.mp heq).2.1
      omega

/-- When it does not panic, `linked` is true when there is a path to the older leader. -/
theorem Dag.Filed.linked_iff (h : s.dag.Filed) {leader prev_leader : Certificate} {b : Bool}
    (hlt : prev_leader.round < leader.round)
    (hself : s.dag.entry prev_leader.round prev_leader.origin =
      some (prev_leader.digest, prev_leader))
    (hb : linked leader prev_leader s.dag = some b) :
    b = true ↔ s.dag.Path leader prev_leader := by
  rw [h.linked_iff_path hb]
  constructor
  · rintro ⟨y, hpath, heq⟩
    obtain ⟨-, hr, ho⟩ := Certificate.eq_iff.mp heq
    rcases hpath.cases_tail with hrefl | ⟨x, -, hedge⟩
    · subst hrefl
      omega
    · have hentry := hedge.2.2
      rw [← hr, ← ho, hself] at hentry
      obtain ⟨-, rfl⟩ := Prod.mk.inj (Option.some.inj hentry)
      exact hpath
  · intro hpath
    exact ⟨prev_leader, hpath, Certificate.eq_refl _⟩

/-- A path in the dag goes through all the layers that `linked` reads. -/
theorem Dag.Filed.linked_of_path (h : s.dag.Filed) {leader prev_leader : Certificate}
    (hlt : prev_leader.round < leader.round) (hpath : s.dag.Path leader prev_leader) :
    linked leader prev_leader s.dag = some true := by
  have hself : s.dag.entry prev_leader.round prev_leader.origin =
      some (prev_leader.digest, prev_leader) := by
    rcases hpath.cases_tail with hrefl | ⟨x, -, hedge⟩
    · subst hrefl
      omega
    · exact hedge.2.2
  have hsome : (linked leader prev_leader s.dag).isSome := by
    apply linked_isSome
    intro r h1 h2
    obtain ⟨z, rfl, hz, -⟩ := layered.exists_of_path Dag.round_of_edge hpath h1 (by omega)
    rcases hz.cases_tail with hrefl | ⟨x, -, hedge⟩
    · subst hrefl
      omega
    · obtain ⟨layer, hl, -⟩ := Dag.layer_of_entry hedge.2.2
      rw [hl]
      rfl
  obtain ⟨b, hb⟩ := Option.isSome_iff_exists.mp hsome
  rw [hb, (h.linked_iff hlt hself hb).mpr hpath]

/-! ## `order_leaders` -/

/-- `y` is the certificate of a leader, and there is a path to it in the dag. -/
def Dag.Link (committee : Committee) (dag : Dag) (x y : Certificate) : Prop :=
  leader committee y.round dag = some (y.digest, y) ∧ dag.Path x y

/-- The leaders of rounds above `floor` that are linked, from one to the next. -/
abbrev Dag.Chain (committee : Committee) (dag : Dag) :
    ℕ → Certificate → List Certificate → Prop :=
  layered.Chain Certificate.round (dag.Link committee)

variable {committee : Committee}

theorem Dag.link_unique {dag : Dag} (a b c : Certificate) (hb : dag.Link committee a b)
    (hc : dag.Link committee a c) (hr : b.round = c.round) : b = c := by
  have h := hb.1
  rw [hr, hc.1] at h
  exact (Prod.mk.inj (Option.some.inj h)).2.symm

theorem Dag.Filed.leader_self (h : s.dag.Filed) {r : ℕ} {x : Digest × Certificate}
    (hx : leader committee r s.dag = some x) :
    x.1 = x.2.digest ∧ x.2.round = r ∧ x.2.origin = committee.leader r ∧
      s.dag.entry x.2.round x.2.origin = some (x.2.digest, x.2) :=
  h.entry_self (n := committee.leader r) hx

/-- Turn by turn, the loop takes the highest leader that is linked to the last one taken. -/
theorem Dag.Filed.chain_of_order_leaders_loop (h : s.dag.Filed) {floor n : ℕ} {last : Certificate}
    {leaders : List Certificate} (hlt : floor + n < last.round)
    (hnone : layered.NoneAbove Certificate.round (s.dag.Link committee) (floor + n) last)
    (hl : order_leaders_loop committee s.dag last (List.range' (floor + 1) n).reverse =
      some leaders) : s.dag.Chain committee floor last leaders := by
  induction n generalizing last leaders with
  | zero =>
    simp only [List.range'_zero, List.reverse_nil, order_leaders_loop, Option.some.injEq] at hl
    subst hl
    exact .done hnone
  | succ n ih =>
    rw [rounds_succ] at hl
    unfold order_leaders_loop at hl
    rcases hp : consensus.leader committee (floor + 1 + n) s.dag with _ | ⟨d, prev_leader⟩
    · simp only [hp] at hl
      apply ih (by omega) _ hl
      intro y hy hylt
      have hle := hnone y hy hylt
      by_contra hc
      have hyr : y.round = floor + 1 + n := by omega
      rw [Dag.Link, hyr, hp] at hy
      cases hy.1
    · obtain ⟨hd, hr, -, hself⟩ := h.leader_self hp
      simp only at hd hr hself
      simp only [hp, Option.pure_def, Option.bind_eq_bind, Option.bind_eq_some_iff] at hl
      obtain ⟨linked?, hb, hl⟩ := hl
      have hiff := h.linked_iff (by omega) hself hb
      cases linked? with
      | true =>
        simp only [if_true, Option.bind_eq_some_iff, Option.some.injEq] at hl
        obtain ⟨rest, hrest, rfl⟩ := hl
        have hlink : s.dag.Link committee last prev_leader :=
          ⟨by rw [hr, hp, hd], hiff.mp rfl⟩
        refine .next hlink (by omega) (by omega) ?_ (ih (by omega) ?_ hrest)
        · intro y hy hylt
          have := hnone y hy hylt
          omega
        · intro y _ hylt
          omega
      | false =>
        simp only [Bool.false_eq_true, if_false] at hl
        apply ih (by omega) _ hl
        intro y hy hylt
        have hle := hnone y hy hylt
        by_contra hc
        have hyr : y.round = floor + 1 + n := by omega
        have hyp := hy.1
        rw [hyr, hp] at hyp
        obtain ⟨-, rfl⟩ := Prod.mk.inj (Option.some.inj hyp)
        exact Bool.noConfusion (hiff.mpr hy.2)

omit [Crypto] in
/-- Above the last committed round the bounds of the loop do not wrap. -/
theorem order_leaders_eq {leader : Certificate} (hlt : s.last_committed_round < leader.round) :
    order_leaders committee leader s = (order_leaders_loop committee s.dag leader
      (List.range' (s.last_committed_round + 1)
        (leader.round - 1 - s.last_committed_round)).reverse).map (leader :: ·) := by
  have hpred : wrapping_pred leader.round = leader.round - 1 := if_neg (by omega)
  unfold order_leaders
  rw [hpred]
  dsimp only
  rcases order_leaders_loop committee s.dag leader _ with _ | older <;> rfl

/-- `order_leaders` returns the leader, then the chain of leaders linked back from it. -/
theorem Dag.Filed.chain_of_order_leaders (h : s.dag.Filed) {leader : Certificate}
    {leaders : List Certificate} (hlt : s.last_committed_round < leader.round)
    (hl : order_leaders committee leader s = some leaders) :
    ∃ older, leaders = leader :: older ∧
      s.dag.Chain committee s.last_committed_round leader older := by
  rw [order_leaders_eq hlt, Option.map_eq_some_iff] at hl
  obtain ⟨older, hloop, rfl⟩ := hl
  refine ⟨older, rfl, h.chain_of_order_leaders_loop (by omega) ?_ hloop⟩
  intro y _ hy
  omega

theorem Dag.Filed.order_leaders_isSome (h : s.dag.Filed) {leader : Certificate}
    (hlt : s.last_committed_round < leader.round)
    (hlayers : ∀ r, s.last_committed_round < r → r < leader.round → (s.dag[r]?).isSome) :
    (order_leaders committee leader s).isSome := by
  rw [order_leaders_eq hlt, Option.isSome_map]
  exact order_leaders_loop_isSome (fun r x hx => (h.leader_self hx).2.1) hlayers (by omega)

/-! ## `order_dag` -/

/-- A step of the depth-first search: a parent in the dag whose round is not the last committed
one of its author. -/
def State.Step (s : State) (x y : Certificate) : Prop :=
  s.dag.Edge x y ∧ s.last_committed[y.origin]? ≠ some y.round

theorem Dag.Filed.of_lookup (h : s.dag.Filed) {round : ℕ} {parent : Digest} {y : Digest × Certificate}
    (hy : s.lookup round parent = some y) :
    y.1 = parent ∧ y.1 = y.2.digest ∧ y.2.round = wrapping_pred round ∧
      s.dag.entry y.2.round y.2.origin = some (y.2.digest, y.2) ∧
      s.last_committed[y.2.origin]? ≠ some y.2.round := by
  unfold State.lookup at hy
  simp only [Option.bind_eq_bind, Option.bind_eq_some_iff] at hy
  obtain ⟨layer, hl, ⟨d, x⟩, hfind, hy⟩ := hy
  simp only [Option.ite_none_left_eq_some, Option.some.injEq] at hy
  obtain ⟨hopen, rfl⟩ := hy
  obtain ⟨n, hn⟩ := Layer.mem_values.mp (List.mem_of_find?_eq_some hfind)
  rw [← Dag.entry_of_layer hl] at hn
  obtain ⟨hd, hround, -, hself⟩ := h.entry_self hn
  have heq : d = parent := by simpa using List.find?_some hfind
  exact ⟨heq, hd, hround, hself, hopen⟩

/-- A certificate of round 0 lists no parent of the round before it, the last one of a `u64`. -/
def Dag.Grounded (dag : Dag) (x : Certificate) : Prop :=
  x.round = 0 → ∀ y, dag.entry (wrapping_pred 0) y.origin = some (y.digest, y) →
    y.digest ∉ x.header.parents

theorem Dag.grounded_of_empty {dag : Dag} {x : Certificate}
    (hx : x.round = 0 → x.header.parents = ∅) : dag.Grounded x := by
  intro h0 y _
  rw [hx h0]
  exact ExtTreeSet.not_mem_empty

theorem Dag.Filed.step_of_mem_next (h : s.dag.Filed) {x y : Digest × Certificate}
    (hx : s.dag.Grounded x.2) (hy : y ∈ s.next x) : y.1 = y.2.digest ∧ s.Step x.2 y.2 := by
  unfold State.next at hy
  obtain ⟨parent, hp, hlookup⟩ := List.mem_filterMap.mp hy
  rw [ExtTreeSet.mem_toList] at hp
  obtain ⟨rfl, hd, hround, hself, hopen⟩ := h.of_lookup hlookup
  rw [hd] at hp
  by_cases h0 : x.2.round = 0
  · rw [h0] at hround
    rw [hround] at hself
    exact absurd hp (hx h0 y.2 hself)
  · rw [wrapping_pred, if_neg h0] at hround
    exact ⟨hd, ⟨by omega, hp, hself⟩, hopen⟩

theorem Wf.step_of_mem_next {gc_depth : ℕ} (h : Wf gc_depth s) {x y : Digest × Certificate}
    (hx : x.2.round = 0 → x.2.header.parents = ∅) (hy : y ∈ s.next x) :
    y.1 = y.2.digest ∧ s.Step x.2 y.2 :=
  h.filed_dag.step_of_mem_next (Dag.grounded_of_empty hx) hy

/-- The loop of `order_dag` ends with an empty buffer. -/
theorem State.walk_popped (s : State) (leader : Certificate) :
    traversal.Walk s.next Prod.fst [(leader.digest, leader)] [] (s.popped leader) := by
  apply traversal.walk_spec (s.dag.entries.map Prod.fst).toFinset
  · intro x y hy
    unfold State.next State.lookup at hy
    obtain ⟨parent, -, hlookup⟩ := List.mem_filterMap.mp hy
    simp only [Option.bind_eq_bind, Option.bind_eq_some_iff] at hlookup
    obtain ⟨layer, hl, ⟨d, z⟩, hfind, hlookup⟩ := hlookup
    simp only [Option.ite_none_left_eq_some, Option.some.injEq] at hlookup
    obtain ⟨-, rfl⟩ := hlookup
    obtain ⟨n, hn⟩ := Layer.mem_values.mp (List.mem_of_find?_eq_some hfind)
    rw [← Dag.entry_of_layer hl] at hn
    rw [List.mem_toFinset]
    exact List.mem_map_of_mem (Dag.mem_entries.mpr ⟨_, n, hn⟩)
  · have h1 := Finset.card_filter_le (s.dag.entries.map Prod.fst).toFinset (· ∉ ([] : List Digest))
    have h2 := List.toFinset_card_le (s.dag.entries.map Prod.fst)
    rw [List.length_map] at h2
    rw [List.length_singleton]
    omega

/-- What the search goes on to from a node, it reaches step by step. -/
theorem Dag.Filed.steps_of_next (h : s.dag.Filed) {x y : Digest × Certificate}
    (hground : ∀ c, c = x.2 ∨ s.dag.entry c.round c.origin = some (c.digest, c) →
      s.dag.Grounded c) (hd : x.1 = x.2.digest)
    (hpath : ReflTransGen (fun x y => y ∈ s.next x) x y) :
    y.1 = y.2.digest ∧ ReflTransGen s.Step x.2 y.2 := by
  suffices hall : y.1 = y.2.digest ∧ ReflTransGen s.Step x.2 y.2 ∧ s.dag.Grounded y.2 from
    ⟨hall.1, hall.2.1⟩
  induction hpath with
  | refl => exact ⟨hd, .refl, hground _ (Or.inl rfl)⟩
  | @tail y z _ hz ih =>
    obtain ⟨hd, hstep⟩ := h.step_of_mem_next ih.2.2 hz
    exact ⟨hd, ih.2.1.tail hstep, hground _ (Or.inr hstep.1.2.2)⟩

theorem Wf.steps_of_next {gc_depth : ℕ} (h : Wf gc_depth s) {x y : Digest × Certificate}
    (hd : x.1 = x.2.digest)
    (hx : x.2.round = 0 → x.2.header.parents = ∅)
    (hpath : ReflTransGen (fun x y => y ∈ s.next x) x y) :
    y.1 = y.2.digest ∧ ReflTransGen s.Step x.2 y.2 := by
  apply h.filed_dag.steps_of_next _ hd hpath
  rintro c (rfl | hc)
  · exact Dag.grounded_of_empty hx
  · exact Dag.grounded_of_empty (h.grounded _ _ _ _ hc)

/-- The search pops only certificates that it reaches from the leader, step by step. -/
theorem Wf.path_of_mem_popped {gc_depth : ℕ} (h : Wf gc_depth s) {leader : Certificate}
    (hl : leader.round = 0 → leader.header.parents = ∅) {x : Digest × Certificate}
    (hx : x ∈ s.popped leader) : x.1 = x.2.digest ∧ ReflTransGen s.Step leader x.2 := by
  obtain ⟨start, hstart, hpath⟩ := (s.walk_popped leader).reachable hx
  rw [List.mem_singleton] at hstart
  subst hstart
  exact h.steps_of_next rfl hl hpath

theorem mem_order_dag {leader c : Certificate} {gc_depth : ℕ} :
    c ∈ order_dag leader gc_depth s ↔
      (∃ d, (d, c) ∈ s.popped leader) ∧
        s.last_committed_round ≤ wrapping_add c.round gc_depth := by
  unfold order_dag
  rw [List.mem_insertionSort, List.mem_filter, List.mem_map]
  simp

/-- A step of the search is an edge of the dag. -/
theorem State.path_of_steps {x y : Certificate} (h : ReflTransGen s.Step x y) : s.dag.Path x y :=
  ReflTransGen.mono (fun _ _ hstep => hstep.1) _ _ h

/-- A certificate that can be committed: it is in the dag, above the last committed round. -/
structure State.Pending (s : State) (leader : Certificate) : Prop where
  entry : s.dag.entry leader.round leader.origin = some (leader.digest, leader)
  above : s.last_committed_round < leader.round

variable {leader : Certificate} {gc_depth : ℕ}

/-- What the steps reach from a pending leader is in the dag. -/
theorem State.Pending.entry_of_steps (h : s.Pending leader) {x : Certificate}
    (hpath : ReflTransGen s.Step leader x) : s.dag.entry x.round x.origin = some (x.digest, x) := by
  rcases hpath.cases_tail with rfl | ⟨y, -, hstep⟩
  · exact h.entry
  · exact hstep.1.2.2

theorem State.Pending.mem_order_dag (hw : Wf gc_depth s) (h : s.Pending leader) :
    leader ∈ order_dag leader gc_depth s := by
  have := h.above
  rw [consensus.mem_order_dag, wrapping_add_of_lt (hw.fits _ _ _ h.entry)]
  exact ⟨⟨leader.digest, (s.walk_popped leader).mem_of_mem_stack List.mem_cons_self⟩, by omega⟩

/-- What a sub-dag holds: the leader, and older entries that are not committed yet. -/
theorem State.Pending.of_mem_order_dag (hw : Wf gc_depth s) (h : s.Pending leader)
    {c : Certificate} (hc : c ∈ order_dag leader gc_depth s) : ReflTransGen s.Step leader c ∧
      s.last_committed_round ≤ wrapping_add c.round gc_depth ∧
      s.dag.entry c.round c.origin = some (c.digest, c) ∧
      (c = leader ∨ c.round < leader.round ∧ s.last_committed[c.origin]? ≠ some c.round) := by
  obtain ⟨⟨d, hd⟩, hgc⟩ := consensus.mem_order_dag.mp hc
  have hround : leader.round ≠ 0 := by
    have := h.above
    omega
  obtain ⟨-, hpath⟩ := hw.path_of_mem_popped (fun h0 => absurd h0 hround) hd
  refine ⟨hpath, hgc, ?_⟩
  rcases hpath.cases_tail with heq | ⟨x, hx, hstep⟩
  · obtain rfl : c = leader := heq
    exact ⟨h.entry, Or.inl rfl⟩
  · have hle := layered.rank_le_of_path Dag.round_of_edge (State.path_of_steps hx)
    have hr := hstep.1.1
    exact ⟨hstep.1.2.2, Or.inr ⟨by simp only at hle hr ⊢; omega, hstep.2⟩⟩

theorem State.Pending.last_committed_round_after (hw : Wf gc_depth s) (h : s.Pending leader) :
    (s.after (order_dag leader gc_depth s) gc_depth).last_committed_round = leader.round := by
  apply Nat.le_antisymm
  · rw [State.after_last_committed_round_le hw.latest]
    refine ⟨Nat.le_of_lt h.above, ?_⟩
    intro c hc
    rcases (h.of_mem_order_dag hw hc).2.2.2 with rfl | ⟨hlt, -⟩
    · exact Nat.le_refl _
    · exact Nat.le_of_lt hlt
  · exact ((State.after_last_committed_round_le hw.latest).mp (Nat.le_refl _)).2 leader
      (h.mem_order_dag hw)

/-- A commit leaves the leaders of later rounds pending. -/
theorem State.Pending.after (hw : Wf gc_depth s) (h : s.Pending leader) {l : Certificate}
    (hl : s.Pending l) (hlt : leader.round < l.round) :
    (s.after (order_dag leader gc_depth s) gc_depth).Pending l := by
  have hround := h.last_committed_round_after hw
  refine ⟨?_, by omega⟩
  rw [hw.after_entry_of_le (by omega)]
  exact hl.entry

end

end sailfish.consensus
