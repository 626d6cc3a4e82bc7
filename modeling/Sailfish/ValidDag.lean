-- The whole dag that the nodes agree on, of which each node receives a part: one
-- certificate for each author and round, with a quorum of parents in the round
-- before. A leader with enough support is reached from every later round.
import Mathlib
import Sailfish.Trace

open Std Relation splits sailfish.crypto sailfish.config sailfish.primary

namespace sailfish.consensus

/-- The authorities of which one certificate of the list passes a test. -/
def authors (committee : Committee) (l : List Certificate) (test : Certificate → Bool) :
    List PublicKey :=
  committee.keys.filter fun n => l.any fun x => x.origin == n && test x

theorem sum_authors_le {committee : Committee} {l : List Certificate} {test : Certificate → Bool}
    {S : Set PublicKey} (hS : ∀ x ∈ l, test x = true → x.origin ∈ S) :
    ((authors committee l test).map committee.stake).sum ≤ committee.weight S := by
  apply Committee.sum_stake_le_weight
  · exact Committee.keys_nodup.filter _
  · intro n hn
    unfold authors at hn
    simp only [List.mem_filter, List.any_eq_true, Bool.and_eq_true, beq_iff_eq] at hn
    obtain ⟨-, x, hx, rfl, htest⟩ := hn
    exact hS x hx htest

section

variable [Crypto]

/-- `p` is a parent of `c`. -/
def Parent (p c : Certificate) : Prop := p.round + 1 = c.round ∧ p.digest ∈ c.header.parents

structure ValidDag (committee : Committee) (D : Set Certificate) : Prop where
  positive : ∀ c ∈ D, 0 < c.round
  unique : ∀ a ∈ D, ∀ b ∈ D, a.round = b.round → a.origin = b.origin → a = b
  quorum : ∀ c ∈ D, committee.quorum_threshold ≤ committee.weight
    {n | ∃ p, (p ∈ D ∨ p ∈ Certificate.genesis committee) ∧ Parent p c ∧ p.origin = n}

/-- What a node receives of the dag, each certificate after all its parents. -/
structure Received (committee : Committee) (D : Set Certificate) (l : List Certificate) : Prop where
  mem : ∀ c ∈ l, c ∈ D
  causal : Causal committee l
  parents_first : Each (fun pre c => ∀ p ∈ D, Parent p c → p ∈ pre) l

/-- From a certificate to a parent of the dag. -/
def Down (D : Set Certificate) (x y : Certificate) : Prop := y ∈ D ∧ Parent y x

/-- `y` is `x` or an ancestor of `x`. -/
abbrev Ancestor (D : Set Certificate) : Certificate → Certificate → Prop := ReflTransGen (Down D)

/-- The authors of the certificates of the dag that list `c` as a parent. -/
def supporters (D : Set Certificate) (c : Certificate) : Set PublicKey :=
  {n | ∃ x ∈ D, Parent c x ∧ x.origin = n}

/-- A certificate of the leader of its round, with f+1 support in the whole dag. -/
structure Supported (committee : Committee) (D : Set Certificate) (c : Certificate) : Prop where
  mem : c ∈ D
  leader : c.origin = committee.leader c.round
  support : committee.validity_threshold ≤ committee.weight (supporters D c)

variable {committee : Committee} {D : Set Certificate} {l l' : List Certificate}

theorem mem_of_ancestor {x y : Certificate} (hx : x ∈ D) (h : Ancestor D x y) : y ∈ D := by
  induction h with
  | refl => exact hx
  | tail _ hstep _ => exact hstep.1

/-- From round 2 on a parent is no genesis certificate. -/
theorem mem_of_parent {p x : Certificate} (hp : p ∈ D ∨ p ∈ Certificate.genesis committee)
    (hpx : Parent p x) (hr : 1 < x.round) : p ∈ D := by
  rcases hp with hp | hp
  · exact hp
  · obtain ⟨m, -, rfl⟩ := Certificate.mem_genesis.mp hp
    have hround : 0 + 1 = x.round := hpx.1
    omega

/-- A certificate from round 2 on has a parent among the certificates of any quorum of the round
before: here, one that supports `c`. -/
theorem ValidDag.exists_parent_of_supported (hD : ValidDag committee D) (hf : committee.Fits)
    {c x : Certificate} (hs : committee.validity_threshold ≤ committee.weight (supporters D c))
    (hx : x ∈ D) (hr : x.round = c.round + 2) : ∃ p, Down D x p ∧ Parent c p := by
  obtain ⟨n, ⟨p, hp, hpx, hpn⟩, ⟨q, hq, hcq, hqn⟩⟩ :=
    Committee.exists_mem_of_quorum_of_validity hf (hD.quorum x hx) hs
  have hpr := hpx.1
  have hqr := hcq.1
  have hpD := mem_of_parent hp hpx (by omega)
  obtain rfl : p = q := hD.unique p hpD q hq (by omega) (by rw [hpn, hqn])
  exact ⟨p, ⟨hpD, hpx⟩, hcq⟩

/-- Every certificate has a parent. -/
theorem ValidDag.exists_parent (hD : ValidDag committee D) {x : Certificate} (hx : x ∈ D) :
    ∃ p, (p ∈ D ∨ p ∈ Certificate.genesis committee) ∧ Parent p x := by
  have hlt : committee.weight ∅ < committee.weight
      {n | ∃ p, (p ∈ D ∨ p ∈ Certificate.genesis committee) ∧ Parent p x ∧ p.origin = n} := by
    apply Nat.lt_of_lt_of_le _ (hD.quorum x hx)
    rw [Committee.weight_empty]
    exact Committee.quorum_threshold_pos
  obtain ⟨n, -, ⟨p, hp, hpx, -⟩, -⟩ := Committee.exists_notMem_of_weight_lt hlt
  exact ⟨p, hp, hpx⟩

theorem ValidDag.haveParents (hD : ValidDag committee D) (hl : ∀ c ∈ l, c ∈ D) :
    HaveParents l := by
  intro c hc _ hempty
  obtain ⟨p, -, hp⟩ := hD.exists_parent (hl c hc)
  have hdigest := hp.2
  rw [hempty] at hdigest
  simp at hdigest

/-- A certificate with enough support is an ancestor of every certificate two rounds later or
more. -/
theorem ValidDag.ancestor_of_supported (hD : ValidDag committee D) (hf : committee.Fits)
    {c x : Certificate} (hc : c ∈ D)
    (hs : committee.validity_threshold ≤ committee.weight (supporters D c)) (hx : x ∈ D)
    (hr : c.round + 2 ≤ x.round) : Ancestor D x c := by
  obtain ⟨k, hk⟩ := Nat.exists_eq_add_of_le hr
  induction k generalizing x with
  | zero =>
    obtain ⟨p, hp, hcp⟩ := hD.exists_parent_of_supported hf hs hx hk
    exact .head hp (.single ⟨hc, hcp⟩)
  | succ k ih =>
    obtain ⟨p, hp, hpx⟩ := hD.exists_parent hx
    have hpr := hpx.1
    have hpD := mem_of_parent hp hpx (by omega)
    exact .head ⟨hpD, hpx⟩ (ih hpD (by omega) (by omega))

/-! ## What a node received -/

theorem Received.of_append (h : Received committee D (l ++ l')) : Received committee D l where
  mem := fun c hc => h.mem c (List.mem_append_left _ hc)
  causal := Each.of_append h.causal
  parents_first := h.parents_first.of_append

theorem Received.roundsFit {gc_depth : ℕ} (h : Received committee D l) (hdepth : gc_depth < 2 ^ 64)
    (hrange : ∀ x ∈ D, x.round + gc_depth < 2 ^ 64) : RoundsFit gc_depth l :=
  ⟨hdepth, fun c hc => hrange c (h.mem c hc)⟩

theorem Received.of_prefix (h : Received committee D l) (hp : l' <+: l) : Received committee D l' := by
  obtain ⟨rest, rfl⟩ := hp
  exact h.of_append

/-- The ancestors of what a node received are received too. -/
theorem Received.ancestor (h : Received committee D l) {x y : Certificate} (hx : x ∈ l)
    (hpath : Ancestor D x y) : y ∈ l := by
  induction hpath with
  | refl => exact hx
  | tail _ hstep ih =>
    obtain ⟨pre, post, heq, hpre⟩ := h.parents_first.of_mem ih
    rw [heq]
    exact List.mem_append_left _ (hpre _ hstep.1 hstep.2)

variable {gc_depth : ℕ} {Ok : State → List Commit → Certificate → Prop} {s : State}
  {commits : List Commit}

/-- With one certificate for each author and round, a certificate stays in the dag of the node
until its round is below the last committed round. -/
theorem Trace.entry_of_delivered (h : Trace committee gc_depth Ok l s commits)
    (hu : ∀ a ∈ l, ∀ b ∈ l, a.round = b.round → a.origin = b.origin → a = b)
    {c : Certificate} (hm : c ∈ l) (hr : s.last_committed_round ≤ c.round) :
    s.dag.entry c.round c.origin = some (c.digest, c) := by
  induction h with
  | spawn => cases hm
  | @deliver l s _ x htrace _ _ ih =>
    rw [State.insert_dag_entry]
    split
    · rename_i heq
      rw [hu c hm x (by simp) heq.1 heq.2]
    · rename_i hne
      refine ih (fun a ha b hb => hu a (by simp [ha]) b (by simp [hb])) ?_ hr
      rcases List.mem_append.mp hm with hm | hm
      · exact hm
      · rw [List.mem_singleton.mp hm] at hne
        exact absurd ⟨rfl, rfl⟩ hne
  | @commit _ s _ leader htrace hp ih =>
    have hw := htrace.wf
    have hlcr := hp.last_committed_round_after hw
    have habove := hp.above
    rw [hw.after_entry_of_le hr]
    exact ih hu hm (by omega)

section View

/-! The view of a node that received a part of the dag: above its last committed round it sees the
dag as it is. -/

variable (hD : ValidDag committee D) (hl : Received committee D l)
  (h : Trace committee gc_depth Ok l s commits)

include hD hl h

theorem Trace.entry_iff {r : ℕ} {n : PublicKey} {x : Certificate}
    (hr : s.last_committed_round < r) : s.dag.entry r n = some (x.digest, x) ↔
      x ∈ l ∧ x.round = r ∧ x.origin = n := by
  constructor
  · intro hx
    obtain ⟨-, hround, horigin⟩ := h.wf.filed _ _ _ _ hx
    refine ⟨?_, hround, horigin⟩
    rcases h.delivered_of_entry hx with hm | hm
    · exact hm
    · obtain ⟨m, -, rfl⟩ := Certificate.mem_genesis.mp hm
      exact absurd hround (Nat.ne_of_lt (Nat.zero_lt_of_lt hr))
  · rintro ⟨hm, rfl, rfl⟩
    exact h.entry_of_delivered
      (fun a ha b hb => hD.unique a (hl.mem a ha) b (hl.mem b hb)) hm (Nat.le_of_lt hr)

theorem Trace.path_iff {x y : Certificate} (hx : x ∈ l) (hy : s.last_committed_round < y.round) :
    s.dag.Path x y ↔ Ancestor D x y := by
  constructor
  · intro hpath
    induction hpath with
    | refl => exact .refl
    | tail _ hedge ih =>
      have hr := hedge.1
      have hm := ((h.entry_iff hD hl hy).mp hedge.2.2).1
      exact (ih (by omega)).tail ⟨hl.mem _ hm, hr, hedge.2.1⟩
  · intro hpath
    induction hpath with
    | refl => exact .refl
    | @tail z y hxz hstep ih =>
      have hr := hstep.2.1
      have hm := hl.ancestor hx (hxz.tail hstep)
      exact (ih (by omega)).tail ⟨hr, hstep.2.2, (h.entry_iff hD hl hy).mpr ⟨hm, rfl, rfl⟩⟩

end View

/-! ## Dags given as lists

The three predicates, checked on a list of certificates. -/

/-- `p` is a parent of `c`. -/
def is_parent (p c : Certificate) : Bool :=
  p.round + 1 == c.round && c.header.parents.contains p.digest

theorem is_parent_iff {p c : Certificate} : is_parent p c = true ↔ Parent p c := by
  simp [is_parent, Parent, ExtTreeSet.contains_iff_mem]

def valid_dag (committee : Committee) (l : List Certificate) : Bool :=
  l.all (fun c => 0 < c.round) && decide (l.map fun c => (c.round, c.origin)).Nodup &&
    l.all fun c => committee.quorum_threshold ≤
      ((authors committee (l ++ Certificate.genesis committee) (is_parent · c)).map
        committee.stake).sum

theorem validDag_of_check (h : valid_dag committee l = true) :
    ValidDag committee {c | c ∈ l} := by
  simp only [valid_dag, Bool.and_eq_true, List.all_eq_true, decide_eq_true_eq] at h
  obtain ⟨⟨hpos, hnodup⟩, hquorum⟩ := h
  refine ⟨hpos, ?_, ?_⟩
  · intro a ha b hb hr ho
    exact List.inj_on_of_nodup_map hnodup ha hb (by rw [hr, ho])
  · intro c hc
    apply Nat.le_trans (hquorum c hc)
    apply sum_authors_le
    intro x hx hp
    exact ⟨x, List.mem_append.mp hx, is_parent_iff.mp hp, rfl⟩

/-- The certificates of `l` are received in an order that a node of the dag `dag` can see. -/
def received (committee : Committee) (dag l : List Certificate) : Bool :=
  l.all dag.contains && decide (Causal committee l) &&
    each (fun pre c => dag.all fun p => !is_parent p c || pre.contains p) [] l

theorem received_of_check {dag : List Certificate} (h : received committee dag l = true) :
    Received committee {c | c ∈ dag} l := by
  simp only [received, Bool.and_eq_true, List.all_eq_true, List.contains_iff_mem,
    decide_eq_true_eq, each_iff, List.nil_append, Bool.or_eq_true, Bool.not_eq_true'] at h
  obtain ⟨⟨hm, hc⟩, hfirst⟩ := h
  refine ⟨hm, hc, hfirst.imp ?_⟩
  intro pre c h p hp hpc
  rcases h p hp with hn | hm
  · rw [is_parent_iff.mpr hpc] at hn
    cases hn
  · exact hm

end

end sailfish.consensus
