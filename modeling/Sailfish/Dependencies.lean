-- The law of dependencies: a commit adds to the sequence every ancestor of its leader
-- that is recent enough, unless an earlier commit dropped that ancestor from the dag.
import Mathlib
import Sailfish.ValidDag
import Sailfish.Sequence

open Std Relation splits sailfish.crypto sailfish.config sailfish.primary

namespace sailfish.consensus

section

variable [Crypto] {committee : Committee} {gc_depth : ℕ} {s : State} {leader x y : Certificate}

/-! ## What the search reaches -/

/-- The dag holds the certificate, under its digest. -/
abbrev Dag.Has (dag : Dag) (c : Certificate) : Prop :=
  dag.entry c.round c.origin = some (c.digest, c)

/-- No two entries of the dag have the same digest. -/
def Dag.Distinct (dag : Dag) : Prop := ∀ x ∈ dag.entries, ∀ y ∈ dag.entries, x.1 = y.1 → x = y

instance (dag : Dag) : Decidable dag.Distinct :=
  inferInstanceAs (Decidable (∀ x ∈ dag.entries, ∀ y ∈ dag.entries, x.1 = y.1 → x = y))

theorem Dag.Filed.lookup_eq_some (h : s.dag.Filed) (hd : s.dag.Distinct) {round : ℕ}
    {parent : Digest} {y : Digest × Certificate} : s.lookup round parent = some y ↔
      y.1 = parent ∧ y.1 = y.2.digest ∧ y.2.round = wrapping_pred round ∧ s.dag.Has y.2 ∧
        s.last_committed[y.2.origin]? ≠ some y.2.round := by
  refine ⟨h.of_lookup, ?_⟩
  obtain ⟨d, c⟩ := y
  rintro ⟨rfl, hd', hround, hself, hopen⟩
  simp only at hd' hround hself hopen
  subst hd'
  obtain ⟨layer, hl, hn⟩ := Dag.layer_of_entry hself
  have hm : (c.digest, c) ∈ layer.values := Layer.mem_values.mpr ⟨_, hn⟩
  have hfind : layer.values.find? (fun x => x.1 == c.digest) = some (c.digest, c) := by
    have hsome : (layer.values.find? (fun x => x.1 == c.digest)).isSome :=
      List.find?_isSome.mpr ⟨(c.digest, c), hm, by simp⟩
    obtain ⟨z, hz⟩ := Option.isSome_iff_exists.mp hsome
    obtain ⟨n, hzn⟩ := Layer.mem_values.mp (List.mem_of_find?_eq_some hz)
    rw [← Dag.entry_of_layer hl] at hzn
    rw [hz, hd z (Dag.mem_entries.mpr ⟨_, _, hzn⟩) _ (Dag.mem_entries.mpr ⟨_, _, hself⟩)
      (by simpa using List.find?_some hz)]
  unfold State.lookup
  rw [← hround]
  simp [hl, hfind, hopen]

/-- The search goes on to the steps. -/
theorem Dag.Filed.mem_next_iff (h : s.dag.Filed) (hd : s.dag.Distinct) {x y : Digest × Certificate}
    (hx : s.dag.Grounded x.2) : y ∈ s.next x ↔ y.1 = y.2.digest ∧ s.Step x.2 y.2 := by
  refine ⟨h.step_of_mem_next hx, ?_⟩
  rintro ⟨hdigest, hstep⟩
  have hr := hstep.1.1
  refine List.mem_filterMap.mpr ⟨y.2.digest, ExtTreeSet.mem_toList.mpr hstep.1.2.1, ?_⟩
  rw [h.lookup_eq_some hd, wrapping_pred, if_neg (by omega)]
  exact ⟨hdigest, hdigest, by omega, hstep.1.2.2, hstep.2⟩

/-- The search pops exactly the certificates that it reaches from the leader, step by step. -/
theorem Dag.Filed.mem_popped_iff (h : s.dag.Filed) (hd : s.dag.Distinct)
    (hground : ∀ x, x = leader ∨ s.dag.Has x → s.dag.Grounded x) {y : Digest × Certificate} :
    y ∈ s.popped leader ↔ y.1 = y.2.digest ∧ ReflTransGen s.Step leader y.2 := by
  have hnext : ∀ x z : Digest × Certificate, x.2 = leader ∨ s.dag.Has x.2 →
      (z ∈ s.next x ↔ z.1 = z.2.digest ∧ s.Step x.2 z.2) :=
    fun x z hx => h.mem_next_iff hd (hground x.2 hx)
  rw [(s.walk_popped leader).mem_iff_reachable (R := {y | y.1 = y.2.digest ∧ s.dag.Has y.2})]
  · refine ⟨h.steps_of_next hground rfl, ?_⟩
    obtain ⟨d, c⟩ := y
    rintro ⟨hdigest, hpath⟩
    simp only at hdigest hpath
    subst hdigest
    induction hpath with
    | refl => exact .refl
    | @tail x z hx hstep ih =>
      refine ih.tail ((hnext _ _ ?_).mpr ⟨rfl, hstep⟩)
      rcases hx.cases_tail with heq | ⟨w, -, hw⟩
      · exact Or.inl heq
      · exact Or.inr hw.1.2.2
  · rintro x ⟨-, hx⟩ z hz
    obtain ⟨hdz, hstep⟩ := (hnext x z (Or.inr hx)).mp hz
    exact ⟨hdz, hstep.1.2.2⟩
  · rintro a ⟨hda, ha⟩ b ⟨hdb, hb⟩ hkey
    rw [Dag.Has, ← hda] at ha
    rw [Dag.Has, ← hdb] at hb
    exact hd a (Dag.mem_entries.mpr ⟨_, _, ha⟩) b (Dag.mem_entries.mpr ⟨_, _, hb⟩) hkey
  · intro z hz
    obtain ⟨hdz, hstep⟩ := (hnext (leader.digest, leader) z (Or.inl rfl)).mp hz
    exact ⟨hdz, hstep.1.2.2⟩

/-- A sub-dag holds what the search reaches and the garbage collector leaves. -/
theorem Dag.Filed.mem_order_dag_iff (h : s.dag.Filed) (hd : s.dag.Distinct)
    (hground : ∀ x, x = leader ∨ s.dag.Has x → s.dag.Grounded x) : x ∈ order_dag leader gc_depth s ↔
      ReflTransGen s.Step leader x ∧
        s.last_committed_round ≤ wrapping_add x.round gc_depth := by
  rw [mem_order_dag]
  refine and_congr_left' ⟨?_, ?_⟩
  · rintro ⟨d, hx⟩
    exact ((h.mem_popped_iff hd hground).mp hx).2
  · intro hpath
    exact ⟨x.digest, (h.mem_popped_iff hd hground).mpr ⟨rfl, hpath⟩⟩

theorem State.Pending.mem_order_dag_iff (hw : Wf gc_depth s) (hd : s.dag.Distinct)
    (h : s.Pending leader) : x ∈ order_dag leader gc_depth s ↔
      ReflTransGen s.Step leader x ∧ s.last_committed_round ≤ x.round + gc_depth := by
  have hground : ∀ y, y = leader ∨ s.dag.Has y → s.dag.Grounded y := by
    rintro y (rfl | hy)
    · exact Dag.grounded_of_empty (hw.grounded _ _ _ _ h.entry)
    · exact Dag.grounded_of_empty (hw.grounded _ _ _ _ hy)
  rw [hw.filed_dag.mem_order_dag_iff hd hground]
  refine and_congr_right ?_
  intro hpath
  rw [wrapping_add_of_lt (hw.fits _ _ _ (h.entry_of_steps hpath))]

end

/-! ## One certificate for each author and round -/

section

variable [Crypto]

/-- One certificate for each author and round from 1 on, and one for each digest. -/
structure OneEach (committee : Committee) (D : Set Certificate) : Prop where
  positive : ∀ c ∈ D, 0 < c.round
  unique : ∀ a ∈ D, ∀ b ∈ D, a.round = b.round → a.origin = b.origin → a = b
  digests : Set.InjOn Certificate.digest {c | c ∈ D ∨ c ∈ Certificate.genesis committee}

variable {committee : Committee} {gc_depth : ℕ} {D : Set Certificate} {l : List Certificate}

theorem OneEach.not_genesis (hD : OneEach committee D) {c : Certificate} (hc : c ∈ D) :
    c ∉ Certificate.genesis committee := by
  intro hg
  obtain ⟨n, -, rfl⟩ := Certificate.mem_genesis.mp hg
  exact absurd (hD.positive _ hc) (Nat.lt_irrefl 0)

/-- With one certificate for each digest, the deliveries in causal order are closed under the
parents. -/
theorem OneEach.received (hD : OneEach committee D) (hl : ∀ c, c ∈ l ↔ c ∈ D)
    (hc : Causal committee l) : Received committee D l where
  mem := fun c hm => (hl c).mp hm
  causal := hc
  parents_first := by
    intro pre c post heq p hp hpc
    obtain ⟨q, hq, hdigest, -⟩ := hc pre c post heq p.digest (ExtTreeSet.mem_toList.mpr hpc.2)
    have hqD : q ∈ pre → q ∈ D := by
      intro hm
      exact (hl q).mp (by rw [heq]; exact List.mem_append_left _ hm)
    have hqp : q = p := by
      apply hD.digests _ (Or.inl hp) hdigest
      rcases List.mem_append.mp hq with hm | hm
      · exact Or.inl (hqD hm)
      · exact Or.inr hm
    subst hqp
    rcases List.mem_append.mp hq with hm | hm
    · exact hm
    · exact absurd hm (hD.not_genesis hp)

section View

variable {Ok : State → List Commit → Certificate → Prop} {s : State} {commits : List Commit}
  {leader x p : Certificate} (hD : OneEach committee D) (hl : Received committee D l)
  (h : Trace committee gc_depth Ok l s commits)

include hl h

theorem Trace.mem_of_has {d : Digest} {r : ℕ} {n : PublicKey} (hx : s.dag.entry r n = some (d, x)) :
    x ∈ D ∨ x ∈ Certificate.genesis committee :=
  (h.delivered_of_entry hx).imp_left (hl.mem x)

omit hl in
theorem Trace.leader_mem (hp : s.Pending leader) : leader ∈ l := by
  rcases h.delivered_of_entry hp.entry with hm | hm
  · exact hm
  · obtain ⟨n, -, rfl⟩ := Certificate.mem_genesis.mp hm
    exact absurd hp.above (Nat.not_lt_zero _)

include hD

theorem Trace.distinct : s.dag.Distinct := by
  have hw := h.wf
  rintro ⟨d, a⟩ ha ⟨d', b⟩ hb heq
  obtain ⟨r, n, ha⟩ := Dag.mem_entries.mp ha
  obtain ⟨r', n', hb⟩ := Dag.mem_entries.mp hb
  obtain ⟨rfl, -, -⟩ := hw.filed _ _ _ _ ha
  obtain ⟨rfl, -, -⟩ := hw.filed _ _ _ _ hb
  rw [hD.digests (h.mem_of_has hl ha) (h.mem_of_has hl hb) heq]

/-- The search never goes on to a genesis certificate: round 0 is committed for its author from
the start, and a later round drops it. -/
theorem Trace.mem_of_step (hstep : s.Step x p) : Down D x p := by
  have hself := hstep.1.2.2
  rcases h.mem_of_has hl hself with hm | hg
  · exact ⟨hm, hstep.1.1, hstep.1.2.1⟩
  · exfalso
    have hle : s.last p.origin ≤ p.round := by
      refine h.last_le_of_entry (Q := fun _ c => c ∈ Certificate.genesis committee) ?_
        hself hg
      intro pre s' ks c hpre _ _ hq
      exact absurd hq (hD.not_genesis (hl.mem c (hpre.subset (by simp))))
    obtain ⟨n, hn, rfl⟩ := Certificate.mem_genesis.mp hg
    obtain ⟨lc, hlc, -⟩ := h.tracked hn
    apply hstep.2
    change s.last_committed[n]? = some 0
    change s.last n ≤ 0 at hle
    unfold State.last at hle
    rw [hlc] at hle ⊢
    rw [Option.getD_some, Nat.le_zero] at hle
    rw [hle]

theorem Trace.ancestor_of_steps (hpath : ReflTransGen s.Step leader x) : Ancestor D leader x :=
  ReflTransGen.mono (fun _ _ hstep => h.mem_of_step hD hl hstep) _ _ hpath

/-- A certificate of a sub-dag was in the dag, and it is an ancestor of the leader. -/
theorem Trace.of_mem_block {k : Commit} (hk : k ∈ commits) (hx : x ∈ k.block) :
    k.before.dag.Has x ∧ Ancestor D k.leader x ∧ x ∈ D := by
  obtain ⟨_, _, -, first, hfirst, htrace, hp, hblock⟩ := h.before.of_mem hk
  have hl' := hl.of_prefix hfirst
  obtain ⟨hpath, -, hself, -⟩ := hp.of_mem_order_dag htrace.wf (hblock ▸ hx)
  have hanc := htrace.ancestor_of_steps hD hl' hpath
  exact ⟨hself, hanc, mem_of_ancestor (hl'.mem _ (htrace.leader_mem hp)) hanc⟩

/-- Once each certificate is delivered at most once, one that is still in the dag after a commit
that found it there is not below the last committed round of its author. -/
theorem Trace.last_le_of_seen (hnodup : l.Nodup) {k : Commit} (hk : k ∈ commits) (hx : x ∈ D)
    (hseen : k.before.dag.Has x) (hself : s.dag.Has x) : s.last x.origin ≤ x.round := by
  refine h.last_le_of_entry
    (Q := fun ks c => c ∈ D ∧ ∃ k ∈ ks, k.before.dag.Has c) ?_ hself ⟨hx, k, hk, hseen⟩
  rintro pre s' ks c hpre htrace - ⟨hc, k, hk, hseen⟩
  exfalso
  obtain ⟨rest, rfl⟩ := hpre
  obtain ⟨_, _, -, first, hfirst, hbefore, -⟩ := htrace.before.of_mem hk
  have hl' := hl.of_append.of_append
  obtain ⟨more, rfl⟩ := hfirst
  rcases hbefore.delivered_of_entry hseen with hm | hg
  · have hnd := hnodup.of_append_left
    rw [List.nodup_append] at hnd
    exact hnd.2.2 c (List.mem_append_left _ hm) c List.mem_cons_self rfl
  · exact hD.not_genesis hc hg

end View

/-! ## The certificates that a commit drops -/

/-- An earlier commit found the certificate in the dag, and left a round of its author committed
that is later, or a last committed round too far above it. -/
def Dropped (gc_depth : ℕ) (commits : List Commit) (p : Certificate) : Prop :=
  ∃ pre k post, commits = pre ++ k :: post ∧ k.before.dag.Has p ∧
    (p.round + gc_depth < k.leader.round ∨
      ∃ c ∈ output (pre ++ [k]), c.origin = p.origin ∧ p.round < c.round)

/-- The certificate is an ancestor of one of the leaders committed so far. -/
def Referenced (D : Set Certificate) (commits : List Commit) (x : Certificate) : Prop :=
  ∃ k ∈ commits, Ancestor D k.leader x

/-- Each commit adds all the recent ancestors of its leader that are not in the sequence yet. -/
def Complete (D : Set Certificate) (gc_depth : ℕ) (commits : List Commit) : Prop :=
  Each (fun pre k => ∀ x, Ancestor D k.leader x → k.floor ≤ x.round + gc_depth →
    x ∈ output (pre ++ [k])) commits

/-- No leader has a recent ancestor that was in the dag at an earlier commit, but was no ancestor
of the leaders committed up to there, while they had a later one of its author. -/
def NoLateReference (D : Set Certificate) (gc_depth : ℕ) (commits : List Commit) : Prop :=
  Each (fun pre k' => ∀ p, Ancestor D k'.leader p → k'.floor ≤ p.round + gc_depth →
    Each (fun first k => k.before.dag.Has p →
      ∀ c, Referenced D (first ++ [k]) c → c.origin = p.origin → p.round < c.round →
        Referenced D (first ++ [k]) p) pre) commits

theorem Dropped.append {commits : List Commit} {p : Certificate} (h : Dropped gc_depth commits p)
    (rest : List Commit) : Dropped gc_depth (commits ++ rest) p := by
  obtain ⟨pre, k, post, rfl, h⟩ := h
  exact ⟨pre, k, post ++ rest, by simp, h⟩

section View

variable {Ok : State → List Commit → Certificate → Prop} {s : State} {commits : List Commit}
  {leader x p : Certificate}

/-- A delivery stays in the dag until a commit drops it. -/
theorem Trace.has_or_dropped (h : Trace committee gc_depth Ok l s commits)
    (hu : ∀ a ∈ l, ∀ b ∈ l, a.round = b.round → a.origin = b.origin → a = b) (hp : p ∈ l) :
    s.dag.Has p ∨ Dropped gc_depth commits p := by
  induction h with
  | spawn => cases hp
  | @deliver l s _ c _ _ _ ih =>
    unfold Dag.Has
    rw [State.insert_dag_entry]
    by_cases heq : p.round = c.round ∧ p.origin = c.origin
    · rw [if_pos heq, hu p hp c (by simp) heq.1 heq.2]
      exact Or.inl rfl
    · rw [if_neg heq]
      refine ih (fun a ha b hb => hu a (by simp [ha]) b (by simp [hb])) ?_
      rcases List.mem_append.mp hp with hm | hm
      · exact hm
      · rw [List.mem_singleton.mp hm] at heq
        exact absurd ⟨rfl, rfl⟩ heq
  | @commit _ s ks leader htrace hpend ih =>
    have hround := hpend.last_committed_round_after htrace.wf
    have hne : order_dag leader gc_depth s ≠ [] :=
      List.ne_nil_of_mem (hpend.mem_order_dag htrace.wf)
    rcases ih hu hp with hself | hdropped
    · unfold Dag.Has
      rw [State.after_dag_entry hne, hround, wrapping_add_of_lt (htrace.wf.fits _ _ _ hself)]
      split
      · exact Or.inl hself
      · rename_i hcut
        refine Or.inr ⟨ks, _, [], rfl, hself, ?_⟩
        by_cases hgc : leader.round ≤ p.round + gc_depth
        · obtain ⟨c, hm, hcn, hcr⟩ := (htrace.commit hpend).output_of_last (n := p.origin) (by omega)
          exact Or.inr ⟨c, hm, hcn, by omega⟩
        · exact Or.inl (by simp only; omega)
    · exact Or.inr (hdropped.append _)

variable (hD : OneEach committee D) (hl : Received committee D l) (hnodup : l.Nodup)
  (h : Trace committee gc_depth Ok l s commits)

include hl h

omit hl in
/-- The recent ancestors of the leaders committed so far are in the sequence. -/
theorem Trace.output_of_referenced (hall : Complete D gc_depth commits) {ks : List Commit}
    (hks : ks <+: commits) (hx : Referenced D ks x)
    (hr : s.last_committed_round ≤ x.round + gc_depth) : x ∈ output ks := by
  obtain ⟨k, hk, hpath⟩ := hx
  obtain ⟨rest, rfl⟩ := hks
  obtain ⟨hfloor, hle⟩ := h.leader_round_le (List.mem_append_left rest hk)
  obtain ⟨pre, post, rfl, hadd⟩ := Each.of_mem (Each.of_append hall) hk
  have hm := hadd x hpath (by omega)
  rw [List.append_cons, output_append]
  exact List.mem_append_left _ hm

include hD

/-- What is in the sequence is an ancestor of a leader committed so far. -/
theorem Trace.referenced_of_output {ks : List Commit} (hks : ks ⊆ commits) (hx : x ∈ output ks) :
    Referenced D ks x := by
  obtain ⟨k, hk, hm⟩ := mem_output.mp hx
  exact ⟨k, hk, (h.of_mem_block hD hl (hks hk) hm).2.1⟩

include hnodup

/-- At a commit that meets the condition, the recent ancestors of the leader that are not in the
sequence yet are the ones that the search may go on to. -/
theorem Trace.not_mem_output_iff (hall : Complete D gc_depth commits) (hp : s.Pending leader)
    {block : List Certificate}
    (hlate : NoLateReference D gc_depth (commits ++ [{ leader, before := s, block }]))
    (hx : Ancestor D leader x) (hr : s.last_committed_round ≤ x.round + gc_depth) :
    x ∉ output commits ↔ s.dag.Has x ∧ s.last_committed[x.origin]? ≠ some x.round := by
  have hxl := hl.ancestor (h.leader_mem hp) hx
  have hxD := hl.mem x hxl
  constructor
  · intro hout
    constructor
    · rcases h.has_or_dropped
        (fun a ha b hb => hD.unique a (hl.mem a ha) b (hl.mem b hb)) hxl with hself | hdropped
      · exact hself
      · exfalso
        obtain ⟨pre, k, post, rfl, hseen, hcut⟩ := hdropped
        have hround := (h.leader_round_le (k := k) (by simp)).2
        obtain ⟨c, hc, hcn, hcr⟩ := hcut.resolve_left (by omega)
        rw [List.append_cons] at h hall hout
        have hprefix := List.prefix_append (pre ++ [k]) post
        have hcref := h.referenced_of_output hD hl hprefix.subset hc
        -- the later one of its author has a leader, so the condition gives one for it too
        have href := hlate.last x hx hr pre k post rfl hseen c hcref hcn hcr
        rw [output_append] at hout
        exact hout (List.mem_append_left _ (h.output_of_referenced hall hprefix href hr))
    · intro hlast
      have hpos := hD.positive x hxD
      rw [State.last_eq hpos] at hlast
      obtain ⟨c, hc, hcn, hcr⟩ := h.output_of_last (n := x.origin) (by omega)
      obtain ⟨k, hk, hm⟩ := mem_output.mp hc
      have hcD := (h.of_mem_block hD hl hk hm).2.2
      rw [← hD.unique c hcD x hxD (by omega) hcn] at hout
      exact hout hc
  · rintro ⟨hself, hopen⟩ hout
    obtain ⟨k, hk, hm⟩ := mem_output.mp hout
    have hseen := (h.of_mem_block hD hl hk hm).1
    have hle := h.last_le_of_seen hD hl hnodup hk hxD hseen hself
    have := (h.committed_of_output hout).lt_last hopen
    omega

/-- At a commit that meets the condition, the search reaches the recent ancestors of the leader
that are not in the sequence yet. -/
theorem Trace.steps_of_ancestor (hall : Complete D gc_depth commits) (hp : s.Pending leader)
    {block : List Certificate}
    (hlate : NoLateReference D gc_depth (commits ++ [{ leader, before := s, block }]))
    (hx : Ancestor D leader x) (hr : s.last_committed_round ≤ x.round + gc_depth)
    (hout : x ∉ output commits) : ReflTransGen s.Step leader x := by
  induction hx with
  | refl => exact .refl
  | @tail y x hy hstep ih =>
    have hround := hstep.2.1
    have hyr : s.last_committed_round ≤ y.round + gc_depth := by omega
    -- the ancestors of a certificate of the sequence are in the sequence
    have hyout : y ∉ output commits := by
      intro hm
      obtain ⟨k, hk, hpath⟩ := h.referenced_of_output hD hl (List.Subset.refl _) hm
      exact hout (h.output_of_referenced hall (List.prefix_refl _)
        ⟨k, hk, hpath.tail hstep⟩ hr)
    obtain ⟨hself, hopen⟩ :=
      (h.not_mem_output_iff hD hl hnodup hall hp hlate (hy.tail hstep) hr).mp hout
    exact (ih hyr hyout).tail ⟨⟨hround, hstep.2.2, hself⟩, hopen⟩

/-- A certificate that a commit passed by is dropped for good, so a complete commit that has it as
a recent ancestor finds it referenced before. -/
theorem Trace.noLateReference_of_complete (hall : Complete D gc_depth commits) :
    NoLateReference D gc_depth commits := by
  rintro pre k' post rfl p hpath hr first k mid rfl hseen c hcref hcn hcr
  have hadd := hall _ k' post rfl p hpath hr
  rw [List.append_assoc, List.cons_append, List.append_cons, output_append, List.mem_append] at hadd
  rcases hadd with hm | hm
  · refine h.referenced_of_output hD hl ?_ hm
    intro k₁ hk₁
    have : k₁ ∈ first ∨ k₁ = k := by simpa using hk₁
    rcases this with h1 | rfl <;> simp [*]
  · -- added later, when its author is past it
    exfalso
    obtain ⟨k₂, hk₂, hm⟩ := mem_output.mp hm
    have hfloor : k₂.floor ≤ k'.floor := by
      rcases List.mem_append.mp hk₂ with hmid | hlast
      · obtain ⟨l₁, hl₁, htrace, -, -⟩ := h.before _ k' post rfl
        obtain ⟨rest, rfl⟩ := hl₁
        have := htrace.leader_round_le (k := k₂) (by simp [hmid])
        have heq : k'.floor = k'.before.last_committed_round := rfl
        omega
      · rw [List.mem_singleton.mp hlast]
    obtain ⟨a, b, hab⟩ := List.append_of_mem hk₂
    have heq : (first ++ k :: mid) ++ k' :: post = (first ++ k :: a) ++ k₂ :: (b ++ post) := by
      have := congrArg (fun l => first ++ k :: l ++ post) hab
      simpa using this
    rw [heq] at h hall
    obtain ⟨hself, -, hpD⟩ := h.of_mem_block hD hl (k := k₂) (by simp) hm
    obtain ⟨l₂, hl₂, htrace, -, -⟩ := h.before _ k₂ _ rfl
    have hl' := hl.of_prefix hl₂
    have hle := htrace.last_le_of_seen hD hl' (hnodup.sublist hl₂.sublist) (k := k) (by simp) hpD
      hseen hself
    have hwindow : k₂.floor = k₂.before.last_committed_round := rfl
    have hall' : Complete D gc_depth (first ++ k :: a) := Each.of_append hall
    rw [List.append_cons] at htrace hall'
    have hc := htrace.output_of_referenced hall' (List.prefix_append _ _) hcref (by omega)
    have hcommitted := htrace.committed_of_output (c := c)
      (by rw [output_append]; exact List.mem_append_left _ hc)
    have := hcommitted.le_last
    rw [hcn] at this
    omega

end View

/-- A commit of a node that received a part of the dag, each certificate once. -/
def CommitOf (committee : Committee) (D : Set Certificate) (gc_depth : ℕ) (pre : List Commit)
    (k : Commit) : Prop :=
  ∃ l, Received committee D l ∧ l.Nodup ∧ Trace committee gc_depth Any l k.before pre ∧
    k.before.Pending k.leader ∧ k.block = order_dag k.leader gc_depth k.before

theorem commitOf_of_run {events : List Event} {c : Consensus}
    (hl : Received committee D (certificates events)) (hnodup : (certificates events).Nodup)
    (hfit : RoundsFit gc_depth (certificates events))
    (hrun : Consensus.run committee gc_depth events = some c) :
    Each (CommitOf committee D gc_depth) c.commits := by
  refine (any_trace_of_run hl.causal hfit hrun).before.imp ?_
  rintro pre k ⟨first, hfirst, hrest⟩
  exact ⟨first, hl.of_prefix hfirst, hnodup.sublist hfirst.sublist, hrest⟩

/-- Every commit of a trace that meets the condition is complete. -/
theorem complete_of_noLateReference (hD : OneEach committee D) {commits : List Commit}
    (hbefore : Each (CommitOf committee D gc_depth) commits)
    (hlate : NoLateReference D gc_depth commits) : Complete D gc_depth commits := by
  induction commits using List.reverseRecOn with
  | nil => exact each_nil
  | append_singleton commits k ih =>
    have hall := ih hbefore.of_append hlate.of_append
    refine Each.concat hall ?_
    obtain ⟨l, hl, hnodup, h, hp, hblock⟩ := hbefore.last
    intro x hx hr
    rw [output_append, output_singleton, List.mem_append]
    by_cases hout : x ∈ output commits
    · exact Or.inl hout
    · right
      have hlate' : NoLateReference D gc_depth
          (commits ++ [{ leader := k.leader, before := k.before, block := k.block }]) := hlate
      have hsteps := h.steps_of_ancestor hD hl hnodup hall hp hlate' hx hr hout
      rw [hblock, hp.mem_order_dag_iff h.wf (h.distinct hD hl)]
      exact ⟨hsteps, hr⟩

/-- For every run whose certificates are delivered once, each after its parents of the round before,
with one certificate for each author and round and rounds that fit: each commit puts all the recent
ancestors of its leader in the sequence, if and only if no leader refers to a certificate that an
earlier commit passed by. -/
theorem leader_commits_its_dependencies_without_late_references (committee : Committee)
    (gc_depth : ℕ) (events : List Event) (c : Consensus)
    (hD : OneEach committee {x | x ∈ certificates events})
    (hnodup : (certificates events).Nodup) (hc : Causal committee (certificates events))
    (hfit : RoundsFit gc_depth (certificates events))
    (hrun : Consensus.run committee gc_depth events = some c) :
    Each (fun pre k => ∀ x, Ancestor {x | x ∈ certificates events} k.leader x →
        k.floor ≤ x.round + gc_depth → x ∈ output (pre ++ [k])) c.commits ↔
      NoLateReference {x | x ∈ certificates events} gc_depth c.commits := by
  have hl := hD.received (fun _ => Iff.rfl) hc
  have h := any_trace_of_run hc hfit hrun
  constructor
  · exact h.noLateReference_of_complete hD hl hnodup
  · exact complete_of_noLateReference hD (commitOf_of_run hl hnodup hfit hrun)

/-! ## Two runs -/

/-- A first commit refers to nothing that an earlier one passed by. -/
theorem noLateReference_of_first {D : Set Certificate} {gc_depth : ℕ} {commits : List Commit}
    (h : commits.length ≤ 1) : NoLateReference D gc_depth commits := by
  intro pre k post heq p _ _
  rw [heq, List.length_append, List.length_cons] at h
  obtain rfl : pre = [] := List.length_eq_zero_iff.mp (by omega)
  exact each_nil

/-- `OneEach`, checked on a list of certificates. -/
def one_each (committee : Committee) (l : List Certificate) : Bool :=
  l.all (fun c => 0 < c.round) && decide (l.map fun c => (c.round, c.origin)).Nodup &&
    decide ((l ++ Certificate.genesis committee).map Certificate.digest).Nodup

theorem oneEach_of_check {committee : Committee} {l : List Certificate}
    (h : one_each committee l = true) : OneEach committee {c | c ∈ l} := by
  simp only [one_each, Bool.and_eq_true, List.all_eq_true, decide_eq_true_eq] at h
  obtain ⟨⟨hpos, hnodup⟩, hdigests⟩ := h
  refine ⟨hpos, ?_, ?_⟩
  · intro a ha b hb hr ho
    exact List.inj_on_of_nodup_map hnodup ha hb (by rw [hr, ho])
  · intro a ha b hb heq
    exact List.inj_on_of_nodup_map hdigests (List.mem_append.mpr ha) (List.mem_append.mpr hb) heq

end

section

attribute [local instance] crypto.sample

/-- Authority 2 is a quorum on its own. The leaders of rounds 1, 2 and 3 are 2, 3 and 1. -/
def three : Committee := .sample [(1, 1), (2, 5), (3, 1)] (by simp)

def main1 : Certificate := .sample 2 1 [.genesis_of 2]
def side1 : Certificate := .sample 3 1 [.genesis_of 2]
def main2 : Certificate := .sample 2 2 [main1]
def side2 : Certificate := .sample 3 2 [main1]
def third2 : Certificate := .sample 1 2 [main1, side1]
def main3 : Certificate := .sample 2 3 [main2, side2]
def third3 : Certificate := .sample 1 3 [main2, third2]
def main4 : Certificate := .sample 2 4 [main3, third3]

def first_commit : Consensus :=
  (Consensus.run three 50 ([main1, side1, main2].map .certificate)).get (by decide +kernel)

theorem leader_commits_its_dependencies_without_late_references_first_commit :
    Each (fun pre k => ∀ x,
      Ancestor {x | x ∈ certificates ([main1, side1, main2].map .certificate)} k.leader x →
      k.floor ≤ x.round + 50 → x ∈ output (pre ++ [k])) first_commit.commits := by
  exact (leader_commits_its_dependencies_without_late_references three 50
    ([main1, side1, main2].map .certificate) first_commit (oneEach_of_check (by decide +kernel))
    (by decide +kernel) (by decide +kernel) (by decide +kernel) (by simp [first_commit])).mpr
    (noLateReference_of_first (by decide +kernel))

/-- The certificate `side1` is in the dag when `side2`, of the same author, is committed. -/
def passed_by : List Certificate := [main1, side1, main2, side2, main3, third2, third3, main4]

theorem passed_by_certificate_is_never_committed :
    OneEach three {x | x ∈ certificates (passed_by.map .certificate)} ∧
    (certificates (passed_by.map .certificate)).Nodup ∧
    Causal three (certificates (passed_by.map .certificate)) ∧
    RoundsFit 50 (certificates (passed_by.map .certificate)) ∧
    ∃ c, Consensus.run three 50 (passed_by.map .certificate) = some c ∧ ∃ k ∈ c.commits,
      Ancestor {x | x ∈ certificates (passed_by.map .certificate)} k.leader side1 ∧
        k.floor ≤ side1.round + 50 ∧ side1 ∉ c.output := by
  refine ⟨oneEach_of_check (by decide +kernel), by decide +kernel, by decide +kernel,
    by decide +kernel, (Consensus.run three 50 (passed_by.map .certificate)).get (by decide +kernel),
    by simp, ?_⟩
  have hk : ((Consensus.run three 50 (passed_by.map .certificate)).get
      (by decide +kernel)).commits.any
        (fun k => k.leader == third3 && k.floor ≤ side1.round + 50) = true := by
    decide +kernel
  rw [List.any_eq_true] at hk
  obtain ⟨k, hm, hk⟩ := hk
  rw [Bool.and_eq_true, beq_iff_eq, decide_eq_true_eq] at hk
  obtain ⟨hleader, hfloor⟩ := hk
  refine ⟨k, hm, ?_, hfloor, by decide +kernel⟩
  rw [hleader]
  have h32 : Down {x | x ∈ certificates (passed_by.map .certificate)} third3 third2 :=
    ⟨by rw [certificates_map]; simp [passed_by], is_parent_iff.mp (by decide +kernel)⟩
  have h21 : Down {x | x ∈ certificates (passed_by.map .certificate)} third2 side1 :=
    ⟨by rw [certificates_map]; simp [passed_by], is_parent_iff.mp (by decide +kernel)⟩
  exact .head h32 (.single h21)

end

end sailfish.consensus
