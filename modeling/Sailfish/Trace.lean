-- A run of the consensus as a trace: deliveries, and commits of one leader after
-- another. What holds of a new state and passes each of the two holds in every
-- state that a run reaches.
import Mathlib
import Sailfish.SubDag
import Sailfish.Lib.Splits

open Std Relation splits sailfish.crypto sailfish.config sailfish.primary

namespace sailfish.consensus

/-! ## Deliveries -/

/-- The certificates among the deliveries, in order. -/
def certificates (events : List Event) : List Certificate :=
  events.filterMap fun
    | .certificate c => some c
    | .header _ => none

theorem certificates_append (l l' : List Event) :
    certificates (l ++ l') = certificates l ++ certificates l' := List.filterMap_append

theorem mem_certificates {l : List Event} {c : Certificate} :
    c ∈ certificates l ↔ .certificate c ∈ l := by
  unfold certificates
  rw [List.mem_filterMap]
  constructor
  · rintro ⟨x | x, hx, heq⟩ <;> cases heq
    exact hx
  · exact fun hc => ⟨_, hc, rfl⟩

theorem certificates_map (l : List Certificate) : certificates (l.map .certificate) = l := by
  induction l with
  | nil => rfl
  | cons c l ih => simp_all [certificates]

theorem Consensus.count_vote_state {committee : Committee} (header : Header) (d : Digest)
    (c : Consensus) : (c.count_vote committee header d).state = c.state := by
  unfold Consensus.count_vote
  split <;> rfl

theorem Consensus.count_vote_commits {committee : Committee} (header : Header) (d : Digest)
    (c : Consensus) : (c.count_vote committee header d).commits = c.commits := by
  unfold Consensus.count_vote
  split <;> rfl

section

variable [Crypto]

/-- A certificate comes after its parents: each digest that it lists is the one of a
certificate of the round before, delivered earlier or in the genesis. -/
def Causal (committee : Committee) (delivered : List Certificate) : Prop :=
  Each (fun pre c => ∀ d ∈ c.header.parents.toList, ∃ p ∈ pre ++ Certificate.genesis committee,
    p.digest = d ∧ p.round + 1 = c.round) delivered

instance (committee : Committee) (l : List Certificate) : Decidable (Causal committee l) :=
  decidable_of_iff (each (fun pre c => c.header.parents.toList.all fun d =>
    (pre ++ Certificate.genesis committee).any fun p =>
      p.digest == d && p.round + 1 == c.round) [] l = true) <| by
    rw [each_iff]
    simp only [List.nil_append, List.all_eq_true, List.any_eq_true, Bool.and_eq_true, beq_iff_eq]
    rfl

variable {committee : Committee} {gc_depth : ℕ}

/-- The parents of a delivery, among the earlier ones and the genesis. -/
theorem Causal.parents {l : List Certificate} (h : Causal committee l) {c : Certificate}
    (hc : c ∈ l) {d : Digest} (hd : d ∈ c.header.parents) :
    ∃ p, (p ∈ l ∨ p ∈ Certificate.genesis committee) ∧ p.digest = d ∧ p.round + 1 = c.round := by
  obtain ⟨pre, post, rfl, hpre⟩ := Each.of_mem h hc
  obtain ⟨p, hp, hpd⟩ := hpre d (ExtTreeSet.mem_toList.mpr hd)
  exact ⟨p, (List.mem_append.mp hp).imp_left (List.mem_append_left _), hpd⟩

theorem Causal.grounded {l : List Certificate} (h : Causal committee l) {c : Certificate}
    (hc : c ∈ l) (h0 : c.round = 0) : c.header.parents = ∅ := by
  rw [ExtTreeSet.eq_empty_iff_forall_not_mem]
  intro d hd
  obtain ⟨p, -, -, hr⟩ := h.parents hc hd
  omega

/-- The rounds are of type `u64`, and no sum of the garbage collector wraps. -/
def RoundsFit (gc_depth : ℕ) (delivered : List Certificate) : Prop :=
  gc_depth < 2 ^ 64 ∧ ∀ c ∈ delivered, c.round + gc_depth < 2 ^ 64

instance (gc_depth : ℕ) (l : List Certificate) : Decidable (RoundsFit gc_depth l) :=
  inferInstanceAs (Decidable (_ ∧ _))

omit [Crypto] in
theorem RoundsFit.of_append {l l' : List Certificate} (h : RoundsFit gc_depth (l ++ l')) :
    RoundsFit gc_depth l :=
  ⟨h.1, fun c hc => h.2 c (List.mem_append_left _ hc)⟩

/-- Every certificate of a round from 1 on has a parent. -/
def HaveParents (delivered : List Certificate) : Prop :=
  ∀ c ∈ delivered, 0 < c.round → c.header.parents ≠ ∅

instance (l : List Certificate) : Decidable (HaveParents l) :=
  inferInstanceAs (Decidable (∀ c ∈ l, _))

/-! ## Traces -/

/-- A certificate that a trace delivers: in round 0 it lists no parents, and its round fits. -/
structure Regular (gc_depth : ℕ) (c : Certificate) : Prop where
  grounded : c.round = 0 → c.header.parents = ∅
  fits : c.round + gc_depth < 2 ^ 64

/-- The deliveries and the commits of a run. `Ok` is what each delivery meets. -/
inductive Trace (committee : Committee) (gc_depth : ℕ)
    (Ok : State → List Commit → Certificate → Prop) :
    List Certificate → State → List Commit → Prop
  | spawn : gc_depth < 2 ^ 64 →
      Trace committee gc_depth Ok [] (State.new (Certificate.genesis committee)) []
  | deliver {delivered : List Certificate} {s : State} {commits : List Commit} {c : Certificate} :
      Trace committee gc_depth Ok delivered s commits → Regular gc_depth c → Ok s commits c →
      Trace committee gc_depth Ok (delivered ++ [c]) (s.insert c) commits
  | commit {delivered : List Certificate} {s : State} {commits : List Commit}
      {leader : Certificate} :
      Trace committee gc_depth Ok delivered s commits → s.Pending leader →
      Trace committee gc_depth Ok delivered (s.after (order_dag leader gc_depth s) gc_depth)
        (commits ++ [{ leader, before := s, block := order_dag leader gc_depth s }])

variable {Ok : State → List Commit → Certificate → Prop} {delivered : List Certificate} {s : State}
  {commits : List Commit}

theorem Trace.wf (h : Trace committee gc_depth Ok delivered s commits) : Wf gc_depth s := by
  induction h with
  | spawn hdepth => exact wf_new hdepth
  | deliver _ hregular _ ih => exact ih.insert hregular.grounded hregular.fits
  | commit _ _ ih => exact ih.after

/-- What the dag holds was delivered, or is a genesis certificate. -/
theorem Trace.delivered_of_entry (h : Trace committee gc_depth Ok delivered s commits)
    {r : ℕ} {n : PublicKey} {x : Digest × Certificate} (hx : s.dag.entry r n = some x) :
    x.2 ∈ delivered ∨ x.2 ∈ Certificate.genesis committee := by
  induction h with
  | spawn =>
    rw [State.new_dag_entry] at hx
    split at hx
    · rename_i hn
      cases hx
      exact Or.inr (Certificate.mem_genesis.mpr ⟨n, hn.2, rfl⟩)
    · cases hx
  | deliver _ _ _ ih =>
    rw [State.insert_dag_entry] at hx
    split at hx
    · cases hx
      exact Or.inl (List.mem_append_right _ List.mem_cons_self)
    · exact (ih hx).imp_left (List.mem_append_left _)
  | commit _ _ ih => exact ih (State.entry_of_after hx)

/-- The round of a certificate that was delivered has a layer until it is below the last
committed round. -/
theorem Trace.layer_isSome (h : Trace committee gc_depth Ok delivered s commits) {c : Certificate}
    (hm : c ∈ delivered ∨ c ∈ Certificate.genesis committee)
    (hr : s.last_committed_round ≤ c.round) : (s.dag[c.round]?).isSome := by
  induction h with
  | spawn =>
    rcases hm with hm | hm
    · cases hm
    · obtain ⟨n, -, rfl⟩ := Certificate.mem_genesis.mp hm
      simp [State.new, Certificate.round, Certificate.genesis_of, Header.default]
  | deliver _ _ _ ih =>
    unfold State.insert
    rw [ExtTreeMap.getElem?_insert]
    split
    · rfl
    · rename_i hne
      apply ih _ hr
      rcases hm with hm | hm
      · rcases List.mem_append.mp hm with hm | hm
        · exact Or.inl hm
        · rw [List.mem_singleton.mp hm, compare_self] at hne
          exact absurd rfl hne
      · exact Or.inr hm
  | @commit _ s _ leader htrace hp ih =>
    have hw := htrace.wf
    have hlcr := hp.last_committed_round_after hw
    have habove := hp.above
    obtain ⟨layer, hl⟩ := Option.isSome_iff_exists.mp (ih hm (by omega))
    obtain ⟨n, x, hx⟩ := hw.no_empty_layer.exists_entry hl
    rw [← hw.after_entry_of_le hr] at hx
    obtain ⟨layer', hl', -⟩ := Dag.layer_of_entry hx
    rw [hl']
    rfl

/-- With parents for every certificate, no layer is missing between the last committed round and
a certificate of the dag. -/
theorem Trace.layers_isSome (h : Trace committee gc_depth Ok delivered s commits)
    (hc : Causal committee delivered) (hparents : HaveParents delivered) {k : ℕ}
    (hk : s.last_committed_round ≤ k) {c : Certificate}
    (hm : c ∈ delivered ∨ c ∈ Certificate.genesis committee) (hck : k ≤ c.round) :
    (s.dag[k]?).isSome := by
  obtain ⟨j, hj⟩ := Nat.exists_eq_add_of_le hck
  induction j generalizing c with
  | zero =>
    obtain rfl : k = c.round := hj.symm
    exact h.layer_isSome hm hk
  | succ j ih =>
    have hd : c ∈ delivered := by
      rcases hm with hm | hm
      · exact hm
      · obtain ⟨n, -, rfl⟩ := Certificate.mem_genesis.mp hm
        exact absurd hj (Nat.succ_ne_zero (k + j)).symm
    have hne := hparents c hd (by omega)
    rw [Ne, ExtTreeSet.eq_empty_iff_forall_not_mem] at hne
    push Not at hne
    obtain ⟨d, hd'⟩ := hne
    obtain ⟨p, hp, -, hround⟩ := hc.parents hd hd'
    exact ih hp (by omega) (by omega)

/-- A pending leader has its past leaders: `order_leaders` finds every layer that it reads. -/
theorem Trace.order_leaders_isSome (h : Trace committee gc_depth Ok delivered s commits)
    (hc : Causal committee delivered) (hparents : HaveParents delivered) {leader : Certificate}
    (hp : s.Pending leader) : (order_leaders committee leader s).isSome :=
  h.wf.filed_dag.order_leaders_isSome hp.above fun _ h1 h2 =>
    h.layers_isSome hc hparents (Nat.le_of_lt h1) (h.delivered_of_entry hp.entry)
      (Nat.le_of_lt h2)

/-! ## The sequencing of leaders -/

theorem sequence_cons (leader : Certificate) (leaders : List Certificate) (s : State) :
    sequence gc_depth (leader :: leaders) s =
      ((sequence gc_depth leaders (s.after (order_dag leader gc_depth s) gc_depth)).1,
        { leader, before := s, block := order_dag leader gc_depth s } ::
          (sequence gc_depth leaders (s.after (order_dag leader gc_depth s) gc_depth)).2) :=
  rfl

/-- The leaders of two lists are sequenced one list after the other. -/
theorem sequence_append (first rest : List Certificate) (s : State) :
    sequence gc_depth (first ++ rest) s =
      ((sequence gc_depth rest (sequence gc_depth first s).1).1,
        (sequence gc_depth first s).2 ++
          (sequence gc_depth rest (sequence gc_depth first s).1).2) := by
  induction first generalizing s with
  | nil => rfl
  | cons leader first ih => rw [List.cons_append, sequence_cons, ih, sequence_cons, List.cons_append]

theorem sequence_leaders (gc_depth : ℕ) (leaders : List Certificate) (s : State) :
    (sequence gc_depth leaders s).2.map (·.leader) = leaders := by
  induction leaders generalizing s with
  | nil => rfl
  | cons leader leaders ih => rw [sequence_cons, List.map_cons, ih]

/-- The sequencing of leaders up to round `k` leaves the entries from round `k` on. -/
theorem Wf.sequence_frame (h : Wf gc_depth s) {leaders : List Certificate}
    (hl : ∀ l ∈ leaders, s.Pending l) (hup : leaders.Pairwise fun a b => a.round < b.round) {k : ℕ}
    (hs : s.last_committed_round ≤ k) (hk : ∀ l ∈ leaders, l.round ≤ k) :
    Wf gc_depth (sequence gc_depth leaders s).1 ∧
      (sequence gc_depth leaders s).1.last_committed_round ≤ k ∧
      ∀ r n, k ≤ r →
        (sequence gc_depth leaders s).1.dag.entry r n = s.dag.entry r n := by
  induction leaders generalizing s with
  | nil => exact ⟨h, hs, fun _ _ _ => rfl⟩
  | cons leader leaders ih =>
    rw [List.pairwise_cons] at hup
    have hp := hl leader List.mem_cons_self
    have hround := hp.last_committed_round_after h
    have hle := hk leader List.mem_cons_self
    obtain ⟨hw, hlcr, hentry⟩ := ih (s := s.after (order_dag leader gc_depth s) gc_depth) h.after
      (fun l hm => hp.after h (hl l (List.mem_cons_of_mem _ hm)) (hup.1 l hm)) hup.2
      (by omega) (fun l hm => hk l (List.mem_cons_of_mem _ hm))
    rw [sequence_cons]
    refine ⟨hw, hlcr, ?_⟩
    intro r n hr
    rw [hentry r n hr, h.after_entry_of_le (by omega)]

/-- The sequencing of leaders ends at the round of the last one. -/
theorem Wf.sequence_last (h : Wf gc_depth s) {leaders : List Certificate} {last : Certificate}
    (hl : ∀ l ∈ leaders ++ [last], s.Pending l)
    (hup : (leaders ++ [last]).Pairwise fun a b => a.round < b.round) :
    (sequence gc_depth (leaders ++ [last]) s).1.last_committed_round = last.round := by
  rw [List.pairwise_append] at hup
  have hlast := hl last (by simp)
  have habove := hlast.above
  obtain ⟨hw, hlcr, hentry⟩ := h.sequence_frame (k := last.round - 1)
    (fun l hm => hl l (List.mem_append_left _ hm)) hup.1 (by omega)
    (fun l hm => by have := hup.2.2 l hm last List.mem_cons_self; omega)
  have hpend : (sequence gc_depth leaders s).1.Pending last :=
    ⟨(hentry _ _ (by omega)).trans hlast.entry, by omega⟩
  rw [sequence_append, sequence_cons]
  exact hpend.last_committed_round_after hw

theorem Trace.of_sequence (h : Trace committee gc_depth Ok delivered s commits)
    {leaders : List Certificate} (hl : ∀ l ∈ leaders, s.Pending l)
    (hup : leaders.Pairwise fun a b => a.round < b.round) :
    Trace committee gc_depth Ok delivered (sequence gc_depth leaders s).1
      (commits ++ (sequence gc_depth leaders s).2) := by
  induction leaders generalizing s commits with
  | nil => simpa [sequence] using h
  | cons leader leaders ih =>
    rw [List.pairwise_cons] at hup
    have hw := h.wf
    have hp := hl leader List.mem_cons_self
    have hrest := ih (h.commit hp)
      (fun l hm => hp.after hw (hl l (List.mem_cons_of_mem _ hm)) (hup.1 l hm)) hup.2
    rw [sequence_cons]
    simpa using hrest

/-- The chain of a leader that is pending is pending too, in the order of the rounds. -/
theorem Wf.pending_of_chain (h : Wf gc_depth s) {leader : Certificate} (hp : s.Pending leader)
    {older : List Certificate}
    (hc : s.dag.Chain committee s.last_committed_round leader older) :
    (∀ l ∈ (leader :: older).reverse, s.Pending l) ∧
      (leader :: older).reverse.Pairwise fun a b => a.round < b.round := by
  constructor
  · intro l hl
    rw [List.mem_reverse] at hl
    rcases List.mem_cons.mp hl with rfl | hm
    · exact hp
    · have hself := hc.forall_mem (P := fun x => s.dag.entry x.round x.origin = some (x.digest, x))
        (fun a b _ hlink => (h.filed_dag.leader_self hlink.1).2.2.2) hp.entry
      exact ⟨hself l hm, (hc.rank_bounds hm).1⟩
  · rw [List.pairwise_reverse]
    exact hc.pairwise

/-- The commit of a leader sequences the chain of the leader. It ends at the round of the leader,
and leaves the entries from there on. -/
theorem Wf.of_commit (h : Wf gc_depth s) {leader : Certificate} (hp : s.Pending leader)
    {s' : State} {new : List Commit}
    (hs : consensus.commit committee gc_depth leader s = some (s', new)) :
    Wf gc_depth s' ∧ s'.last_committed_round = leader.round ∧
      (∀ r n, leader.round ≤ r → s'.dag.entry r n = s.dag.entry r n) ∧
      ∃ older, s.dag.Chain committee s.last_committed_round leader older ∧
        (s', new) = sequence gc_depth (leader :: older).reverse s ∧
        new.map (·.leader) = (leader :: older).reverse := by
  unfold consensus.commit at hs
  simp only [Option.pure_def, Option.bind_eq_bind, Option.bind_eq_some_iff, Option.some.injEq] at hs
  obtain ⟨leaders, hl, hs⟩ := hs
  obtain ⟨older, rfl, hchain⟩ := h.filed_dag.chain_of_order_leaders hp.above hl
  obtain ⟨hpend, hup⟩ := h.pending_of_chain hp hchain
  have hle : ∀ l ∈ (leader :: older).reverse, l.round ≤ leader.round := by
    intro l hl
    rw [List.mem_reverse] at hl
    rcases List.mem_cons.mp hl with rfl | hl
    · exact Nat.le_refl _
    · exact Nat.le_of_lt (hchain.rank_bounds hl).2
  obtain ⟨hw, -, hentry⟩ := h.sequence_frame hpend hup (Nat.le_of_lt hp.above) hle
  have hleaders := sequence_leaders gc_depth (leader :: older).reverse s
  rw [List.reverse_cons] at hpend hup
  have hlast := h.sequence_last hpend hup
  rw [← List.reverse_cons] at hlast
  rw [hs] at hw hentry hleaders hlast
  exact ⟨hw, hlast, hentry, older, hchain, hs.symm, hleaders⟩

/-- The commit of a leader: the chain of the leader, and the trace that goes on with it. -/
theorem Trace.of_commit (h : Trace committee gc_depth Ok delivered s commits)
    {leader : Certificate} (hp : s.Pending leader) {s' : State} {new : List Commit}
    (hs : consensus.commit committee gc_depth leader s = some (s', new)) :
    Trace committee gc_depth Ok delivered s' (commits ++ new) ∧
      s'.last_committed_round = leader.round ∧
      ∃ older, s.dag.Chain committee s.last_committed_round leader older ∧
        new.map (·.leader) = (leader :: older).reverse := by
  have hw := h.wf
  obtain ⟨-, hlast, -, older, hchain, heq, hleaders⟩ := hw.of_commit hp hs
  obtain ⟨hpend, hup⟩ := hw.pending_of_chain hp hchain
  have hseq := h.of_sequence hpend hup
  rw [← heq] at hseq
  exact ⟨hseq, hlast, older, hchain, hleaders⟩

/-! ## Runs -/

/-- The state once a delivery is stored. -/
def State.receive (s : State) : Event → State
  | .header _ => s
  | .certificate c => s.insert c

namespace Consensus

theorem run_concat {events : List Event} {e : Event} {c' : Consensus} :
    run committee gc_depth (events ++ [e]) = some c' ↔
      ∃ c, run committee gc_depth events = some c ∧ step committee gc_depth c e = some c' := by
  unfold run
  rw [List.foldlM_append]
  simp [Option.bind_eq_some_iff]

/-- A step stores the delivery, then commits nothing, or a leader of the dag above the last
committed round. A certificate commits a leader only with the support of its round. -/
theorem step_cases {c c' : Consensus} {e : Event} (h : step committee gc_depth c e = some c') :
    ∃ mid : Consensus, mid.state = c.state.receive e ∧ mid.commits = c.commits ∧
      (c' = mid ∨ ∃ r d leader, consensus.leader committee r mid.state.dag = some (d, leader) ∧
        mid.state.last_committed_round < r ∧
        (∀ x, e = .certificate x → r = wrapping_pred x.round ∧ ∃ layer : Layer,
          mid.state.dag[x.round]? = some layer ∧
          committee.validity_threshold ≤ support committee layer d) ∧
        commit_leader committee gc_depth leader mid = some c') := by
  cases e with
  | header header =>
    unfold step on_header at h
    simp only at h
    split at h
    · exact ⟨c, rfl, rfl, Or.inl (Option.some.inj h).symm⟩
    · rename_i hround
      split at h
      · exact ⟨c, rfl, rfl, Or.inl (Option.some.inj h).symm⟩
      · rename_i d leader hleader
        have hstate : (c.count_vote committee header d).state = c.state := count_vote_state header d c
        refine ⟨_, hstate, count_vote_commits header d c, ?_⟩
        split at h
        · exact Or.inr ⟨_, d, leader, by rw [hstate]; exact hleader, by rw [hstate]; omega,
            fun x hx => (by cases hx), h⟩
        · exact Or.inl (Option.some.inj h).symm
  | certificate x =>
    unfold step on_certificate at h
    simp only at h
    refine ⟨{ c with state := c.state.insert x }, rfl, rfl, ?_⟩
    split at h
    · exact Or.inl (Option.some.inj h).symm
    · rename_i hround
      split at h
      · exact Or.inl (Option.some.inj h).symm
      · rename_i d leader hleader
        simp only [Option.bind_eq_bind, Option.bind_eq_some_iff] at h
        obtain ⟨layer, hl, h⟩ := h
        split at h
        · exact Or.inl (Option.some.inj h).symm
        · rename_i hsupport
          refine Or.inr ⟨_, d, leader, hleader, by simp only; omega, ?_, h⟩
          rintro _ ⟨⟩
          exact ⟨rfl, layer, hl, by omega⟩

theorem commit_leader_eq_some {c c' : Consensus} {leader : Certificate}
    (h : commit_leader committee gc_depth leader c = some c') :
    ∃ new, commit committee gc_depth leader c.state = some (c'.state, new) ∧
      c'.commits = c.commits ++ new := by
  unfold commit_leader at h
  simp only [Option.pure_def, Option.bind_eq_bind, Option.bind_eq_some_iff, Option.some.injEq] at h
  obtain ⟨⟨s', new⟩, hs, rfl⟩ := h
  exact ⟨new, hs, rfl⟩

end Consensus

theorem Trace.receive {c : Consensus} {e : Event} {events : List Event}
    (h : Trace committee gc_depth Ok (certificates events) c.state c.commits)
    (hok : ∀ x, e = .certificate x → Regular gc_depth x ∧ Ok c.state c.commits x) :
    Trace committee gc_depth Ok (certificates (events ++ [e])) (c.state.receive e) c.commits := by
  rw [certificates_append]
  cases e with
  | header header => simpa [certificates, State.receive] using h
  | certificate x => exact h.deliver (hok x rfl).1 (hok x rfl).2

/-- A run on regular certificates is a trace. -/
theorem trace_of_run {events : List Event} {c : Consensus} (hdepth : gc_depth < 2 ^ 64)
    (hregular : ∀ x ∈ certificates events, Regular gc_depth x)
    (hok : Each (fun pre e => ∀ x c, e = .certificate x →
      Consensus.run committee gc_depth pre = some c → Ok c.state c.commits x) events)
    (h : Consensus.run committee gc_depth events = some c) :
    Trace committee gc_depth Ok (certificates events) c.state c.commits := by
  induction events using List.reverseRecOn generalizing c with
  | nil =>
    cases h
    exact .spawn hdepth
  | append_singleton events e ih =>
    obtain ⟨before, hbefore, hstep⟩ := Consensus.run_concat.mp h
    rw [certificates_append, List.forall_mem_append] at hregular
    have htrace := ih hregular.1 hok.of_append hbefore
    have hmid := htrace.receive (e := e) fun x hx =>
      ⟨hregular.2 x (mem_certificates.mpr (hx ▸ List.mem_cons_self)),
        hok.last x before hx hbefore⟩
    obtain ⟨mid, hstate, hcommits, hcases⟩ := Consensus.step_cases hstep
    rw [← hstate, ← hcommits] at hmid
    rcases hcases with rfl | ⟨r, d, leader, hleader, hlt, -, hcommit⟩
    · exact hmid
    · obtain ⟨-, (hround : leader.round = r), -, hself⟩ := hmid.wf.filed_dag.leader_self hleader
      obtain ⟨new, hnew, hcommits'⟩ := Consensus.commit_leader_eq_some hcommit
      have hp : mid.state.Pending leader := ⟨hself, by omega⟩
      rw [hcommits']
      exact (hmid.of_commit hp hnew).1

/-- The condition on deliveries that each of them meets. -/
def Any (_ : State) (_ : List Commit) (_ : Certificate) : Prop := True

theorem Causal.regular {l : List Certificate} (hc : Causal committee l)
    (hfit : RoundsFit gc_depth l) : ∀ x ∈ l, Regular gc_depth x :=
  fun x hx => ⟨hc.grounded hx, hfit.2 x hx⟩

/-- A run whose deliveries come after their parents is a trace. -/
theorem any_trace_of_run {events : List Event} {c : Consensus}
    (hc : Causal committee (certificates events)) (hfit : RoundsFit gc_depth (certificates events))
    (h : Consensus.run committee gc_depth events = some c) :
    Trace committee gc_depth Any (certificates events) c.state c.commits :=
  trace_of_run hfit.1 (hc.regular hfit) (fun _ _ _ _ _ _ _ _ => trivial) h

/-- Certificates that come after their parents, with parents for each, never make the consensus
panic, whatever the headers between them. -/
theorem consensus_never_panics {events : List Event}
    (hc : Causal committee (certificates events)) (hparents : HaveParents (certificates events))
    (hfit : RoundsFit gc_depth (certificates events)) :
    ∃ c, Consensus.run committee gc_depth events = some c := by
  induction events using List.reverseRecOn with
  | nil => exact ⟨_, rfl⟩
  | append_singleton events e ih =>
    rw [certificates_append] at hc hparents hfit
    obtain ⟨before, hbefore⟩ := ih (Each.of_append hc)
      (fun c hm => hparents c (List.mem_append_left _ hm)) hfit.of_append
    have htrace := any_trace_of_run (Each.of_append hc) hfit.of_append hbefore
    have hmid := htrace.receive (e := e) fun x hx => ⟨hc.regular hfit x (List.mem_append_right _
      (mem_certificates.mpr (hx ▸ List.mem_cons_self))), trivial⟩
    rw [certificates_append] at hmid
    suffices hstep : ∃ c, Consensus.step committee gc_depth before e = some c by
      obtain ⟨c, hstep⟩ := hstep
      exact ⟨c, Consensus.run_concat.mpr ⟨before, hbefore, hstep⟩⟩
    -- a commit on a state with the entries of the delivery
    have hcommit : ∀ (mid : Consensus) (r : ℕ) (x : Digest × Certificate),
        mid.state = before.state.receive e → leader committee r mid.state.dag = some x →
        ¬ r ≤ mid.state.last_committed_round →
        ∃ c, Consensus.commit_leader committee gc_depth x.2 mid = some c := by
      intro mid r x hstate hx hr
      obtain ⟨-, hround, -, hself⟩ := hmid.wf.filed_dag.leader_self (hstate ▸ hx)
      have hp : mid.state.Pending x.2 := ⟨hstate ▸ hself, by omega⟩
      obtain ⟨leaders, hl⟩ := Option.isSome_iff_exists.mp
        ((hstate ▸ hmid).order_leaders_isSome hc hparents hp)
      simp [Consensus.commit_leader, commit, hl]
    cases e with
    | header header =>
      unfold Consensus.step Consensus.on_header
      simp only
      split
      · exact ⟨_, rfl⟩
      · rename_i hr
        split
        · exact ⟨_, rfl⟩
        · rename_i d l hl
          have hstate : (before.count_vote committee header d).state = before.state :=
            Consensus.count_vote_state header d before
          split
          · exact hcommit _ _ (d, l) hstate (hstate ▸ hl) (hstate ▸ hr)
          · exact ⟨_, rfl⟩
    | certificate x =>
      unfold Consensus.step Consensus.on_certificate
      simp only
      split
      · exact ⟨_, rfl⟩
      · rename_i hr
        split
        · exact ⟨_, rfl⟩
        · rename_i d l hl
          have hlayer : ((before.state.insert x).dag[x.round]?).isSome := by
            obtain ⟨layer, hlayer, -⟩ := Dag.layer_of_entry
              ((State.insert_dag_entry x.round x.origin).trans (if_pos ⟨rfl, rfl⟩))
            rw [hlayer]
            rfl
          obtain ⟨layer, hlayer⟩ := Option.isSome_iff_exists.mp hlayer
          simp only [hlayer, Option.bind_eq_bind, Option.bind_some]
          split
          · exact ⟨_, rfl⟩
          · exact hcommit _ _ (d, l) rfl hl hr

end

end sailfish.consensus
