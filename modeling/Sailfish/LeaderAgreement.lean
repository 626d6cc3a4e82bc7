-- The law of leader agreement: the leaders that a node commits are the chain of the
-- last one, and the chains of two nodes are prefixes of one another, as long as no
-- leader on them skips a leader with f+1 support.
import Mathlib
import Sailfish.Core
import Sailfish.LeaderReachability

open Std Relation splits sailfish.crypto sailfish.config sailfish.primary

namespace sailfish.consensus

section

variable [Crypto] {committee : Committee} {gc_depth : ℕ} {D : Set Certificate}
  {l : List Certificate} {s : State} {commits : List Commit}

/-! ## The support of a leader -/

/-- The support that a node counts is at most the weight of the authors behind it. A sum that
wraps counts less. -/
theorem Wf.support_le_weight (h : Wf gc_depth s) {r : ℕ} {layer : Layer} (hl : s.dag[r]? = some layer)
    {d : Digest} {S : Set PublicKey}
    (hS : ∀ x, s.dag.entry r x.origin = some (x.digest, x) → d ∈ x.header.parents → x.origin ∈ S) :
    Consensus.support committee layer d ≤ committee.weight S := by
  unfold Consensus.support
  apply Nat.le_trans (u32_le _)
  have hself : ∀ x ∈ layer.values, s.dag.entry r x.2.origin = some (x.2.digest, x.2) := by
    intro x hx
    obtain ⟨n, hn⟩ := Layer.mem_values.mp hx
    rw [← Dag.entry_of_layer hl] at hn
    obtain ⟨-, hr, -, hself⟩ := h.filed_dag.entry_self hn
    rw [hr] at hself
    exact hself
  have horigins : layer.values.map (·.2.origin) = layer.keys := by
    unfold Layer.values
    rw [List.map_map, ← ExtTreeMap.map_fst_toList_eq_keys]
    apply List.map_congr_left
    rintro ⟨n, x⟩ hx
    have hn : s.dag.entry r n = some x := by
      rw [Dag.entry_of_layer hl]
      exact ExtTreeMap.mem_toList_iff_getElem?_eq_some.mp hx
    exact (h.filed_dag.entry_self hn).2.2.1
  have hmap := List.map_map (f := fun x : Digest × Certificate => x.2.origin) (g := committee.stake)
    (l := layer.values.filter fun x => decide (d ∈ x.2.header.parents))
  apply Nat.le_trans (Nat.le_of_eq (congrArg List.sum hmap.symm))
  apply Committee.sum_stake_le_weight
  · apply List.Nodup.sublist (List.filter_sublist.map _)
    rw [horigins]
    exact ExtTreeMap.nodup_keys
  · intro n hn
    obtain ⟨x, hx, rfl⟩ := List.mem_map.mp hn
    rw [List.mem_filter, decide_eq_true_eq] at hx
    exact hS x.2 (hself x hx.1) hx.2

/-! ## The leaders of a node -/

/-- A leader on the way of a commit: with f+1 support, or an ancestor of one with f+1 support. -/
def Committable (committee : Committee) (D : Set Certificate) (c : Certificate) : Prop :=
  ∃ top, Supported committee D top ∧ Ancestor D top c

/-- No leader on the way of a commit skips the leader right before it, when that one has f+1
support. -/
def NoSkip (committee : Committee) (D : Set Certificate) : Prop :=
  ∀ leader, Supported committee D leader → ∀ next ∈ D,
    next.origin = committee.leader next.round → next.round = leader.round + 1 →
    Committable committee D next → Parent leader next

/-- The leaders committed so far and the last committed round: nothing yet, or the chain of a
leader with f+1 support, oldest first. -/
inductive LeaderLog (committee : Committee) (D : Set Certificate) : List Certificate → ℕ → Prop
  | empty : LeaderLog committee D [] 0
  | chain {top : Certificate} {chain : List Certificate} : Supported committee D top →
      ChainIn committee D 0 top chain → LeaderLog committee D (top :: chain).reverse top.round

/-- The nodes of the chain of a supported leader are leaders on the way of its commit. -/
theorem ChainIn.leader_of_mem {top : Certificate} {chain : List Certificate} {floor : ℕ}
    (hs : Supported committee D top) (hc : ChainIn committee D floor top chain) :
    ∀ x ∈ top :: chain, x ∈ D ∧ x.origin = committee.leader x.round ∧
      Committable committee D x := by
  have hstart : top ∈ D ∧ top.origin = committee.leader top.round ∧ Ancestor D top top :=
    ⟨hs.mem, hs.leader, .refl⟩
  have hall := hc.forall_mem
    (P := fun x => x ∈ D ∧ x.origin = committee.leader x.round ∧ Ancestor D top x)
    (fun _ _ ha hlink => ⟨hlink.1, hlink.2.1, ha.2.2.trans hlink.2.2⟩) hstart
  intro x hx
  rcases List.mem_cons.mp hx with rfl | hm
  · exact ⟨hs.mem, hs.leader, x, hs, .refl⟩
  · obtain ⟨hD, hlead, hanc⟩ := hall x hm
    exact ⟨hD, hlead, top, hs, hanc⟩

/-- Every node of the chain of a supported leader is linked to a supported leader below it. -/
theorem ValidDag.link_of_mem_chain (hD : ValidDag committee D) (hf : committee.Fits)
    (hskip : NoSkip committee D) {leader top : Certificate} {chain : List Certificate} {floor : ℕ}
    (hs : Supported committee D leader) (htop : Supported committee D top)
    (hc : ChainIn committee D floor top chain) {x : Certificate} (hx : x ∈ top :: chain)
    (hr : leader.round < x.round) : LinkIn committee D x leader := by
  obtain ⟨hxD, hlead, hcommit⟩ := ChainIn.leader_of_mem htop hc x hx
  refine ⟨hs.mem, hs.leader, ?_⟩
  by_cases hnext : x.round = leader.round + 1
  · exact .single ⟨hs.mem, hskip leader hs x hxD hlead hnext hcommit⟩
  · exact hD.ancestor_of_supported hf hs.mem hs.support hxD (by omega)

/-- A commit puts the chain of the new leader, down to the last one, on the log. -/
theorem LeaderLog.commit (hD : ValidDag committee D) (hf : committee.Fits)
    (hskip : NoSkip committee D) {leaders chain : List Certificate} {lcr : ℕ} {leader : Certificate}
    (h : LeaderLog committee D leaders lcr) (hs : Supported committee D leader)
    (hlcr : lcr < leader.round) (hc : ChainIn committee D lcr leader chain) :
    LeaderLog committee D (leaders ++ (leader :: chain).reverse) leader.round := by
  cases h with
  | empty => exact .chain hs hc
  | @chain top older htop holder =>
    rw [← List.reverse_append, List.cons_append]
    apply LeaderLog.chain hs
    apply hc.join hlcr _ (hD.positive top htop.mem) holder
    intro x hx
    apply hD.link_of_mem_chain hf hskip htop hs hc hx
    rcases List.mem_cons.mp hx with rfl | hm
    · exact hlcr
    · exact (hc.rank_bounds hm).1

/-- Of two logs, the one that ends at the lower round is a prefix of the other one. -/
theorem LeaderLog.prefix_of_le (hD : ValidDag committee D) (hf : committee.Fits)
    (hskip : NoSkip committee D) {leaders leaders' : List Certificate} {lcr lcr' : ℕ}
    (h : LeaderLog committee D leaders lcr) (h' : LeaderLog committee D leaders' lcr')
    (hle : lcr ≤ lcr') : leaders <+: leaders' := by
  cases h with
  | empty => exact List.nil_prefix
  | @chain top chain htop hc =>
    cases h' with
    | empty => exact absurd hle (Nat.not_le_of_lt (hD.positive top htop.mem))
    | @chain top' chain' htop' hc' =>
      rcases Nat.lt_or_eq_of_le hle with hlt | heq
      · have hm : top ∈ chain' :=
          hc'.mem_of_linked hD.link_unique (hD.positive top htop.mem) hlt
            fun x hx hr => hD.link_of_mem_chain hf hskip htop htop' hc' hx hr
        obtain ⟨pre, post, rfl⟩ := List.append_of_mem hm
        obtain rfl := layered.Chain.unique hD.link_unique hc hc'.split.2
        rw [← List.cons_append, List.reverse_append]
        exact List.prefix_append _ _
      · obtain rfl : top = top' := hD.unique top htop.mem top' htop'.mem heq
          (by rw [htop.leader, htop'.leader, heq])
        rw [layered.Chain.unique hD.link_unique hc hc']

/-- The leaders that a node commits on the certificates of a valid dag are a log. -/
theorem leaderLog_of_run (hD : ValidDag committee D) (hf : committee.Fits)
    (hskip : NoSkip committee D) {c : Consensus} (hl : Received committee D l)
    (hfit : RoundsFit gc_depth l)
    (hrun : Consensus.run committee gc_depth (l.map .certificate) = some c) :
    LeaderLog committee D c.leaders c.state.last_committed_round := by
  induction l using List.reverseRecOn generalizing c with
  | nil =>
    cases hrun
    exact .empty
  | append_singleton l x ih =>
    rw [List.map_append] at hrun
    obtain ⟨before, hbefore, hstep⟩ := Consensus.run_concat.mp hrun
    have hlog := ih hl.of_append hfit.of_append hbefore
    obtain ⟨mid, hstate, hcommits, hcases⟩ := Consensus.step_cases hstep
    have hmid := (any_trace_of_run (by rw [certificates_map]; exact Each.of_append hl.causal)
      (by rw [certificates_map]; exact hfit.of_append) hbefore).receive (e := .certificate x)
      fun y hy => ⟨hl.causal.regular hfit y (by cases hy; simp), trivial⟩
    rw [← List.map_singleton, ← List.map_append, certificates_map, ← hstate, ← hcommits] at hmid
    have hmidlog : LeaderLog committee D mid.leaders mid.state.last_committed_round := by
      unfold Consensus.leaders
      rw [hcommits, hstate]
      exact hlog
    rcases hcases with rfl | ⟨r, d, leader, hleader, hlt, hsupport, hcommit⟩
    · exact hmidlog
    · have hw := hmid.wf
      obtain ⟨(hd : d = leader.digest), (hround : leader.round = r), hlead, hself⟩ :=
        hw.filed_dag.leader_self hleader
      have hp : mid.state.Pending leader := ⟨hself, by omega⟩
      obtain ⟨hm, -, -⟩ := (hmid.entry_iff hD hl hp.above).mp hself
      obtain ⟨hpred, layer, hlayer, hvalid⟩ := hsupport x rfl
      have hx : 0 < x.round := hD.positive x (hl.mem x (by simp))
      rw [wrapping_pred, if_neg (by omega)] at hpred
      have hs : Supported committee D leader := by
        refine ⟨hl.mem leader hm, hround ▸ hlead, Nat.le_trans hvalid ?_⟩
        apply hw.support_le_weight hlayer
        intro y hy hdy
        obtain ⟨hym, hyr, -⟩ := (hmid.entry_iff hD hl (by omega)).mp hy
        exact ⟨y, hl.mem y hym, ⟨by omega, hd ▸ hdy⟩, rfl⟩
      obtain ⟨new, hnew, hcommits'⟩ := Consensus.commit_leader_eq_some hcommit
      obtain ⟨-, hlast, older, hchain, hleaders⟩ := hmid.of_commit hp hnew
      have hnewlog := hmidlog.commit hD hf hskip hs hp.above (hmid.chain_in hD hl hm hchain)
      rw [hlast]
      unfold Consensus.leaders at hnewlog ⊢
      rw [hcommits', List.map_append, hleaders]
      exact hnewlog

/-- Two nodes that receive parts of one valid dag, each certificate after its parents, commit
leaders of which one sequence is a prefix of the other, when no leader on the way of a commit
skips a leader with f+1 support right before it. -/
theorem leaders_agree_without_a_skip (committee : Committee) (hf : committee.Fits)
    (D : Set Certificate) (hD : ValidDag committee D) (hskip : NoSkip committee D)
    (gc_depth : ℕ) (l l' : List Certificate) (hl : Received committee D l)
    (hl' : Received committee D l') (hfit : RoundsFit gc_depth l) (hfit' : RoundsFit gc_depth l') :
    ∃ c c', Consensus.run committee gc_depth (l.map .certificate) = some c ∧
      Consensus.run committee gc_depth (l'.map .certificate) = some c' ∧
      (c.leaders <+: c'.leaders ∨ c'.leaders <+: c.leaders) := by
  have htotal : ∀ l, Received committee D l → RoundsFit gc_depth l →
      ∃ c, Consensus.run committee gc_depth (l.map .certificate) = some c := by
    intro l hl hfit
    apply consensus_never_panics
    · rw [certificates_map]
      exact hl.causal
    · rw [certificates_map]
      exact hD.haveParents hl.mem
    · rw [certificates_map]
      exact hfit
  obtain ⟨c, hc⟩ := htotal l hl hfit
  obtain ⟨c', hc'⟩ := htotal l' hl' hfit'
  have hlog := leaderLog_of_run hD hf hskip hl hfit hc
  have hlog' := leaderLog_of_run hD hf hskip hl' hfit' hc'
  refine ⟨c, c', hc, hc', ?_⟩
  rcases Nat.le_total c.state.last_committed_round c'.state.last_committed_round with hle | hle
  · exact Or.inl (hlog.prefix_of_le hD hf hskip hlog' hle)
  · exact Or.inr (hlog'.prefix_of_le hD hf hskip hlog hle)

/-- `NoSkip`, checked on a list: each leader lists the leader before it, whatever its support. -/
def no_skip (committee : Committee) (dag : List Certificate) : Bool :=
  dag.all fun next => dag.all fun leader => next.origin != committee.leader next.round ||
    next.round != leader.round + 1 || leader.origin != committee.leader leader.round ||
      is_parent leader next

theorem noSkip_of_check {dag : List Certificate} (h : no_skip committee dag = true) :
    NoSkip committee {c | c ∈ dag} := by
  intro leader hs next hm hlead hr _
  have hall := List.all_eq_true.mp (List.all_eq_true.mp h next hm) leader hs.mem
  rw [← is_parent_iff]
  rw [← hs.leader, ← hlead] at hall
  simpa [hr] using hall

end

/-! ## A leader that is skipped -/

section

attribute [local instance] crypto.sample

/-- Every certificate of rounds 2 and 3 lists all the certificates of the round before. -/
def full_dag : List Certificate :=
  let second := [1, 2, 3, 4].map (second_round · [1, 2, 3, 4])
  first_round ++ second ++ [1, 2, 3, 4].map fun n => .sample n 3 second

/-- One node receives two rounds, and the other one receives three. -/
theorem leaders_agree_without_a_skip_full :
    ∃ c c', Consensus.run .four 50 ((full_dag.take 8).map .certificate) = some c ∧
      Consensus.run .four 50 (full_dag.map .certificate) = some c' ∧
      (c.leaders <+: c'.leaders ∨ c'.leaders <+: c.leaders) :=
  leaders_agree_without_a_skip .four (by decide +kernel) {c | c ∈ full_dag}
    (validDag_of_check (by decide +kernel)) (noSkip_of_check (by decide +kernel)) 50
    (full_dag.take 8) full_dag (received_of_check (by decide +kernel))
    (received_of_check (by decide +kernel)) (by decide +kernel) (by decide +kernel)

/-- A certificate of round 2 that skips the leader of round 1, with the certificates for that. -/
def skipping_round (author : PublicKey) : Certificate :=
  let timeout (a : PublicKey) : Timeout := { round := 1, author := a, signature := .default }
  let no_vote (a : PublicKey) : NoVoteMsg := { round := 1, author := a, signature := .default }
  let timeout_cert : TimeoutCert :=
    { round := 1, timeouts := [1, 3, 4].map fun a => (a, Crypto.sign a (timeout a).digest) }
  let no_vote_cert : NoVoteCert :=
    { round := 1, no_votes := [1, 3, 4].map fun a => (a, Crypto.sign a (no_vote a).digest) }
  { (second_round author [1, 3, 4]).header with timeout_cert, no_vote_cert }.signed.certified []

/-- Authorities 1 and 2 list the leader of round 1, and the leader of round 2 does not. -/
def split_dag : List Certificate :=
  let second := [second_round 1 [1, 2, 3], second_round 2 [1, 2, 3]]
  let skipping := [skipping_round 3, skipping_round 4]
  first_round ++ second ++ skipping ++
    [1, 2].map fun n => .sample n 3 (second_round 1 [1, 2, 3] :: skipping)

/-- The parents of a certificate, of a dag given as a list. -/
def parents_in (committee : Committee) (dag : List Certificate) (c : Certificate) :
    List Certificate :=
  (dag ++ Certificate.genesis committee).filter (is_parent · c)

/-- This node receives the certificates that list the leader of round 1. -/
def with_leader : List Certificate := split_dag.take 6

/-- This node receives one of them only, and the rounds up to round 3. -/
def past_leader : List Certificate := split_dag.eraseIdx 5

theorem supported_leader_is_skipped :
    ValidDag .four {c | c ∈ split_dag} ∧
      (∀ c ∈ split_dag,
        (Core.check_parents .four c.header (parents_in .four split_dag c)).isOk = true) ∧
      Received .four {c | c ∈ split_dag} with_leader ∧
      Received .four {c | c ∈ split_dag} past_leader ∧ RoundsFit 50 split_dag ∧
      ∃ c c', Consensus.run .four 50 (with_leader.map .certificate) = some c ∧
        Consensus.run .four 50 (past_leader.map .certificate) = some c' ∧
        ¬ c.leaders <+: c'.leaders ∧ ¬ c'.leaders <+: c.leaders :=
  ⟨validDag_of_check (by decide +kernel), List.all_eq_true.mp (by decide +kernel),
    received_of_check (by decide +kernel), received_of_check (by decide +kernel),
    by decide +kernel,
    (Consensus.run .four 50 (with_leader.map .certificate)).get (by decide +kernel),
    (Consensus.run .four 50 (past_leader.map .certificate)).get (by decide +kernel),
    by simp, by simp, by decide +kernel, by decide +kernel⟩

end

end sailfish.consensus
