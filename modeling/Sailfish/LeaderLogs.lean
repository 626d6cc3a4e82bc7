-- The law of leader logs: what a node commits, on headers or on certificates, is the chain of
-- an anchor, a leader that later certificates cannot go around. Nodes whose chains skip no
-- anchor commit the same leaders.
import Mathlib
import Sailfish.HeaderVotes
import Sailfish.LeaderAgreement
import Sailfish.Lib.Logs

open Std Relation splits sailfish.crypto sailfish.config sailfish.primary

namespace sailfish.consensus

section

variable [Crypto] {committee : Committee} {gc_depth : ℕ} {D : Set Certificate}
  {honest : Set PublicKey} {events : List Event} {c : Certificate}

/-! ## Anchors -/

/-- The authors whose certificate of the next round, if they get one, lists `c` as a parent. -/
def followers (D : Set Certificate) (c : Certificate) : Set PublicKey :=
  {n | ∀ x ∈ D, x.round = c.round + 1 → x.origin = n → Parent c x}

/-- A certificate of the leader of its round, with followers that every quorum meets. -/
structure Anchor (committee : Committee) (D : Set Certificate) (c : Certificate) : Prop where
  mem : c ∈ D
  leader : c.origin = committee.leader c.round
  followers : committee.validity_threshold ≤ committee.weight (followers D c)

theorem Supported.anchor (hD : ValidDag committee D) (h : Supported committee D c) :
    Anchor committee D c where
  mem := h.mem
  leader := h.leader
  followers := by
    apply Nat.le_trans h.support
    apply Committee.weight_mono
    rintro n ⟨x, hx, hparent, rfl⟩ y hy hround horigin
    rw [hD.unique y hy x hx (hround.trans hparent.1) horigin]
    exact hparent

/-- A certificate from two rounds later on has a parent of a follower. -/
theorem ValidDag.exists_parent_of_anchor (hD : ValidDag committee D) (hf : committee.Fits)
    (ha : Anchor committee D c) {x : Certificate} (hx : x ∈ D) (hr : x.round = c.round + 2) :
    ∃ p, Down D x p ∧ Parent c p := by
  obtain ⟨n, ⟨p, hp, hpx, hpn⟩, hfollows⟩ :=
    Committee.exists_mem_of_quorum_of_validity hf (hD.quorum x hx) ha.followers
  have hround := hpx.1
  have hpD := mem_of_parent hp hpx (by omega)
  exact ⟨p, ⟨hpD, hpx⟩, hfollows p hpD (by omega) hpn⟩

theorem ValidDag.ancestor_of_anchor (hD : ValidDag committee D) (hf : committee.Fits)
    (ha : Anchor committee D c) {x : Certificate} (hx : x ∈ D) (hr : c.round + 2 ≤ x.round) :
    Ancestor D x c := by
  obtain ⟨k, hk⟩ := Nat.exists_eq_add_of_le hr
  induction k generalizing x with
  | zero =>
    obtain ⟨p, hp, hcp⟩ := hD.exists_parent_of_anchor hf ha hx hk
    exact .head hp (.single ⟨ha.mem, hcp⟩)
  | succ k ih =>
    obtain ⟨p, hp, hpx⟩ := hD.exists_parent hx
    have hround := hpx.1
    have hpD := mem_of_parent hp hpx (by omega)
    exact .head ⟨hpD, hpx⟩ (ih hpD (by omega) (by omega))

/-- No leader on the way of a commit skips an anchor right before it. -/
def Unskipped (committee : Committee) (D : Set Certificate) : Prop :=
  ∀ a, Anchor committee D a → ∀ next ∈ D, next.origin = committee.leader next.round →
    next.round = a.round + 1 → (∃ top, Anchor committee D top ∧ Ancestor D top next) →
    Parent a next

theorem ValidDag.anchored (hD : ValidDag committee D) (hf : committee.Fits)
    (hskip : Unskipped committee D) :
    layered.Anchored Certificate.round (LinkIn committee D) (Anchor committee D) where
  positive := fun a ha => hD.positive a ha.mem
  unique := fun a b ha hb hr =>
    hD.unique a ha.mem b hb.mem hr (by rw [ha.leader, hb.leader, hr])
  link_unique := hD.link_unique
  linked := by
    intro a top floor l ha htop hl x hx hlt
    have hstart : top ∈ D ∧ top.origin = committee.leader top.round ∧ Ancestor D top top :=
      ⟨htop.mem, htop.leader, .refl⟩
    have hall := hl.forall_mem
      (P := fun x => x ∈ D ∧ x.origin = committee.leader x.round ∧ Ancestor D top x)
      (fun _ _ hb hlink => ⟨hlink.1, hlink.2.1, hb.2.2.trans hlink.2.2⟩) hstart
    obtain ⟨hxD, hlead, hanc⟩ :
        x ∈ D ∧ x.origin = committee.leader x.round ∧ Ancestor D top x := by
      rcases List.mem_cons.mp hx with rfl | hm
      · exact hstart
      · exact hall x hm
    refine ⟨ha.mem, ha.leader, ?_⟩
    by_cases hnext : x.round = a.round + 1
    · exact .single ⟨ha.mem, hskip a ha x hxD hlead hnext ⟨top, htop, hanc⟩⟩
    · exact hD.ancestor_of_anchor hf ha hxD (by omega)

/-! ## The log of a node -/

/-- The headers that a node takes next to the certificates of a dag: none is counted for an author
and a round that are counted already, and what an honest author lists its certificate lists. -/
structure Faithful (committee : Committee) (gc_depth : ℕ) (D : Set Certificate)
    (honest : Set PublicKey) (events : List Event) : Prop where
  once : Each (fun pre e => ∀ header before, e = .header header →
    Consensus.run committee gc_depth pre = some before → before.Counts committee header →
    ¬ Counted committee gc_depth pre header.author header.round) events
  lists : ∀ h ∈ headers events, h.author ∈ honest → ∀ x ∈ D, x.round = h.round →
    x.origin = h.author → ∀ d ∈ h.parents, d ∈ x.header.parents

theorem Faithful.of_append {events' : List Event}
    (h : Faithful committee gc_depth D honest (events ++ events')) :
    Faithful committee gc_depth D honest events where
  once := h.once.of_append
  lists := by
    intro header hm
    apply h.lists
    rw [headers_append]
    exact List.mem_append_left _ hm

/-- What a node committed so far, as a log of the whole dag. -/
abbrev LogIn (committee : Committee) (D : Set Certificate) (c : Consensus) : Prop :=
  layered.Log Certificate.round (LinkIn committee D) (Anchor committee D) c.leaders
    c.state.last_committed_round

section View

variable {l : List Certificate} {mid c' : Consensus} {r : ℕ} {d : Digest} {leader : Certificate}
  (hD : ValidDag committee D) (hl : Received committee D l)
  (h : Trace committee gc_depth Any l mid.state mid.commits)
  (hleader : consensus.leader committee r mid.state.dag = some (d, leader))
  (hlt : mid.state.last_committed_round < r)

include hD hl h hleader hlt

theorem Trace.leader_in : d = leader.digest ∧ leader.round = r ∧ leader ∈ l ∧
    leader.origin = committee.leader leader.round ∧ mid.state.Pending leader := by
  obtain ⟨hd, (hround : leader.round = r), hlead, hself⟩ :=
    h.wf.filed_dag.leader_self hleader
  have hp : mid.state.Pending leader := ⟨hself, by omega⟩
  exact ⟨hd, hround, ((h.entry_iff hD hl hp.above).mp hself).1, hround ▸ hlead, hp⟩

/-- The commit of an anchor puts its chain on the log. -/
theorem Trace.log_of_commit (hf : committee.Fits) (hskip : Unskipped committee D)
    (hlog : LogIn committee D mid) (ha : Anchor committee D leader)
    (hcommit : mid.commit_leader committee gc_depth leader = some c') :
    LogIn committee D c' := by
  obtain ⟨-, -, hm, -, hp⟩ := h.leader_in hD hl hleader hlt
  obtain ⟨new, hnew, hcommits⟩ := Consensus.commit_leader_eq_some hcommit
  obtain ⟨-, hlast, older, hchain, hleaders⟩ := h.of_commit hp hnew
  have hlog' := hlog.take (hD.anchored hf hskip) ha hp.above (h.chain_in hD hl hm hchain)
  unfold LogIn Consensus.leaders at hlog' ⊢
  rw [hlast, hcommits, List.map_append, hleaders]
  exact hlog'

/-- The support that a certificate finds makes the leader an anchor. -/
theorem Trace.anchor_of_support {x : Certificate} (hx : 0 < x.round)
    (hr : r = wrapping_pred x.round) {layer : Layer}
    (hlayer : mid.state.dag[x.round]? = some layer)
    (hsupport : committee.validity_threshold ≤ Consensus.support committee layer d) :
    Anchor committee D leader := by
  obtain ⟨hd, hround, hm, hlead, hp⟩ := h.leader_in hD hl hleader hlt
  have habove := hp.above
  rw [wrapping_pred, if_neg (by omega)] at hr
  refine Supported.anchor hD ⟨hl.mem leader hm, hlead, Nat.le_trans hsupport ?_⟩
  apply h.wf.support_le_weight hlayer
  intro y hy hdy
  obtain ⟨hym, hyr, -⟩ := (h.entry_iff hD hl (by omega)).mp hy
  exact ⟨y, hl.mem y hym, ⟨by omega, hd ▸ hdy⟩, rfl⟩

/-- A quorum of headers makes the leader an anchor: those of honest authors are a validity set. -/
theorem Trace.anchor_of_headers (hf : committee.Fits)
    (hrange : ∀ x ∈ D, x.round < 2 ^ 64)
    (hweight : committee.weight honestᶜ < committee.validity_threshold)
    (hh : Faithful committee gc_depth D honest events) (hcerts : certificates events = l)
    {header : Header} (hr : r = wrapping_pred header.round)
    (hquorum : committee.quorum_threshold ≤
      committee.weight {n | Counted committee gc_depth events n header.round}) :
    Anchor committee D leader := by
  obtain ⟨hd, hround, hm, hlead, hp⟩ := h.leader_in hD hl hleader hlt
  have hleaderD := hl.mem leader hm
  refine ⟨hleaderD, hlead, ?_⟩
  have hfollow : {n | Counted committee gc_depth events n header.round} ⊆
      followers D leader ∪ honestᶜ := by
    intro n hn
    by_cases hhonest : n ∈ honest
    · refine Or.inl fun y hy hyround horigin => ?_
      obtain ⟨h', hm', hauthor, hround', x, hx, hxround, hxlead, hxd⟩ := hn.header
      -- the certificate that the header lists is the leader
      have hxD : x ∈ D := hl.mem x (hcerts ▸ hx)
      obtain rfl : x = leader := by
        apply hD.unique x hxD leader hleaderD
        · rw [hxround, hround, hr]
        · rw [hxlead, hlead, hxround, hround, hr]
      have hyrange := hrange y hy
      have hpred : header.round = x.round + 1 := by
        unfold wrapping_pred at hxround
        split at hxround <;> omega
      exact ⟨hyround.symm, hh.lists h' hm' (hauthor ▸ hhonest) y hy (by rw [hyround, hround', hpred])
        (by rw [horigin, hauthor]) _ hxd⟩
    · exact Or.inr hhonest
  exact Committee.validity_le_weight_of_quorum hf hweight
    (Nat.le_trans hquorum (Committee.weight_mono hfollow))

end View

/-- The leaders that a node commits, on certificates of a valid dag and on headers, are a log. -/
theorem log_of_run (hD : ValidDag committee D) (hf : committee.Fits)
    (hdepth : gc_depth < 2 ^ 64) (hrange : ∀ x ∈ D, x.round + gc_depth < 2 ^ 64)
    (hskip : Unskipped committee D)
    (hweight : committee.weight honestᶜ < committee.validity_threshold) {c : Consensus}
    (hl : Received committee D (certificates events))
    (hh : Faithful committee gc_depth D honest events)
    (hrun : Consensus.run committee gc_depth events = some c) : LogIn committee D c := by
  induction events using List.reverseRecOn generalizing c with
  | nil =>
    cases hrun
    exact .empty
  | append_singleton events e ih =>
    obtain ⟨before, hbefore, hstep⟩ := Consensus.run_concat.mp hrun
    have hl' : Received committee D (certificates events) := by
      rw [certificates_append] at hl
      exact hl.of_append
    have hlog := ih hl' hh.of_append hbefore
    have hmid := (any_trace_of_run hl'.causal (hl'.roundsFit hdepth hrange) hbefore).receive (e := e)
      fun x hx => ⟨hl.causal.regular (hl.roundsFit hdepth hrange) x (List.mem_filterMap.mpr
        ⟨e, by simp, by rw [hx]⟩), trivial⟩
    cases e with
    | header header =>
      have hcerts : certificates (events ++ [.header header]) = certificates events := by
        rw [certificates_append]
        exact List.append_nil _
      rw [hcerts] at hmid
      rcases Consensus.header_cases hstep with ⟨-, rfl⟩ | ⟨d, leader, mid, hlt, hleader, hvote, hrest⟩
      · exact hlog
      have hstate : mid.state = before.state := by
        rw [hvote, Consensus.count_vote_state]
      have hcommits : mid.commits = before.commits := by
        rw [hvote, Consensus.count_vote_commits]
      have hmidlog : LogIn committee D mid := by
        unfold LogIn Consensus.leaders
        rw [hstate, hcommits]
        exact hlog
      rcases hrest with ⟨hquorum, hcommit⟩ | ⟨-, rfl⟩
      · rw [State.receive, ← hstate, ← hcommits] at hmid
        rw [← hstate] at hleader hlt
        have hstake := stake_of_le_weight hrun hh.once header.round
        rw [Consensus.commit_leader_stake_of hcommit] at hstake
        refine hmid.log_of_commit hD hl' hleader hlt hf hskip hmidlog ?_ hcommit
        exact hmid.anchor_of_headers hD hl' hleader hlt hf
          (fun x hx => Nat.lt_of_le_of_lt (Nat.le_add_right _ _) (hrange x hx)) hweight hh hcerts rfl
          (Nat.le_trans hquorum hstake)
      · exact hmidlog
    | certificate x =>
      obtain ⟨mid, hstate, hcommits, hcases⟩ := Consensus.step_cases hstep
      rw [← hstate, ← hcommits] at hmid
      have hmidlog : LogIn committee D mid := by
        unfold LogIn Consensus.leaders
        rw [hcommits, hstate]
        exact hlog
      rcases hcases with rfl | ⟨r, d, leader, hleader, hlt, hsupport, hcommit⟩
      · exact hmidlog
      · obtain ⟨hr, layer, hlayer, hvalid⟩ := hsupport x rfl
        have hx : x ∈ certificates (events ++ [.certificate x]) := by
          rw [certificates_append]
          exact List.mem_append_right _ List.mem_cons_self
        refine hmid.log_of_commit hD hl hleader hlt hf hskip hmidlog ?_ hcommit
        exact hmid.anchor_of_support hD hl hleader hlt (hD.positive x (hl.mem x hx)) hr hlayer hvalid

/-- For every valid dag, of which nodes receive parts, each certificate after its parents, with
headers in between: when no leader on the way of a commit skips an anchor, and the headers are
faithful, none of the nodes panics, and the leaders that one commits are a prefix of those of the
other. -/
theorem leaders_agree (hD : ValidDag committee D) (hf : committee.Fits)
    (hdepth : gc_depth < 2 ^ 64) (hrange : ∀ x ∈ D, x.round + gc_depth < 2 ^ 64)
    (hskip : Unskipped committee D)
    (hweight : committee.weight honestᶜ < committee.validity_threshold) {events' : List Event}
    (hl : Received committee D (certificates events))
    (hl' : Received committee D (certificates events'))
    (hh : Faithful committee gc_depth D honest events)
    (hh' : Faithful committee gc_depth D honest events') :
    ∃ c c', Consensus.run committee gc_depth events = some c ∧
      Consensus.run committee gc_depth events' = some c' ∧
      (c.leaders <+: c'.leaders ∨ c'.leaders <+: c.leaders) := by
  obtain ⟨c, hc⟩ : ∃ c, Consensus.run committee gc_depth events = some c :=
    consensus_never_panics hl.causal (hD.haveParents hl.mem) (hl.roundsFit hdepth hrange)
  obtain ⟨c', hc'⟩ : ∃ c', Consensus.run committee gc_depth events' = some c' :=
    consensus_never_panics hl'.causal (hD.haveParents hl'.mem) (hl'.roundsFit hdepth hrange)
  have hlog := log_of_run hD hf hdepth hrange hskip hweight hl hh hc
  have hlog' := log_of_run hD hf hdepth hrange hskip hweight hl' hh' hc'
  exact ⟨c, c', hc, hc', hlog.prefix_total (hD.anchored hf hskip) hlog'⟩

end

end sailfish.consensus
