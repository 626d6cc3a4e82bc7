-- The law of total order: honest primaries of one committee put the same certificates in
-- the sequence, in the same order, as far as each of them got, when no leader refers to a
-- certificate that an earlier commit passed by.
import Mathlib
import Sailfish.Agreement
import Sailfish.DeliveryOrder

open Std splits sailfish.crypto sailfish.config sailfish.primary sailfish.consensus

namespace sailfish.consensus

section

variable [Crypto] {committee : Committee} {gc_depth : ℕ} {D : Set Certificate}
  {commits commits' : List Commit}

/-- Commits of a prefix of the leaders add a prefix of the sequence. -/
theorem output_grows (hD : OneEach committee D) (h : Each (CommitOf committee D gc_depth) commits)
    (h' : Each (CommitOf committee D gc_depth) commits')
    (hlate : NoLateReference D gc_depth commits) (hlate' : NoLateReference D gc_depth commits')
    (hleaders : commits.map (·.leader) <+: commits'.map (·.leader)) :
    output commits <+: output commits' := by
  rw [List.prefix_map_iff] at hleaders
  obtain ⟨first, ⟨rest, rfl⟩, hsame⟩ := hleaders
  have hblocks := blocks_eq hD h h'.of_append hlate hlate'.of_append hsame
  have hout : output commits = output first := by
    unfold output
    rw [List.flatMap_def, List.flatMap_def, hblocks]
  rw [hout, output_append]
  exact List.prefix_append _ _

end

end sailfish.consensus

namespace sailfish.primary.System

section

variable [Crypto] {sys : System} {honest : Set PublicKey}
  {events : List (PublicKey × Primary.Event)} {s : PublicKey → Primary} {name : PublicKey}
  {deliveries : List consensus.Event} {c : Consensus}

/-- The digests of the honest dag tell its certificates apart, if those of the genesis do. -/
theorem HonestRun.oneEach (h : HonestRun sys honest events s) (hd : Distinct sys honest s)
    (hgenesis : Set.InjOn Certificate.digest {g | g ∈ Certificate.genesis sys.committee}) :
    OneEach sys.committee (honest_dag honest s) where
  positive := (h.validDag hd).positive
  unique := (h.validDag hd).unique
  digests := by
    have hnew : ∀ x, Handed honest s x → ∀ g ∈ Certificate.genesis sys.committee,
        x.digest ≠ g.digest := by
      intro x hx g hg hdigest
      have hround := hd.round_of_digest (Or.inl hx) (Or.inr hg) hdigest
      have hpos := h.round_pos hd hx
      obtain ⟨n, -, rfl⟩ := Certificate.mem_genesis.mp hg
      exact absurd hround (Nat.ne_of_gt hpos)
    rintro a (⟨x, hx, rfl⟩ | ha) b (⟨y, hy, rfl⟩ | hb) hdigest
    · exact h.bare_of_digest hd hx hy hdigest
    · exact absurd hdigest (hnew x hx b hb)
    · exact absurd hdigest.symm (hnew y hy a ha)
    · exact hgenesis ha hb hdigest

theorem HonestRun.commitOf_of_fed (h : HonestRun sys honest events s) (hd : Distinct sys honest s)
    (hname : name ∈ honest) (hfed : Fed sys (s name) deliveries)
    (hnodup : ((consensus.certificates deliveries).map Certificate.bare).Nodup)
    (hrun : Consensus.run sys.committee sys.gc_depth deliveries = some c) :
    Each (CommitOf sys.committee (honest_dag honest s) sys.gc_depth) c.bare.commits := by
  have hreceived := h.received_of_fed hd hname hfed
  apply commitOf_of_run hreceived
  · rw [certificates_bare]
    exact hnodup
  · exact hreceived.roundsFit h.rounds.depth h.rounds.honest_dag
  · rw [Consensus.run_bare, hrun]
    rfl

/-- What a run of the consensus commits refers to no certificate that it passed by. -/
def Timely (sys : System) (D : Set Certificate) (deliveries : List consensus.Event) : Prop :=
  ∀ c, Consensus.run sys.committee sys.gc_depth deliveries = some c →
    NoLateReference D sys.gc_depth c.bare.commits

/-- For every run of the primaries of a committee, in any order of their steps and whatever the
others send: of the sequences of certificates that two honest primaries put out, the one is, up to
votes, a prefix of the other. It takes what the agreement on the leaders takes, that the consensus
takes each certificate once, and that no leader refers to a certificate that an earlier commit
passed by. -/
theorem honest_primaries_order_alike (sys : System) (honest : Set PublicKey)
    (events : List (PublicKey × Primary.Event)) (s : PublicKey → Primary)
    (h : HonestRun sys honest events s) (hd : Distinct sys honest s)
    (hh : DistinctHeaders sys honest s)
    (hgenesis : Set.InjOn Certificate.digest {g | g ∈ Certificate.genesis sys.committee})
    (hskip : Unskipped sys.committee (honest_dag honest s))
    (name name' : PublicKey) (hname : name ∈ honest) (hname' : name' ∈ honest)
    (deliveries deliveries' : List consensus.Event) (hfed : Fed sys (s name) deliveries)
    (hfed' : Fed sys (s name') deliveries')
    (hnodup : ((consensus.certificates deliveries).map Certificate.bare).Nodup)
    (hnodup' : ((consensus.certificates deliveries').map Certificate.bare).Nodup)
    (htimely : Timely sys (honest_dag honest s) deliveries)
    (htimely' : Timely sys (honest_dag honest s) deliveries') :
    ∃ c c', Consensus.run sys.committee sys.gc_depth deliveries = some c ∧
      Consensus.run sys.committee sys.gc_depth deliveries' = some c' ∧
      (c.output.map Certificate.bare <+: c'.output.map Certificate.bare ∨
        c'.output.map Certificate.bare <+: c.output.map Certificate.bare) := by
  obtain ⟨c, c', hc, hc', hprefix⟩ := h.leaders_of_fed hd hh hskip hname hname' hfed hfed'
  have hone := h.oneEach hd hgenesis
  have hcommits := h.commitOf_of_fed hd hname hfed hnodup hc
  have hcommits' := h.commitOf_of_fed hd hname' hfed' hnodup' hc'
  refine ⟨c, c', hc, hc', ?_⟩
  rw [← Consensus.output_bare, ← Consensus.output_bare]
  rcases hprefix with hprefix | hprefix
  · exact Or.inl (output_grows hone hcommits hcommits' (htimely c hc) (htimely' c' hc') hprefix)
  · exact Or.inr (output_grows hone hcommits' hcommits (htimely' c' hc') (htimely c hc) hprefix)

end

section

attribute [local instance] trio_crypto

theorem timely_of_checked {sys : System} {D : Set Certificate} {deliveries : List consensus.Event}
    (h : ((Consensus.run sys.committee sys.gc_depth deliveries).all fun c =>
      decide (c.commits.length ≤ 1)) = true) : Timely sys D deliveries := by
  intro c hc
  rw [hc] at h
  apply noLateReference_of_first
  rw [Consensus.bare, List.length_map]
  exact of_decide_eq_true h

theorem honest_primaries_order_alike_trio : ∃ c c',
    Consensus.run trio 50 trio_headers = some c ∧ Consensus.run trio 50 trio_certificates = some c' ∧
      (c.output.map Certificate.bare <+: c'.output.map Certificate.bare ∨
        c'.output.map Certificate.bare <+: c.output.map Certificate.bare) :=
  honest_primaries_order_alike trio_primaries {a | a ∈ [1, 2]} trio_events trio_primary trio_run
    trio_distinct trio_distinctHeaders
    (List.inj_on_of_nodup_map (by decide +kernel)) trio_unskipped 1 2 (by simp) (by simp)
    trio_headers trio_certificates (fed_of_checked (by decide +kernel) (by decide +kernel))
    (fed_of_checked (by decide +kernel) (by decide +kernel)) (by decide +kernel)
    (by decide +kernel) (timely_of_checked (by decide +kernel))
    (timely_of_checked (by decide +kernel))

end

end sailfish.primary.System
