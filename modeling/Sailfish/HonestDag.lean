-- The law of the honest dag: what the honest primaries of a committee hand to the
-- consensus is, up to votes, one valid dag, of which each of them hands over a part, each
-- certificate after its parents.
import Mathlib
import Sailfish.BareCertificates
import Sailfish.CausalDelivery
import Sailfish.CertifiedHeaders
import Sailfish.CleanupBounds
import Sailfish.GcBoundary
import Sailfish.ValidDag

open Std Relation effects splits sailfish.crypto sailfish.config sailfish.consensus

namespace sailfish.primary

namespace Core

section

variable [Crypto] {node : Node} {s s' : Core} {v : Voted}

/-- The parents of the header of a vote pass the checks, and went to the consensus unless they are
genesis certificates. -/
structure Rooted (node : Node) (s : Core) (v : Voted) : Prop where
  checked : check_parents node.committee v.header v.parents = .ok ()
  parents : List.Forall₂ (fun d c => c.digest = d ∧
    (c ∈ Certificate.genesis node.committee ∨ .consensus c ∈ s.sent))
    v.header.parents.toList v.parents

def AllRooted (node : Node) (s : Core) : Prop := ∀ v ∈ s.voted, Rooted node s v

theorem Rooted.mono (h : Rooted node s v)
    (hsent : ∀ c, .consensus c ∈ s.sent → .consensus c ∈ s'.sent) : Rooted node s' v where
  checked := h.checked
  parents := h.parents.imp fun _ _ ⟨hd, hc⟩ => ⟨hd, hc.imp_right (hsent _)⟩

theorem Accepted.rooted {header : Header} {parents : List Certificate}
    (h : Accepted node s header parents) (hdelivered : Delivered node s) :
    Rooted node s { vote := .new header node.name, header, parents } where
  checked := h.checked
  parents := by
    refine (find_parents_forall h.found).imp fun d c hc => ?_
    rcases hc with hc | hc
    · obtain ⟨g, hg, heq⟩ := List.mem_map.mp hc
      cases heq
      exact ⟨rfl, Or.inl hg⟩
    · obtain ⟨hd, hsent⟩ := hdelivered.certificate d c hc
      exact ⟨hd.symm, Or.inr hsent⟩

theorem AllRooted.effect (heffect : AnyEffect node s s') (hdelivered : Delivered node s)
    (h : AllRooted node s) : AllRooted node s' := by
  cases heffect with
  | vote _ haccepted _ =>
    intro v hv
    rcases List.mem_append.mp hv with hv | hv
    · exact (h v hv).mono fun _ => id
    · rw [List.mem_singleton.mp hv]
      exact (haccepted.rooted hdelivered).mono fun _ => id
  | send => exact fun v hv => (h v hv).mono fun _ => List.mem_append_left _
  | store_certificate =>
    exact fun v hv => (h v hv).mono fun _ hc => List.mem_append_left _ (List.mem_append_left _ hc)
  | accept | processing | votes | handlers | timeouts | no_votes =>
    exact fun v hv => (h v hv).mono fun _ => id

theorem allRooted_of_run {events : List Event} (hrun : run node .empty events = some s) :
    AllRooted node s := by
  refine (invariant_of_run (I := fun s => Delivered node s ∧ AllRooted node s)
    ⟨delivered_spawn, fun _ hv => absurd hv List.not_mem_nil⟩ ?_ ?_ hrun).2
  · exact fun s s' heffect ⟨hdelivered, h⟩ => ⟨hdelivered.effect heffect, h.effect heffect hdelivered⟩
  · intro s s' hframe ⟨hdelivered, h⟩
    refine ⟨hdelivered.frame hframe, fun v hv => ?_⟩
    rw [hframe.voted] at hv
    refine (h v hv).mono ?_
    rw [hframe.sent]
    exact fun _ => id

end

section

variable [Crypto] {node : Node} {s s' : Core}

/-- The core has heard of no commit, and it has not garbage collected. -/
structure Uncollected (s : Core) : Prop where
  consensus_round : s.consensus_round = 0
  gc_round : s.gc_round = 0

theorem Uncollected.of_input {input : Input} (h : s.Uncollected)
    (hstep : step node s (.input input) = some s') : s'.Uncollected := by
  obtain ⟨s₁, heffects, rfl⟩ := step_effects (brings_any input) (fun _ _ => trivial) hstep
  have hstart : (s.start input).Uncollected := by
    cases input <;> exact ⟨h.consensus_round, h.gc_round⟩
  have hkept : s₁.Uncollected := by
    refine of_steps (P := Uncollected) (fun t t' heffect h => ?_) heffects hstart
    cases heffect <;> exact ⟨h.consensus_round, h.gc_round⟩
  refine ⟨cleanup_consensus_round.trans hkept.consensus_round, ?_⟩
  rw [gc_round_cleanup, hkept.consensus_round, if_neg (Nat.not_lt_zero _), hkept.gc_round]

end

end Core

namespace System

section

variable [Crypto] {sys : System} {honest : Set PublicKey}
  {events : List (PublicKey × Primary.Event)} {s : PublicKey → Primary} {name : PublicKey}
  {c c' : Certificate}

omit [Crypto] in
/-- An honest primary handed the certificate to the consensus. -/
def Handed (honest : Set PublicKey) (s : PublicKey → Primary) (c : Certificate) : Prop :=
  ∃ name ∈ honest, .consensus c ∈ (s name).core.sent

/-- No sum on the rounds of the honest primaries wraps: neither on those of the certificates that
they hand over, nor on those of their proposers. -/
structure RoundsFit (sys : System) (honest : Set PublicKey)
    (events : List (PublicKey × Primary.Event)) (s : PublicKey → Primary) : Prop where
  depth : sys.gc_depth < 2 ^ 64
  certificates : ∀ c, Handed honest s c → c.round + 1 < 2 ^ 64 ∧ c.round + sys.gc_depth < 2 ^ 64
  proposers : ∀ name ∈ honest, Primary.NeverWraps (sys.node name) sys.header_size .empty
    (parties.events_of name events)

/-- A run of the primaries from empty stores, in which those that are not honest have less stake
than the validity threshold. The honest ones process no header of a round that they are past. -/
structure HonestRun (sys : System) (honest : Set PublicKey)
    (events : List (PublicKey × Primary.Event)) (s : PublicKey → Primary) : Prop where
  batch : BatchSound
  fits : sys.committee.Fits
  weight : sys.committee.weight honestᶜ < sys.committee.validity_threshold
  run : sys.run (fun _ => .empty) events = some s
  recent : sys.Recent honest (fun _ => .empty) events
  from_tasks : sys.FromTasks honest (fun _ => .empty) events
  unforged : Unforged honest s
  fit : ∀ name ∈ honest, ∀ v ∈ (s name).core.voted, v.vote.round < 2 ^ 64
  rounds : RoundsFit sys honest events s

/-- The certificates that are handed over pass their check, and the digests of what occurs in the
run tell it apart. -/
structure Distinct (sys : System) (honest : Set PublicKey) (s : PublicKey → Primary) : Prop where
  certified : ∀ c, Handed honest s c → Certified sys honest s c
  certificates : ∀ c c', Handed honest s c →
    Handed honest s c' ∨ c' ∈ Certificate.genesis sys.committee → c.digest = c'.digest →
    c.header.id = c'.header.id ∧ c.round = c'.round ∧ c.origin = c'.origin
  headers : ∀ name ∈ honest, ∀ v ∈ (s name).core.voted, ∀ c, Handed honest s c →
    v.header.digest = c.header.digest → v.header.Agrees c.header
  ids : ∀ name ∈ honest, ∀ h, .consensus_header h ∈ (s name).core.sent → ∀ c,
    Handed honest s c ∨ c ∈ Certificate.genesis sys.committee → h.id ≠ c.digest

theorem Distinct.round_of_digest (hd : Distinct sys honest s)
    (hc : Handed honest s c ∨ c ∈ Certificate.genesis sys.committee)
    (hc' : Handed honest s c' ∨ c' ∈ Certificate.genesis sys.committee)
    (hdigest : c.digest = c'.digest) : c.round = c'.round := by
  rcases hc with hc | hc
  · exact (hd.certificates c c' hc hc' hdigest).2.1
  · rcases hc' with hc' | hc'
    · exact (hd.certificates c' c hc' (Or.inr hc) hdigest.symm).2.1.symm
    · obtain ⟨n, -, rfl⟩ := Certificate.mem_genesis.mp hc
      obtain ⟨m, -, rfl⟩ := Certificate.mem_genesis.mp hc'
      rfl

theorem HonestRun.core (h : HonestRun sys honest events s) (hname : name ∈ honest) :
    ∃ core_events, Core.run (sys.node name) .empty core_events = some (s name).core := by
  obtain ⟨core_events, hcore, -⟩ := served_of_run h.run h.from_tasks hname
  exact ⟨core_events, hcore⟩

/-- An honest primary voted for the header of a certificate that is handed over, with its parents in
order. -/
theorem HonestRun.voter (h : HonestRun sys honest events s) (hd : Distinct sys honest s)
    (hc : Handed honest s c) : ∃ name ∈ honest, ∃ v ∈ (s name).core.voted,
      v.header.id = c.header.id ∧ v.header.digest = v.header.id ∧ v.header.Agrees c.header ∧
        Core.Rooted (sys.node name) (s name).core v := by
  have hcertified := hd.certified c hc
  have hquorum :=
    Certificate.quorum_signed h.batch hcertified.accepted hcertified.not_genesis
  have hinter := Committee.validity_le_weight_inter h.fits hquorum hquorum
  obtain ⟨name, -, ⟨hsigned, -⟩, hnot⟩ :=
    Committee.exists_notMem_of_weight_lt (Nat.lt_of_lt_of_le h.weight hinter)
  have hname : name ∈ honest := not_not.mp hnot
  obtain ⟨v, hv, hid, hround, -⟩ := voter_of_signed h.run h.unforged h.fit hcertified hname hsigned
  have hbacked := backed_of_run h.run h.from_tasks hname v hv
  rw [hbacked.vote] at hid hround
  change v.header.id = c.header.id at hid
  have hvoter := digest_of_voter hcertified hbacked hid hround
  have hdigest : c.header.digest = c.header.id := (Header.verify_ok
    (Certificate.verify_ok hcertified.accepted hcertified.not_genesis).1).1
  obtain ⟨core_events, hcore⟩ := h.core hname
  exact ⟨name, hname, v, hv, hid, hvoter,
    hd.headers name hname v hv c hc (by rw [hdigest, hvoter, hid]),
    Core.allRooted_of_run hcore v hv⟩

/-- The parents of a certificate that is handed over: each is handed over too, by some primary, or
is a genesis certificate. -/
structure Parents (sys : System) (honest : Set PublicKey) (s : PublicKey → Primary)
    (c : Certificate) (parents : List Certificate) : Prop where
  digests : parents.map Certificate.digest = c.header.parents.toList
  known : ∀ p ∈ parents, Handed honest s p ∨ p ∈ Certificate.genesis sys.committee
  rounds : ∀ p ∈ parents, p.round + 1 = c.round
  quorum : sys.committee.quorum_threshold ≤ (parents.map fun p => sys.committee.stake p.origin).sum

theorem HonestRun.parents (h : HonestRun sys honest events s) (hd : Distinct sys honest s)
    (hc : Handed honest s c) : ∃ parents, Parents sys honest s c parents := by
  obtain ⟨name, hname, v, -, -, -, hagrees, hrooted⟩ := h.voter hd hc
  obtain ⟨hrounds, hquorum, -⟩ := Core.check_parents_ok hrooted.checked
  have hforall := List.forall₂_iff_get.mp hrooted.parents
  have hknown : ∀ p ∈ v.parents, Handed honest s p ∨ p ∈ Certificate.genesis sys.committee := by
    intro p hp
    obtain ⟨i, hi, rfl⟩ := List.mem_iff_getElem.mp hp
    rcases (hforall.2 i (hforall.1 ▸ hi) hi).2 with hgenesis | hsent
    · exact Or.inr hgenesis
    · exact Or.inl ⟨name, hname, hsent⟩
  refine ⟨v.parents, ?_, hknown, ?_, hquorum⟩
  · rw [← hagrees.parents]
    refine List.ext_get (by rw [List.length_map, hforall.1]) fun i hi hi' => ?_
    rw [List.get_eq_getElem, List.getElem_map]
    exact (hforall.2 i hi' (by simpa using hi)).1
  · intro p hp
    have hlt : p.round + 1 < 2 ^ 64 := by
      rcases hknown p hp with hhanded | hgenesis
      · exact (h.rounds.certificates p hhanded).1
      · obtain ⟨n, -, rfl⟩ := Certificate.mem_genesis.mp hgenesis
        exact show 0 + 1 < 2 ^ 64 by decide
    rw [← wrapping_succ_of_lt hlt, hrounds p hp, hagrees.round]
    rfl

theorem Parents.exists_mem {parents : List Certificate} (h : Parents sys honest s c parents) :
    ∃ p, p ∈ parents := by
  apply List.exists_mem_of_ne_nil
  rintro rfl
  exact absurd h.quorum (Nat.not_le_of_lt Committee.quorum_threshold_pos)

theorem Parents.exists_of_digest {parents : List Certificate} (h : Parents sys honest s c parents)
    {d : Digest} (hd : d ∈ c.header.parents) : ∃ p ∈ parents, p.digest = d := by
  rw [← ExtTreeSet.mem_toList, ← h.digests] at hd
  exact List.mem_map.mp hd

theorem HonestRun.round_pos (h : HonestRun sys honest events s) (hd : Distinct sys honest s)
    (hc : Handed honest s c) : 0 < c.round := by
  obtain ⟨parents, hparents⟩ := h.parents hd hc
  obtain ⟨p, hp⟩ := hparents.exists_mem
  have := hparents.rounds p hp
  omega

/-- Certificates for one header are the same up to votes. -/
theorem HonestRun.bare_of_id (h : HonestRun sys honest events s) (hd : Distinct sys honest s)
    (hc : Handed honest s c) (hc' : Handed honest s c') (hid : c.header.id = c'.header.id) :
    c.bare = c'.bare := by
  obtain ⟨name, hname, v, hv, hvid, hvdigest, hagrees, -⟩ := h.voter hd hc
  have hcertified := hd.certified c' hc'
  have hdigest : c'.header.digest = c'.header.id := (Header.verify_ok
    (Certificate.verify_ok hcertified.accepted hcertified.not_genesis).1).1
  have hagrees' := hd.headers name hname v hv c' hc' (by rw [hvdigest, hvid, hid, hdigest])
  unfold Certificate.bare Header.bare
  rw [← hagrees.author, ← hagrees.round, ← hagrees.parents, hagrees'.author, hagrees'.round,
    hagrees'.parents, hid]

theorem HonestRun.bare_of_digest (h : HonestRun sys honest events s) (hd : Distinct sys honest s)
    (hc : Handed honest s c) (hc' : Handed honest s c') (hdigest : c.digest = c'.digest) :
    c.bare = c'.bare :=
  h.bare_of_id hd hc hc' (hd.certificates c c' hc (Or.inl hc') hdigest).1

theorem HonestRun.bare_of_author (h : HonestRun sys honest events s) (hd : Distinct sys honest s)
    (hc : Handed honest s c) (hc' : Handed honest s c') (hround : c.round = c'.round)
    (horigin : c.origin = c'.origin) : c.bare = c'.bare :=
  h.bare_of_id hd hc hc' (id_of_certified h.batch h.fits h.weight h.run h.recent h.unforged h.fit
    (hd.certified c hc) (hd.certified c' hc') hround horigin)

/-- The parents of a certificate have different authors. -/
theorem HonestRun.parents_nodup (h : HonestRun sys honest events s) (hd : Distinct sys honest s)
    {parents : List Certificate} (hparents : Parents sys honest s c parents) :
    (parents.map (·.origin)).Nodup := by
  have hdigests : (parents.map Certificate.digest).Nodup := by
    rw [hparents.digests]
    refine ExtTreeSet.distinct_toList.imp ?_
    rintro d _ hdistinct rfl
    exact hdistinct compare_self
  refine (List.Nodup.of_map _ hdigests).map_on fun x hx y hy horigin => ?_
  have hround : x.round = y.round :=
    Nat.succ.inj ((hparents.rounds x hx).trans (hparents.rounds y hy).symm)
  apply List.inj_on_of_nodup_map hdigests hx hy
  rcases hparents.known x hx with hx | hx <;> rcases hparents.known y hy with hy | hy
  · have hbare := h.bare_of_author hd hx hy hround horigin
    exact (congrArg Certificate.digest hbare :)
  · have := h.round_pos hd hx
    obtain ⟨n, -, rfl⟩ := Certificate.mem_genesis.mp hy
    exact absurd hround (Nat.ne_of_gt this)
  · have := h.round_pos hd hy
    obtain ⟨n, -, rfl⟩ := Certificate.mem_genesis.mp hx
    exact absurd hround (Nat.ne_of_lt this)
  · obtain ⟨n, -, rfl⟩ := Certificate.mem_genesis.mp hx
    obtain ⟨m, -, rfl⟩ := Certificate.mem_genesis.mp hy
    obtain rfl : n = m := horigin
    rfl

/-! ## The dag -/

omit [Crypto] in
/-- What the honest primaries handed over, up to votes. -/
def honest_dag (honest : Set PublicKey) (s : PublicKey → Primary) : Set Certificate :=
  {c | ∃ x, Handed honest s x ∧ x.bare = c}

theorem HonestRun.validDag (h : HonestRun sys honest events s) (hd : Distinct sys honest s) :
    ValidDag sys.committee (honest_dag honest s) where
  positive := by
    rintro _ ⟨c, hc, rfl⟩
    exact (h.round_pos hd hc :)
  unique := by
    rintro _ ⟨c, hc, rfl⟩ _ ⟨c', hc', rfl⟩ hround horigin
    exact h.bare_of_author hd hc hc' hround horigin
  quorum := by
    rintro _ ⟨c, hc, rfl⟩
    obtain ⟨parents, hparents⟩ := h.parents hd hc
    have hmap := List.map_map (f := fun p : Certificate => p.origin) (g := sys.committee.stake)
      (l := parents)
    apply Nat.le_trans (Nat.le_trans hparents.quorum (Nat.le_of_eq (congrArg List.sum hmap.symm)))
    apply Committee.sum_stake_le_weight (h.parents_nodup hd hparents)
    intro n hn
    obtain ⟨p, hp, rfl⟩ := List.mem_map.mp hn
    have hdigest : p.digest ∈ c.header.parents := by
      rw [← ExtTreeSet.mem_toList, ← hparents.digests]
      exact List.mem_map_of_mem hp
    rcases hparents.known p hp with hknown | hgenesis
    · exact ⟨p.bare, Or.inl ⟨p, hknown, rfl⟩, ⟨hparents.rounds p hp, hdigest⟩, rfl⟩
    · exact ⟨p, Or.inr hgenesis, ⟨hparents.rounds p hp, hdigest⟩, rfl⟩

/-- The parents of a certificate are genesis certificates, or went to the consensus before it. -/
theorem HonestRun.sent_before (h : HonestRun sys honest events s) (hd : Distinct sys honest s)
    (hname : name ∈ honest) : Each (fun pre c => ∀ d ∈ c.header.parents,
      (∃ g ∈ Certificate.genesis sys.committee, g.digest = d) ∨ ∃ x ∈ pre, x.digest = d)
      (certificates_sent (s name).core) := by
  have hsent : Each (fun pre output => ∀ c, output = .consensus c → ∀ d ∈ c.header.parents,
      (∃ g ∈ Certificate.genesis sys.committee, g.digest = d) ∨
        ∃ x, .consensus x ∈ pre ∧ x.digest = d) (s name).core.sent := by
    obtain ⟨core_events, hcore⟩ := h.core hname
    rintro pre output post heq c rfl d hdc
    rcases (Core.delivered_of_run hcore).causal pre _ post heq c rfl d hdc with
      hg | hx | ⟨x, hx, hid, -⟩
    · exact Or.inl hg
    · exact Or.inr hx
    · -- the parents are certificates, so that none of them is under the id of a header
      have hc : .consensus c ∈ (s name).core.sent := by simp [heq]
      obtain ⟨parents, hparents⟩ := h.parents hd ⟨name, hname, hc⟩
      obtain ⟨p, hp, rfl⟩ := hparents.exists_of_digest hdc
      refine absurd hid (hd.ids name hname x ?_ p (hparents.known p hp))
      rw [heq]
      exact List.mem_append_left _ hx
  refine hsent.filterMap fun pre output c hknown hout d hdc => ?_
  obtain rfl : output = .consensus c := by
    cases output <;> simp_all
  refine (hknown c rfl d hdc).imp_right ?_
  rintro ⟨x, hx, hdigest⟩
  exact ⟨x, List.mem_filterMap.mpr ⟨_, hx, rfl⟩, hdigest⟩

/-- What a primary hands over is a part of the dag, each certificate after its parents. -/
theorem HonestRun.received (h : HonestRun sys honest events s) (hd : Distinct sys honest s)
    (hname : name ∈ honest) : Received sys.committee (honest_dag honest s)
      ((certificates_sent (s name).core).map .bare) := by
  have hhanded : ∀ c ∈ certificates_sent (s name).core, Handed honest s c :=
    fun c hc => ⟨name, hname, mem_certificates_sent.mp hc⟩
  have hbefore : Each (fun pre c => Handed honest s c ∧ (∀ x ∈ pre, Handed honest s x) ∧
      ∀ d ∈ c.header.parents, (∃ g ∈ Certificate.genesis sys.committee, g.digest = d) ∨
        ∃ x ∈ pre, x.digest = d) (certificates_sent (s name).core) := by
    refine fun pre c post heq => ⟨?_, fun x hx => ?_, h.sent_before hd hname pre c post heq⟩
    · exact hhanded c (by rw [heq]; simp)
    · exact hhanded x (by rw [heq]; simp [hx])
  refine ⟨?_, ?_, ?_⟩
  · intro c hc
    obtain ⟨x, hx, rfl⟩ := List.mem_map.mp hc
    exact ⟨x, hhanded x hx, rfl⟩
  · refine hbefore.map fun pre c ⟨hc, hpre, hknown⟩ d hdc => ?_
    have hdc : d ∈ c.header.parents := ExtTreeSet.mem_toList.mp hdc
    obtain ⟨parents, hparents⟩ := h.parents hd hc
    obtain ⟨p, hp, rfl⟩ := hparents.exists_of_digest hdc
    have hround : ∀ x, Handed honest s x ∨ x ∈ Certificate.genesis sys.committee →
        x.digest = p.digest → x.round + 1 = c.round := fun x hx hdigest => by
      rw [hd.round_of_digest hx (hparents.known p hp) hdigest, hparents.rounds p hp]
    rcases hknown _ hdc with ⟨g, hg, hdigest⟩ | ⟨x, hx, hdigest⟩
    · exact ⟨g, List.mem_append_right _ hg, hdigest, hround g (Or.inr hg) hdigest⟩
    · exact ⟨x.bare, List.mem_append_left _ (List.mem_map_of_mem hx), hdigest,
        hround x (Or.inl (hpre x hx)) hdigest⟩
  · refine hbefore.map fun pre c ⟨hc, hpre, hknown⟩ p hp hparent => ?_
    obtain ⟨y, hy, rfl⟩ := hp
    rcases hknown y.digest hparent.2 with ⟨g, hg, hdigest⟩ | ⟨x, hx, hdigest⟩
    · -- a genesis certificate is of round 0
      have hround := (hd.certificates y g hy (Or.inr hg) hdigest.symm).2.1
      have hpos := h.round_pos hd hy
      obtain ⟨n, -, rfl⟩ := Certificate.mem_genesis.mp hg
      exact absurd hround (Nat.ne_of_gt hpos)
    · rw [← h.bare_of_digest hd (hpre x hx) hy hdigest]
      exact List.mem_map_of_mem hx

/-- For every run of the primaries of a committee, in any order of their steps and whatever the
others send: what the honest ones hand to the consensus is, up to votes, one valid dag, with one
certificate of an author for a round and a quorum of parents for each. Each of them hands over a
part of it, every certificate after its parents. It takes that what they hand over is certified, and
that the digests tell it apart. -/
theorem honest_primaries_share_a_dag (sys : System) (honest : Set PublicKey)
    (events : List (PublicKey × Primary.Event)) (s : PublicKey → Primary)
    (h : HonestRun sys honest events s) (hd : Distinct sys honest s) :
    ValidDag sys.committee (honest_dag honest s) ∧
      ∀ name ∈ honest, Received sys.committee (honest_dag honest s)
        ((certificates_sent (s name).core).map .bare) :=
  ⟨h.validDag hd, fun _ hname => h.received hd hname⟩

/-! ## Runs without a commit -/

omit [Crypto] in
/-- The event is no commit, and brings nothing to the core that is for another task of the primary
to bring. -/
def uncommitted : PublicKey × Primary.Event → Bool
  | (_, .core (.input (.primaries (.certificates_request _ _)))) => false
  | (_, .core (.input (.primaries _))) | (_, .core (.payload _ _)) => true
  | (_, .core _) => false
  | (_, .core_receives _) | (_, .elapse) | (_, .propose) | (_, .worker _ _) | (_, .timer)
  | (_, .proposer_receives _) => true

theorem fromTasks_of_uncommitted (h : events.all uncommitted = true) :
    sys.FromTasks honest (fun _ => .empty) events := by
  rintro pre ⟨name, e⟩ post heq before _ _ input rfl
  have hmem : (name, Primary.Event.core (.input input)) ∈ events := by simp [heq]
  have hone := List.all_eq_true.mp h _ hmem
  cases input with
  | primaries message =>
    rintro digests requestor rfl
    cases hone
  | header_waiter | certificate_waiter | proposer | timeout | no_vote_msg => cases hone

/-- Without a commit, a core does not garbage collect. -/
theorem uncollected_of_run (h : events.all uncommitted = true)
    (hrun : sys.run (fun _ => .empty) events = some s) (name : PublicKey) :
    (s name).core.Uncollected := by
  refine parties.invariant_of_run (I := fun _ s => s.core.Uncollected) hrun ?_ ?_ name
  · exact fun _ => ⟨rfl, rfl⟩
  · rintro pre ⟨name, e⟩ post heq before t - hstep hbefore
    have hone := List.all_eq_true.mp h (name, e) (by simp [heq])
    cases Primary.change_of_step hstep with
    | @core e _ hcore =>
      cases e with
      | input => exact hbefore.of_input hcore
      | payload =>
        rw [← Option.some.inj hcore]
        exact ⟨hbefore.consensus_round, hbefore.gc_round⟩
      | committed => cases hone
    | core_receives _ hcore => exact hbefore.of_input hcore
    | elapse hcore | propose hcore | receive _ _ _ hcore =>
      rw [hcore]
      exact hbefore

theorem recent_of_uncommitted (h : events.all uncommitted = true) :
    sys.Recent honest (fun _ => .empty) events := by
  rintro pre ⟨name, e⟩ post heq before hrun _ input _
  have hpre : pre.all uncommitted = true := by
    rw [heq, List.all_append, Bool.and_eq_true] at h
    exact h.1
  have hpast : ∀ header : Header, (before name).core.gc_round ≤ header.round := by
    rw [(uncollected_of_run hpre hrun name).gc_round]
    exact fun header => Nat.zero_le header.round
  cases input with
  | primaries message =>
    cases message with
    | header | certificate => exact fun _ => ⟨hpast _, fun _ _ => hpast _⟩
    | vote => exact hpast _
    | timeout | no_vote_msg | certificates_request => trivial
  | header_waiter | certificate_waiter => exact ⟨hpast _, fun _ _ => hpast _⟩
  | proposer => exact hpast _
  | timeout | no_vote_msg => trivial

/-! ## Runs on fixed inputs -/

omit [Crypto] in
/-- What the primaries of a list handed to the consensus. -/
def handed (names : List PublicKey) (s : PublicKey → Primary) : List Certificate :=
  names.flatMap fun name => certificates_sent (s name).core

omit [Crypto] in
theorem mem_handed {names : List PublicKey} :
    c ∈ handed names s ↔ Handed {a | a ∈ names} s c := by
  simp [handed, Handed, mem_certificates_sent]

/-- What `Distinct` takes, for the names of a list. -/
def distinct (sys : System) (names : List PublicKey) (s : PublicKey → Primary) : Bool :=
  let all := handed names s ++ Certificate.genesis sys.committee
  (handed names s).all (certified sys names s) &&
    ((handed names s).all fun c => all.all fun c' => c.digest != c'.digest ||
      c.header.id == c'.header.id && c.round == c'.round && c.origin == c'.origin) &&
    (names.all fun name => (s name).core.voted.all fun v => (handed names s).all fun c =>
      v.header.digest != c.header.digest || v.header == c.header) &&
    names.all fun name => (headers_sent (s name).core).all fun h => all.all fun c => h.id != c.digest

theorem distinct_of_checked {names : List PublicKey} (h : distinct sys names s = true) :
    Distinct sys {a | a ∈ names} s := by
  have hall : ∀ {c}, Handed {a | a ∈ names} s c ∨ c ∈ Certificate.genesis sys.committee →
      c ∈ handed names s ++ Certificate.genesis sys.committee := fun hc =>
    List.mem_append.mpr (hc.imp_left mem_handed.mpr)
  simp only [distinct, Bool.and_eq_true] at h
  obtain ⟨⟨⟨hcertified, hcertificates⟩, hheaders⟩, hids⟩ := h
  refine ⟨?_, ?_, ?_, ?_⟩
  · intro c hc
    exact certified_of_checked (List.all_eq_true.mp hcertified c (mem_handed.mpr hc))
  · intro c c' hc hc' hdigest
    have hone := List.all_eq_true.mp (List.all_eq_true.mp hcertificates c (mem_handed.mpr hc)) c'
      (hall hc')
    simpa [hdigest, and_assoc] using hone
  · intro name hname v hv c hc hdigest
    have hone := List.all_eq_true.mp (List.all_eq_true.mp (List.all_eq_true.mp hheaders name hname)
      v hv) c (mem_handed.mpr hc)
    have heq : v.header = c.header := by simpa [hdigest] using hone
    exact heq ▸ ⟨rfl, rfl, rfl, rfl⟩
  · intro name hname h hh c hc
    have hone := List.all_eq_true.mp (List.all_eq_true.mp (List.all_eq_true.mp hids name hname) h
      (mem_headers_sent.mpr hh)) c (hall hc)
    exact bne_iff_ne.mp hone

/-- What `RoundsFit` takes, for the names of a list. -/
def rounds_fit (sys : System) (names : List PublicKey) (events : List (PublicKey × Primary.Event))
    (s : PublicKey → Primary) : Bool :=
  decide (sys.gc_depth < 2 ^ 64) &&
    ((handed names s).all fun c => decide (c.round + 1 < 2 ^ 64) &&
      decide (c.round + sys.gc_depth < 2 ^ 64)) &&
    names.all fun name => decide (Primary.NeverWraps (sys.node name) sys.header_size .empty
      (parties.events_of name events))

theorem roundsFit_of_checked {names : List PublicKey} (h : rounds_fit sys names events s = true) :
    RoundsFit sys {a | a ∈ names} events s := by
  simp only [rounds_fit, Bool.and_eq_true, List.all_eq_true, decide_eq_true_eq] at h
  exact ⟨h.1.1, fun c hc => h.1.2 c (mem_handed.mpr hc), h.2⟩

end

/-! ## A run of two rounds -/

/-- Authority 1 and one of the others are a quorum, and authority 2 leads round 1. -/
def trio : Committee := .sample [(1, 4), (2, 1), (3, 1)] (by simp)

theorem weight_compl_pair : trio.weight {a | a ∈ [1, 2]}ᶜ < trio.validity_threshold := by
  have hle : trio.weight {a | a ∈ [1, 2]}ᶜ ≤ ([3].map trio.stake).sum :=
    Committee.weight_compl_le (by decide) (by decide +kernel)
  exact Nat.lt_of_le_of_lt hle (by decide +kernel)

def trio_primaries : System := { committee := trio, gc_depth := 50, header_size := 0 }

/-- The header of an authority for round 1. -/
def trio_first (author : PublicKey) : Header :=
  letI := crypto.sample
  let parents := ExtTreeSet.ofList ((Certificate.genesis trio).map Certificate.digest)
  { Header.default with author, round := 1, parents }.signed

/-- The header of an authority for round 2, with the headers of authorities 1 and 2 as parents. -/
def trio_second (author : PublicKey) : Header :=
  letI := crypto.sample
  let parents := ExtTreeSet.ofList ([1, 2].map fun name => ((trio_first name).certified []).digest)
  { Header.default with author, round := 2, parents }.signed

/-- The signatures that are valid: of each header, and of the votes for it. -/
def trio_signed : List (PublicKey × Digest) :=
  letI := crypto.sample
  [trio_first 1, trio_first 2, trio_second 1, trio_second 3].flatMap fun header =>
    (header.author, header.digest) ::
      [1, 2, 3].map fun name => (name, (header.certified []).digest)

@[reducible] def trio_crypto : Crypto := crypto.sample_signed trio_signed

section

attribute [local instance] trio_crypto

def sends (name : PublicKey) (message : PrimaryMessage) : PublicKey × Primary.Event :=
  (name, .core (.input (.primaries message)))

/-- Authorities 1 and 2 make headers and get them certified. Authority 1 goes on to round 2, and so
does authority 3, which does not run the code. The two get different votes for the leader. -/
def trio_events : List (PublicKey × Primary.Event) :=
  [(1, .propose), (2, .propose), (1, .core_receives .headers), (2, .core_receives .headers),
    sends 1 (.header (trio_first 2)), sends 2 (.header (trio_first 1)),
    sends 1 (.vote (.new (trio_first 1) 2)),
    sends 1 (.certificate ((trio_first 2).certified [1, 2])),
    sends 2 (.certificate ((trio_first 1).certified [1, 2])),
    sends 2 (.certificate ((trio_first 2).certified [1, 3])),
    (1, .proposer_receives .parents), (1, .propose), (1, .core_receives .headers),
    sends 2 (.header (trio_second 1)), sends 1 (.header (trio_second 3)),
    sends 2 (.header (trio_second 3)), sends 2 (.certificate ((trio_second 1).certified [1, 2])),
    sends 1 (.certificate ((trio_second 3).certified [1, 2])),
    sends 2 (.certificate ((trio_second 3).certified [1, 2]))]

def trio_primary : PublicKey → Primary :=
  (trio_primaries.run (fun _ => .empty) trio_events).get (by decide +kernel)

theorem trio_run : HonestRun trio_primaries {a | a ∈ [1, 2]} trio_events trio_primary where
  batch := sample_signed_batchSound _
  fits := by decide +kernel
  weight := weight_compl_pair
  run := (Option.some_get _).symm
  recent := recent_of_uncommitted (by decide +kernel)
  from_tasks := fromTasks_of_uncommitted (by decide +kernel)
  unforged := unforged_of_checked (by decide +kernel)
  fit := fit_of_checked (by decide +kernel)
  rounds := roundsFit_of_checked (by decide +kernel)

theorem trio_distinct : Distinct trio_primaries {a | a ∈ [1, 2]} trio_primary :=
  distinct_of_checked (by decide +kernel)

theorem honest_primaries_share_a_dag_trio :
    (certificates_sent (trio_primary 1).core).map (fun c => (c.origin, c.round)) =
        [(1, 1), (2, 1), (3, 2)] ∧
      ValidDag trio (honest_dag {a | a ∈ [1, 2]} trio_primary) ∧
      Received trio (honest_dag {a | a ∈ [1, 2]} trio_primary)
        ((certificates_sent (trio_primary 2).core).map .bare) := by
  obtain ⟨hvalid, hreceived⟩ := honest_primaries_share_a_dag trio_primaries {a | a ∈ [1, 2]}
    trio_events trio_primary trio_run trio_distinct
  exact ⟨by decide +kernel, hvalid, hreceived 2 (by simp)⟩

end

end System

end sailfish.primary
