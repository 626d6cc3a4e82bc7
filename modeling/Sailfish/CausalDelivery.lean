-- The law of causal delivery: a certificate goes to the consensus after its parents.
-- The store of a core holds only what it sent to the consensus before.
import Mathlib
import Sailfish.CoreEffects
import Sailfish.HeaderVotes

open Std splits sailfish.crypto sailfish.config

namespace sailfish.primary.Core

section

variable [Crypto] {node : Node} {s s' : Core}

/-- The records of the store went to the consensus, and the parents of a certificate that went
there were in the store. A digest in the store may be the id of a header. -/
structure Delivered (node : Node) (s : Core) : Prop where
  certificate : ∀ d c, s.store.records[d]? = some (.certificate c) →
    d = c.digest ∧ .consensus c ∈ s.sent
  header : ∀ d h, s.store.records[d]? = some (.header h) →
    d = h.id ∧ .consensus_header h ∈ s.sent
  causal : Each (fun pre output => ∀ c, output = .consensus c → ∀ d ∈ c.header.parents,
    (∃ g ∈ Certificate.genesis node.committee, g.digest = d) ∨
      (∃ x, .consensus x ∈ pre ∧ x.digest = d) ∨
      ∃ h, .consensus_header h ∈ pre ∧ h.id = d ∧ d ∈ s.store.records) s.sent

theorem delivered_spawn : Delivered node (spawn .empty) where
  certificate := by simp [spawn, Store.empty]
  header := by simp [spawn, Store.empty]
  causal := each_nil

theorem Delivered.frame (h : Delivered node s) (hframe : Frame s s') : Delivered node s' := by
  refine ⟨?_, ?_, ?_⟩
  · rw [hframe.records, hframe.sent]
    exact h.certificate
  · rw [hframe.records, hframe.sent]
    exact h.header
  · rw [hframe.records, hframe.sent]
    exact h.causal

theorem Delivered.send (h : Delivered node s) {output : Output}
    (houtput : ∀ c, output ≠ .consensus c) :
    Delivered node { s with sent := s.sent ++ [output] } where
  certificate := fun d c hc => (h.certificate d c hc).imp_right (List.mem_append_left _)
  header := fun d x hx => (h.header d x hx).imp_right (List.mem_append_left _)
  causal := h.causal.concat fun c heq => absurd heq (houtput c)

/-- A header goes into the store once it is sent. -/
theorem Delivered.write_header (h : Delivered node s) {header : Header}
    (hsent : .consensus_header header ∈ s.sent) :
    Delivered node { s with store := s.store.write header.id (.header header) } where
  certificate := by
    intro d c hc
    rw [Store.write, ExtTreeMap.getElem?_insert] at hc
    split at hc
    · cases hc
    · exact h.certificate d c hc
  header := by
    intro d x hx
    rw [Store.write, ExtTreeMap.getElem?_insert] at hx
    split at hx
    · rename_i heq
      cases hx
      exact ⟨(compare_eq_iff_eq.mp heq).symm, hsent⟩
    · exact h.header d x hx
  causal := h.causal.imp fun pre output hall c heq d hd => by
    rcases hall c heq d hd with hg | hx | ⟨x, hx, hid, hm⟩
    · exact Or.inl hg
    · exact Or.inr (Or.inl hx)
    · exact Or.inr (Or.inr ⟨x, hx, hid, ExtTreeMap.mem_insert.mpr (Or.inr hm)⟩)

/-- The ancestors of a certificate that are in the store went to the consensus. -/
theorem Delivered.of_has_ancestors (h : Delivered node s) {c : Certificate}
    (hall : has_ancestors (genesis_digests node.committee) s.store c = true) {d : Digest}
    (hd : d ∈ c.header.parents) :
    (∃ g ∈ Certificate.genesis node.committee, g.digest = d) ∨
      (∃ x, .consensus x ∈ s.sent ∧ x.digest = d) ∨
      ∃ x, .consensus_header x ∈ s.sent ∧ x.id = d ∧ d ∈ s.store.records := by
  have hfound := List.all_eq_true.mp hall d (ExtTreeSet.mem_toList.mpr hd)
  rw [Bool.or_eq_true, List.any_eq_true] at hfound
  rcases hfound with ⟨⟨d', g⟩, hg, heq⟩ | hstored
  · obtain ⟨g, hm, hpair⟩ := List.mem_map.mp hg
    cases hpair
    exact Or.inl ⟨g, hm, beq_iff_eq.mp heq⟩
  · have hm : d ∈ s.store.records := ExtTreeMap.contains_iff_mem.mp hstored
    rcases hr : s.store.records[d] with x | x
    · obtain ⟨hid, hsent⟩ := h.header d x (ExtTreeMap.getElem?_eq_some_getElem hm ▸ by rw [hr])
      exact Or.inr (Or.inr ⟨x, hsent, hid.symm, hm⟩)
    · obtain ⟨hdigest, hsent⟩ :=
        h.certificate d x (ExtTreeMap.getElem?_eq_some_getElem hm ▸ by rw [hr])
      exact Or.inr (Or.inl ⟨x, hsent, hdigest.symm⟩)

/-- The store and what was sent, once a certificate with all its ancestors is stored and sent. -/
theorem Delivered.store_certificate (h : Delivered node s) {c : Certificate}
    (hall : has_ancestors (genesis_digests node.committee) s.store c = true)
    {aggregators : ExtTreeMap ℕ CertificatesAggregator} {parents : Option (List Certificate)} :
    Delivered node { s with
      store := s.store.write c.digest (.certificate c)
      certificates_aggregators := aggregators
      sent := s.sent ++ (parents.map (Output.proposer · c.round)).toList ++ [.consensus c] } := by
  have hproposer : Delivered node
      { s with sent := s.sent ++ (parents.map (Output.proposer · c.round)).toList } := by
    cases parents with
    | none => simpa using h
    | some parents => exact h.send fun _ => nofun
  refine ⟨?_, ?_, ?_⟩
  · intro d x hx
    rw [Store.write, ExtTreeMap.getElem?_insert] at hx
    split at hx
    · rename_i heq
      cases hx
      exact ⟨(compare_eq_iff_eq.mp heq).symm, List.mem_append_right _ List.mem_cons_self⟩
    · exact (hproposer.certificate d x hx).imp_right (List.mem_append_left _)
  · intro d x hx
    rw [Store.write, ExtTreeMap.getElem?_insert] at hx
    split at hx
    · cases hx
    · exact (hproposer.header d x hx).imp_right (List.mem_append_left _)
  · have hgrow : ∀ d, d ∈ s.store.records →
        d ∈ (s.store.write c.digest (.certificate c)).records :=
      fun d hd => ExtTreeMap.mem_insert.mpr (Or.inr hd)
    refine Each.concat (hproposer.causal.imp ?_) ?_
    · intro pre output hcausal x heq d hd
      rcases hcausal x heq d hd with hg | hx | ⟨y, hy, hid, hm⟩
      · exact Or.inl hg
      · exact Or.inr (Or.inl hx)
      · exact Or.inr (Or.inr ⟨y, hy, hid, hgrow d hm⟩)
    · rintro x ⟨⟩ d hd
      have hancestors : has_ancestors (genesis_digests node.committee)
        ({ s with sent := s.sent ++ (parents.map (Output.proposer · c.round)).toList } : Core).store
        c = true := hall
      rcases hproposer.of_has_ancestors hancestors hd with hg | hx | ⟨y, hy, hid, hm⟩
      · exact Or.inl hg
      · exact Or.inr (Or.inl hx)
      · exact Or.inr (Or.inr ⟨y, hy, hid, hgrow d hm⟩)

theorem Delivered.effect (heffect : AnyEffect node s s') (h : Delivered node s) :
    Delivered node s' := by
  cases heffect with
  | @send output hsend =>
    refine h.send ?_
    rintro c rfl
    exact hsend
  | accept _ haccepted _ => exact h.write_header haccepted.forwarded
  | vote _ haccepted _ =>
    have hstored := h.write_header haccepted.forwarded
    exact ⟨hstored.certificate, hstored.header, hstored.causal⟩
  | store_certificate _ hall => exact h.store_certificate hall
  | processing | votes | handlers | timeouts | no_votes =>
    exact ⟨h.certificate, h.header, h.causal⟩

theorem delivered_of_run {events : List Event} (hrun : run node .empty events = some s) :
    Delivered node s :=
  invariant_of_run delivered_spawn (fun _ _ => Delivered.effect)
    (fun _ _ hframe h => h.frame hframe) hrun

/-- For every run of a core on an empty store: whenever it sends a certificate to the consensus,
every parent of it is a genesis certificate or a certificate sent before. It takes that no digest of
a parent is the id of a header in the store, and no id of a header the digest of a certificate. -/
theorem certificates_are_sent_after_their_parents (node : Node) (events : List Event) (s : Core)
    (hrun : run node .empty events = some s)
    (hheaders : ∀ c, .consensus c ∈ s.sent → ∀ d ∈ c.header.parents, ∀ h,
      s.store.records[d]? ≠ some (.header h))
    (hcollision : ∀ h c, .consensus_header h ∈ s.sent → .consensus c ∈ s.sent →
      h.id ≠ c.digest) :
    Each (fun pre output => ∀ c, output = .consensus c → ∀ d ∈ c.header.parents,
      (∃ g ∈ Certificate.genesis node.committee, g.digest = d) ∨
        ∃ x, .consensus x ∈ pre ∧ x.digest = d) s.sent := by
  have hdelivered := delivered_of_run hrun
  rintro pre _ post hsent c rfl d hd
  have hc : .consensus c ∈ s.sent := by simp [hsent]
  rcases hdelivered.causal pre _ post hsent c rfl d hd with hg | hx | ⟨h, hh, hid, hm⟩
  · exact Or.inl hg
  · exact Or.inr hx
  · -- the record under the id of a stored header is a header, or a collision
    have hh' : .consensus_header h ∈ s.sent := by
      rw [hsent]
      exact List.mem_append_left _ hh
    have hrecord := ExtTreeMap.getElem?_eq_some_getElem hm
    rcases hr : s.store.records[d] with x | x
    · rw [hr] at hrecord
      exact absurd hrecord (hheaders c hc d hd x)
    · rw [hr] at hrecord
      obtain ⟨hdigest, hx⟩ := hdelivered.certificate d x hrecord
      exact absurd (hid.trans hdigest) (hcollision h x hh' hx)

end

section

attribute [local instance] crypto.sample

/-- The certificates of round 1, and then one of round 2 that lists three of them. -/
def two_rounds : List Event :=
  [1, 2, 3].map (fun a => .input (.primaries (.certificate (consensus.first_of a)))) ++
    [.input (.primaries (.certificate ((consensus.second_of 2).certified [1, 2, 3])))]

def two_rounds_state : Core :=
  (run consensus.counting_node .empty two_rounds).get (by decide +kernel)

theorem two_rounds_delivered : Delivered consensus.counting_node two_rounds_state :=
  delivered_of_run (show run _ .empty two_rounds = _ by simp [two_rounds_state])

theorem certificates_are_sent_after_their_parents_two_rounds :
    (consensus.certificates_sent two_rounds_state).length = 4 ∧
    Each (fun pre output => ∀ c, output = .consensus c → ∀ d ∈ c.header.parents,
      (∃ g ∈ Certificate.genesis .four, g.digest = d) ∨
        ∃ x, .consensus x ∈ pre ∧ x.digest = d) two_rounds_state.sent := by
  refine ⟨by decide +kernel, certificates_are_sent_after_their_parents consensus.counting_node
    two_rounds two_rounds_state (by simp [two_rounds_state]) ?_ ?_⟩
  · intro c hc d hd h hrecord
    have hall := List.all_eq_true.mp (show ((consensus.certificates_sent two_rounds_state).all
      fun c => c.header.parents.toList.all fun d =>
        (consensus.headers_sent two_rounds_state).all fun h =>
          two_rounds_state.store.records[d]? != some (.header h)) = true by decide +kernel) c
      (consensus.mem_certificates_sent.mpr hc)
    have hd' := List.all_eq_true.mp hall d (ExtTreeSet.mem_toList.mpr hd)
    have hsent := (two_rounds_delivered.header d h hrecord).2
    exact bne_iff_ne.mp (List.all_eq_true.mp hd' h (consensus.mem_headers_sent.mpr hsent)) hrecord
  · intro h c hh hc
    have hall := List.all_eq_true.mp (show ((consensus.headers_sent two_rounds_state).all fun h =>
      (consensus.certificates_sent two_rounds_state).all fun c => h.id != c.digest) = true by
        decide +kernel) h (consensus.mem_headers_sent.mpr hh)
    exact bne_iff_ne.mp (List.all_eq_true.mp hall c (consensus.mem_certificates_sent.mpr hc))

end

end sailfish.primary.Core
