-- The law of certified headers: an accepted certificate shows that honest primaries of a
-- validity set hold the parents of its header, and know that their workers hold its batches.
import Mathlib
import Sailfish.CertificateUniqueness

open Std Relation effects splits sailfish.crypto sailfish.config

namespace sailfish.primary

/-- The node has every parent of the header, and the markers of the batches of others. -/
structure Available [Crypto] (node : Node) (store : Store) (header : Header) : Prop where
  parents : ∀ d ∈ header.parents,
    (∃ g ∈ Certificate.genesis node.committee, g.digest = d) ∨ d ∈ store.records
  batches : header.author ≠ node.name → ∀ batch ∈ header.payload.toList, batch ∈ store.batches

section

variable [Crypto] {node : Node} {store store' : Store} {header header' : Header}

theorem Available.mono (h : Available node store header)
    (hrecords : ∀ d ∈ store.records, d ∈ store'.records) (hbatches : store.batches ⊆ store'.batches) :
    Available node store' header where
  parents := fun d hd => (h.parents d hd).imp_right (hrecords d)
  batches := fun hother batch hb => hbatches (h.batches hother batch hb)

theorem Available.agrees (h : Available node store header) (ha : header.Agrees header') :
    Available node store header' where
  parents := ha.parents ▸ h.parents
  batches := by
    rw [← ha.author, ← ha.payload]
    exact h.batches

end

namespace Core

section

variable [Crypto] {node : Node} {s s' : Core} {header : Header} {parents : List Certificate}

theorem Accepted.available (h : Accepted node s header parents) : Available node s.store header where
  parents := by
    intro d hd
    obtain ⟨c, -, hknown⟩ : ∃ c ∈ parents, Known node s.store d c := by
      have hforall := List.forall₂_iff_get.mp (find_parents_forall h.found)
      obtain ⟨i, hi, rfl⟩ := List.mem_iff_getElem.mp (ExtTreeSet.mem_toList.mpr hd)
      exact ⟨_, List.getElem_mem (hforall.1 ▸ hi), hforall.2 i hi (hforall.1 ▸ hi)⟩
    rcases hknown with hgenesis | hrecord
    · obtain ⟨g, hg, heq⟩ := List.mem_map.mp hgenesis
      cases heq
      exact Or.inl ⟨_, hg, rfl⟩
    · refine Or.inr ?_
      by_contra hnot
      rw [ExtTreeMap.getElem?_eq_none hnot] at hrecord
      cases hrecord
  batches := by
    intro hother batch hbatch
    have hpayload := h.payload
    unfold missing_batches at hpayload
    rw [if_neg (by simpa using hother), List.filter_eq_nil_iff] at hpayload
    simpa using hpayload batch hbatch

/-- A vetted header has its digest as its id, or the id and the round of the genesis. -/
theorem Vetted.id (h : Vetted node header) : header.id = header.digest ∨
    header.id = Header.default.id ∧ header.round = 0 := by
  rcases h with hok | ⟨_, _, _, _, _, rfl⟩ | hgenesis
  · exact Or.inl (Header.verify_ok hok).1.symm
  · exact Or.inl rfl
  · exact Or.inr hgenesis

/-- A vote for a vetted header whose parents and batches are there. -/
structure Backed (node : Node) (store : Store) (v : Voted) : Prop where
  vote : v.vote = .new v.header node.name
  id : v.header.id = v.header.digest ∨ v.header.id = Header.default.id ∧ v.header.round = 0
  available : Available node store v.header

def AllBacked (node : Node) (s : Core) : Prop := ∀ v ∈ s.voted, Backed node s.store v

theorem AllBacked.same (h : AllBacked node s) (hvoted : s'.voted = s.voted)
    (hrecords : ∀ d ∈ s.store.records, d ∈ s'.store.records)
    (hbatches : s.store.batches ⊆ s'.store.batches) : AllBacked node s' := by
  intro v hv
  rw [hvoted] at hv
  obtain ⟨hvote, hid, havailable⟩ := h v hv
  exact ⟨hvote, hid, havailable.mono hrecords hbatches⟩

theorem Effect.allBacked {T R : ℕ → Prop} (heffect : Effect node (Vetted node) T R s s')
    (h : AllBacked node s) : AllBacked node s' := by
  have hwrite : ∀ {key : Digest} {record : Record} {d : Digest}, d ∈ s.store.records →
      d ∈ (s.store.write key record).records :=
    fun hd => ExtTreeMap.mem_insert.mpr (Or.inr hd)
  cases heffect with
  | @vote header parents hvetted haccepted _ =>
    intro v hv
    rcases List.mem_append.mp hv with hv | hv
    · obtain ⟨hvote, hid, havailable⟩ := h v hv
      exact ⟨hvote, hid, havailable.mono (fun _ => hwrite) (List.Subset.refl _)⟩
    · rw [List.mem_singleton.mp hv]
      exact ⟨rfl, hvetted.id,
        haccepted.available.mono (fun _ => hwrite) (List.Subset.refl _)⟩
  | accept | store_certificate => exact h.same rfl (fun _ => hwrite) (List.Subset.refl _)
  | send | processing | votes | handlers | timeouts | no_votes =>
    exact h.same rfl (fun _ hd => hd) (List.Subset.refl _)

theorem AllBacked.step {e : Event} (h : AllBacked node s) (hholds : Holds (Vetted node) s)
    (harrives : ∀ input, e = .input input → Arrives (·.MadeBy node.name) s input)
    (hstep : step node s e = some s') : AllBacked node s' := by
  cases e with
  | input input =>
    have hbrings := hholds.brings (vetted_enters node) (harrives input rfl)
    obtain ⟨s₁, heffects, rfl⟩ := step_effects hbrings (fun _ _ => trivial) hstep
    have hstart : AllBacked node (s.start input) := by
      cases input <;> exact h
    have h₁ := of_steps (P := AllBacked node) (fun _ _ => Effect.allBacked) heffects hstart
    unfold Core.cleanup
    dsimp only
    split <;> exact h₁
  | payload digest worker_id =>
    cases hstep
    exact h.same rfl (fun _ hd => hd) (List.subset_cons_self _ _)
  | committed round =>
    unfold Core.step at hstep
    dsimp only at hstep
    split at hstep <;> cases hstep <;> exact h

theorem allBacked_of_run {store : Store} {events : List Event}
    (hfrom : FromTasks node (·.MadeBy node.name) store events)
    (hrun : run node store events = some s) : AllBacked node s := by
  induction events using List.reverseRecOn generalizing s with
  | nil =>
    cases hrun
    exact fun _ hv => absurd hv List.not_mem_nil
  | append_singleton events e ih =>
    obtain ⟨before, hbefore, hstep⟩ := run_concat.mp hrun
    exact (ih hfrom.of_append hbefore).step
      (holds_of_run (vetted_enters node) hfrom.of_append hbefore)
      (fun input he => hfrom.last input before he hbefore) hstep

end

end Core

namespace System

section

variable [Crypto] {sys : System} {honest : Set PublicKey} {store : PublicKey → Store}
  {events : List (PublicKey × Primary.Event)} {s : PublicKey → Primary} {name : PublicKey}

theorem backed_of_run (hrun : sys.run store events = some s)
    (hfrom : sys.FromTasks honest store events) (hname : name ∈ honest) :
    Core.AllBacked (sys.node name) (s name).core := by
  obtain ⟨core_events, hcore, htasks⟩ := served_of_run hrun hfrom hname
  exact Core.allBacked_of_run htasks hcore

/-- The header that an honest primary voted for has its digest as its id, when the certificate of
the vote is accepted, and not as a genesis certificate. -/
theorem digest_of_voter {v : Voted} {c : Certificate} {node : Node} {store : Store}
    (hc : Certified sys honest s c) (hv : Core.Backed node store v)
    (hid : v.header.id = c.header.id) (hround : v.header.round = c.round) :
    v.header.digest = v.header.id := by
  rcases hv.id with hdigest | ⟨hgenesis, hzero⟩
  · exact hdigest.symm
  · exfalso
    have hstake := (Header.verify_ok (Certificate.verify_ok hc.accepted hc.not_genesis).1).2.1
    have hmem : Certificate.genesis_of c.origin ∈ Certificate.genesis sys.committee :=
      Certificate.mem_genesis.mpr ⟨c.origin, Committee.mem_of_stake_pos hstake, rfl⟩
    have heq : c.eq (.genesis_of c.origin) = true :=
      Certificate.eq_iff.mpr ⟨hid ▸ hgenesis, hround ▸ hzero, rfl⟩
    have hnot := List.any_eq_false.mp hc.not_genesis _ hmem
    exact hnot heq

/-- An honest primary that signed an accepted certificate holds what its header takes. -/
theorem available_of_signed (hrun : sys.run store events = some s)
    (hfrom : sys.FromTasks honest store events) (hunforged : Unforged honest s)
    (hfit : ∀ name ∈ honest, ∀ v ∈ (s name).core.voted, v.vote.round < 2 ^ 64)
    {c : Certificate} (hc : Certified sys honest s c)
    (hdigest : ∀ name ∈ honest, ∀ v ∈ (s name).core.voted,
      v.header.digest = c.header.digest → v.header.Agrees c.header)
    (hname : name ∈ honest) (hsigned : c.SignedBy name) :
    Available (sys.node name) (s name).core.store c.header := by
  obtain ⟨v, hv, hid, hround, -⟩ := voter_of_signed hrun hunforged hfit hc hname hsigned
  have hbacked := backed_of_run hrun hfrom hname v hv
  rw [hbacked.vote] at hid hround
  have hheader := (Header.verify_ok (Certificate.verify_ok hc.accepted hc.not_genesis).1).1
  have heq : v.header.digest = c.header.digest := by
    rw [digest_of_voter hc hbacked hid hround, hheader]
    exact hid
  exact hbacked.available.agrees (hdigest name hname v hv heq)

/-- For every run of the primaries of a committee, in any order of their steps and whatever the
others send: when the authorities that are not honest have less stake than the validity threshold,
the honest primaries that hold the parents of the header of an accepted certificate, and the markers
of its batches unless it is their own header, have at least the stake of the validity threshold. It
takes that a header with the digest of the certified one that they voted for agrees with it. -/
theorem certified_headers_are_available (hb : BatchSound) (sys : System) (hf : sys.committee.Fits)
    (honest : Set PublicKey)
    (hweight : sys.committee.weight honestᶜ < sys.committee.validity_threshold)
    (store : PublicKey → Store) (events : List (PublicKey × Primary.Event))
    (s : PublicKey → Primary) (hrun : sys.run store events = some s)
    (hfrom : sys.FromTasks honest store events) (hunforged : Unforged honest s)
    (hfit : ∀ name ∈ honest, ∀ v ∈ (s name).core.voted, v.vote.round < 2 ^ 64)
    (c : Certificate) (hc : Certified sys honest s c)
    (hdigest : ∀ name ∈ honest, ∀ v ∈ (s name).core.voted,
      v.header.digest = c.header.digest → v.header.Agrees c.header) :
    sys.committee.validity_threshold ≤ sys.committee.weight
      {name | name ∈ honest ∧ Available (sys.node name) (s name).core.store c.header} := by
  have hholds : {a | c.SignedBy a} ⊆
      {name | name ∈ honest ∧ Available (sys.node name) (s name).core.store c.header} ∪ honestᶜ := by
    intro name hsigned
    by_cases hname : name ∈ honest
    · exact Or.inl ⟨hname, available_of_signed hrun hfrom hunforged hfit hc hdigest hname hsigned⟩
    · exact Or.inr hname
  exact Committee.validity_le_weight_of_quorum hf hweight
    (Nat.le_trans (Certificate.quorum_signed hb hc.accepted hc.not_genesis)
      (Committee.weight_mono hholds))

end

section

attribute [local instance] outsider_crypto

/-- Authorities 1, 2 and 3 voted for the header of authority 4, which has a batch. -/
theorem certified_headers_are_available_outsider :
    outsider.payload.toList ≠ [] ∧ Committee.four.validity_threshold ≤ Committee.four.weight
      {name | name ∈ {a | a ∈ [1, 2, 3]} ∧
        Available (four_primaries.node name) (outsider_voted name).core.store outsider} := by
  refine ⟨by decide +kernel, certified_headers_are_available (sample_signed_batchSound _)
    four_primaries (by decide +kernel) {a | a ∈ [1, 2, 3]} Committee.weight_compl_three (fun _ => .empty)
    outsider_arrives outsider_voted (Option.some_get _).symm (fromTasks_of_foreign (by decide +kernel))
    outsider_unforged outsider_fit _ (outsider_certified (Or.inl rfl)) ?_⟩
  intro name hname v hv _
  have hall : (([1, 2, 3] : List PublicKey).all fun name =>
      (outsider_voted name).core.voted.all fun v => v.header == outsider) = true := by decide +kernel
  have heq := beq_iff_eq.mp (List.all_eq_true.mp (List.all_eq_true.mp hall name hname) v hv)
  rw [heq]
  exact ⟨rfl, rfl, rfl, rfl⟩

end

end System

end sailfish.primary
