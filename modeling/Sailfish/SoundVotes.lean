-- The law of sound votes: every header that the core votes for is in order, whether it came
-- from a peer, from the proposer, from a waiter or inside a certificate.
import Mathlib
import Sailfish.OwnVote
import Sailfish.Proposer
import Sailfish.VoteOnce

open Std Relation effects splits sailfish.crypto sailfish.config

namespace sailfish.primary

/-! ## The parents that are found -/

section

variable {genesis : List (Digest × Certificate)} {store : Store} {digests : List Digest}
  {parents : List Certificate}

theorem find_parents_cons {d : Digest} :
    find_parents genesis store (d :: digests) = .ok ([], parents) ↔
      ∃ c rest, parents = c :: rest ∧ find_parents genesis store digests = .ok ([], rest) ∧
        ((∃ d', genesis.find? (·.1 == d) = some (d', c)) ∨
          genesis.find? (·.1 == d) = none ∧ store.records[d]? = some (.certificate c)) := by
  rw [find_parents]
  rcases hrest : find_parents genesis store digests with e | ⟨missing, rest⟩ <;>
    rcases hgenesis : genesis.find? (·.1 == d) with _ | ⟨d', g⟩ <;>
      rcases hrecord : store.records[d]? with _ | (header | c) <;>
        simp [hgenesis, bind, Except.bind, pure, Except.pure, and_comm, eq_comm]

/-- Each parent that is found is the certificate under its digest. -/
theorem find_parents_forall (h : find_parents genesis store digests = .ok ([], parents)) :
    List.Forall₂ (fun d c => (d, c) ∈ genesis ∨ store.records[d]? = some (.certificate c))
      digests parents := by
  induction digests generalizing parents with
  | nil =>
    cases h
    exact .nil
  | cons d digests ih =>
    obtain ⟨c, rest, rfl, hrest, hc⟩ := find_parents_cons.mp h
    refine .cons ?_ (ih hrest)
    rcases hc with ⟨d', hfind⟩ | ⟨-, hrecord⟩
    · obtain rfl : d' = d := beq_iff_eq.mp (List.find?_some hfind :)
      exact Or.inl (List.mem_of_find?_eq_some hfind)
    · exact Or.inr hrecord

/-- A header in the store is no parent, so the parents are found without it. -/
theorem find_parents_of_write {key : Digest} {header : Header}
    (h : find_parents genesis (store.write key (.header header)) digests = .ok ([], parents)) :
    find_parents genesis store digests = .ok ([], parents) := by
  induction digests generalizing parents with
  | nil =>
    cases h
    rfl
  | cons d digests ih =>
    obtain ⟨c, rest, rfl, hrest, hc⟩ := find_parents_cons.mp h
    refine find_parents_cons.mpr ⟨c, rest, rfl, ih hrest, hc.imp_right fun ⟨hnone, hrecord⟩ => ?_⟩
    rw [Store.write, ExtTreeMap.getElem?_insert] at hrecord
    split at hrecord
    · cases hrecord
    · exact ⟨hnone, hrecord⟩

end

/-- The header is one that the proposer of the node made. -/
def Header.MadeBy [Crypto] (name : PublicKey) (header : Header) : Prop :=
  ∃ round payload parents timeout_cert no_vote_cert,
    header = .new name round payload parents timeout_cert no_vote_cert

namespace Core

section

variable [Crypto] {node : Node} {s s' : Core} {Q : Voted → Prop}

/-! ## The votes of a computation -/

/-- A vote that the core creates with the store as it is. -/
structure Cast (node : Node) (store : Store) (v : Voted) : Prop where
  vote : v.vote = .new v.header node.name
  found : find_parents (genesis_digests node.committee) store v.header.parents.toList =
    .ok ([], v.parents)
  checked : check_parents node.committee v.header v.parents = .ok ()
  payload : missing_batches node.name store v.header = []

theorem cast_of_verdict {header : Header} {parents : List Certificate}
    (h : verdict node s header = .voted parents) :
    Cast node s.store { vote := .new header node.name, header, parents } := by
  unfold verdict at h
  split at h
  · cases h
  rename_i missing found hfind
  split at h
  · cases h
  rename_i hthere
  split at h
  · cases h
  rename_i hcheck
  split at h
  · cases h
  rename_i hpayload
  cases h
  simp only [Bool.or_eq_true, Bool.not_eq_true', not_or, Bool.not_eq_false,
    List.isEmpty_iff] at hthere hpayload
  rw [hthere.1] at hfind
  exact ⟨rfl, hfind, hcheck, hpayload.1⟩

theorem Cast.of_write {key : Digest} {header : Header} {store : Store} {v : Voted}
    (h : Cast node (store.write key (.header header)) v) : Cast node store v where
  vote := h.vote
  found := find_parents_of_write h.found
  checked := h.checked
  payload := h.payload

/-- The core created only votes that meet `Q`. -/
def Casts (Q : Voted → Prop) (s s' : Core) : Prop :=
  ∃ new, s'.voted = s.voted ++ new ∧ ∀ v ∈ new, Q v

omit [Crypto] in
theorem casts_of_same (h : s'.voted = s.voted) : Casts Q s s' := ⟨[], by simp [h], by simp⟩

omit [Crypto] in
theorem Casts.trans {s₁ s₂ : Core} (h₂ : Casts Q s₁ s₂) (h₁ : Casts Q s s₁) : Casts Q s s₂ := by
  obtain ⟨new₁, heq₁, hall₁⟩ := h₁
  obtain ⟨new₂, heq₂, hall₂⟩ := h₂
  refine ⟨new₁ ++ new₂, by rw [heq₂, heq₁, List.append_assoc], ?_⟩
  exact List.forall_mem_append.mpr ⟨hall₁, hall₂⟩

/-- Without a header that is processed, no vote is created. -/
theorem casts_of_effects {α : Type} {T R : ℕ → Prop} {x : CoreM α}
    (h : Effects node (fun _ => False) T R x s) : Runs (Casts Q) x s fun _ _ => True := by
  refine h.mono fun s s' heffect => ?_
  cases heffect with
  | accept hP | vote hP | store_certificate hP => exact absurd hP id
  | send | processing | votes | handlers | timeouts | no_votes => exact casts_of_same rfl

theorem process_certificate_casts {process : Header → CoreM Unit} {certificate : Certificate}
    (h : Runs (Casts Q) (process certificate.header) s fun _ _ => True) :
    Runs (Casts Q) (process_certificate node process certificate) s fun _ _ => True := by
  refine Runs.bind (Q := fun _ _ => True) ?_ fun _ s₁ _ _ => ?_
  · refine Runs.bind (Q := fun a s' => a = s ∧ s' = s) (Runs.get ⟨rfl, rfl⟩) ?_
    rintro _ _ - ⟨rfl, rfl⟩
    split
    · exact h
    · exact Runs.pure trivial
  · refine Runs.bind (Q := fun _ _ => True) ?_ fun delivered s₂ _ _ => ?_
    · refine Runs.bind (Q := fun a s' => a = s₁ ∧ s' = s₁) (Runs.get ⟨rfl, rfl⟩) ?_
      rintro _ _ - ⟨rfl, rfl⟩
      split
      · exact Runs.pure trivial
      · exact Runs.bind (Q := fun _ _ => True) (Runs.modify (casts_of_same rfl) trivial)
          fun _ _ _ _ => Runs.pure trivial
    · split
      · exact Runs.step (store_certificate_eq rfl) (casts_of_same rfl)
          (Runs.pure (a := ()) trivial)
      · exact Runs.pure trivial

omit [Crypto] in
theorem propagate_casts {α : Type} {r : DagResult α} :
    Runs (Casts Q) (propagate r) s fun a s' => r = .ok a ∧ s' = s := by
  cases r with
  | ok a => exact Runs.pure ⟨rfl, rfl⟩
  | error e => exact Runs.throw

omit [Crypto] in
theorem send_to_casts {store : Store} {header : Header} {addresses : List PublicKey} {round : ℕ}
    {message : PrimaryMessage} (h : s.store = store ∧ s.current_header = header) :
    Runs (Casts Q) (send_to addresses round message) s
      fun _ s' => s'.store = store ∧ s'.current_header = header :=
  Runs.bind (Q := fun _ s' => s'.store = store ∧ s'.current_header = header)
    (Runs.modify (casts_of_same rfl) h) fun _ _ _ h' => Runs.modify (casts_of_same rfl) h'

/-- The vote leads to the processing of the current header, with the same records. -/
theorem process_vote_casts {process : Header → CoreM Unit} {vote : Vote}
    (h : ∀ s', s'.store = s.store → s'.current_header = s.current_header →
      Runs (Casts Q) (process s.current_header) s' fun _ _ => True) :
    Runs (Casts Q) (process_vote node process vote) s fun _ _ => True := by
  rcases process_vote_cases node process s vote with
    ⟨-, heq⟩ | ⟨-, -, s', hsame, heq⟩ | ⟨certificate, aggregator, -, happend, -, heq⟩
  · exact Runs.step (y := throw _) heq (casts_of_same rfl) Runs.throw
  · exact Runs.step (y := pure ()) heq (casts_of_same hsame) (Runs.pure trivial)
  · refine Runs.step heq (casts_of_same rfl) (expect_runs (process_certificate_casts ?_))
    rw [VotesAggregator.append_header happend]
    exact h _ rfl rfl

/-- The processing of a header creates votes for it and for the current header only, with what is in
the store when it starts. -/
theorem process_header_within_casts {n : ℕ} {header : Header}
    (hQ : ∀ v : Voted, v.header = header ∨ v.header = s.current_header → Cast node s.store v → Q v) :
    Runs (Casts Q) (process_header_within node n header) s fun _ _ => True := by
  induction n generalizing header s with
  | zero => exact Runs.throw
  | succ n ih =>
    rcases process_header_with_cases node (process_header_within node n) s header with
      ⟨e, s', -, hsame, heq⟩ | ⟨s', -, hsame, heq⟩ | ⟨parents, hverdict, heq⟩
    · exact Runs.step (y := throw _) heq (casts_of_same hsame) Runs.throw
    · exact Runs.step (y := pure ()) heq (casts_of_same hsame) (Runs.pure trivial)
    · refine Runs.step heq ⟨[_], rfl, ?_⟩ ?_
      · intro v hv
        rw [List.mem_singleton.mp hv]
        exact hQ _ (Or.inl rfl) (cast_of_verdict hverdict)
      unfold send_vote
      split
      · refine expect_runs (process_vote_casts fun s' hstore hcurrent => ih fun v hv hcast => ?_)
        rw [hstore] at hcast
        rw [hcurrent, or_self] at hv
        exact hQ v (Or.inr hv) hcast.of_write
      · exact casts_of_effects (T := fun _ => False) (R := fun _ => False)
          (address_effects.bind fun _ _ _ => send_to_effects)

/-- The votes that an input leads to are for headers that it brings, or for the current one, with
what is in the store before it. -/
theorem handle_casts {P : Header → Prop} {input : Input}
    (h : Brings node P (fun _ => True) s input) (hcurrent : P s.current_header) :
    Runs (Casts fun v => P v.header ∧ Cast node s.store v) (handle node input) s
      fun _ _ => True := by
  have hprocess : ∀ header s', s'.store = s.store → P header → P s'.current_header →
      Runs (Casts fun v => P v.header ∧ Cast node s.store v) (process_header node header) s'
        fun _ _ => True := by
    intro header s' hstore hheader hcurrent'
    refine process_header_within_casts fun v hv hcast => ⟨?_, by rw [← hstore]; exact hcast⟩
    rcases hv with hv | hv
    · rw [hv]
      exact hheader
    · rw [hv]
      exact hcurrent'
  cases input with
  | primaries message =>
    refine Runs.bind (Q := fun a s' => a = s ∧ s' = s) (Runs.get ⟨rfl, rfl⟩) ?_
    rintro _ _ - ⟨rfl, rfl⟩
    cases message with
    | header header =>
      refine Runs.bind propagate_casts ?_
      rintro _ _ - ⟨hok, rfl⟩
      exact hprocess header _ rfl (h hok).1 hcurrent
    | timeout timeout =>
      refine Runs.bind propagate_casts fun _ _ _ _ => ?_
      exact casts_of_effects (T := fun _ => True) (R := fun _ => False)
        (process_timeout_effects trivial)
    | no_vote_msg msg =>
      refine Runs.bind propagate_casts fun _ _ _ _ => ?_
      exact casts_of_effects (T := fun _ => False) (R := fun _ => True)
        (process_no_vote_msg_effects fun _ => trivial)
    | vote vote =>
      refine Runs.bind propagate_casts ?_
      rintro _ _ - ⟨-, rfl⟩
      refine process_vote_casts fun s' hstore hsame => hprocess _ s' hstore hcurrent ?_
      rw [hsame]
      exact hcurrent
    | certificate certificate =>
      refine Runs.bind propagate_casts ?_
      rintro _ _ - ⟨hok, rfl⟩
      exact process_certificate_casts (hprocess _ _ rfl (h hok).1 hcurrent)
    | certificates_request digests requestor => exact Runs.throw
  | header_waiter header => exact hprocess header s rfl h.1 hcurrent
  | certificate_waiter certificate =>
    exact process_certificate_casts (hprocess _ s rfl h.1 hcurrent)
  | proposer header =>
    refine Runs.bind (Q := fun _ s' => s'.store = s.store ∧ s'.current_header = header)
      (Runs.modify (casts_of_same rfl) ⟨rfl, rfl⟩) fun _ s₁ _ h₁ => ?_
    refine Runs.bind (Q := fun _ s' => s'.store = s.store ∧ s'.current_header = header)
      (send_to_casts h₁) fun _ s₂ _ h₂ => ?_
    rw [← h₂.2]
    exact hprocess _ s₂ h₂.1 (h₂.2 ▸ h) (h₂.2 ▸ h)
  | timeout timeout =>
    exact casts_of_effects (T := fun _ => True) (R := fun _ => False)
      (send_to_effects.bind fun _ _ _ => process_timeout_effects trivial)
  | no_vote_msg msg =>
    exact casts_of_effects (T := fun _ => False) (R := fun _ => False)
      (address_effects.bind fun _ _ _ => send_to_effects)

/-! ## The headers that get votes -/

/-- The certificate under a digest, as the core looks for parents. -/
def Known (node : Node) (store : Store) (digest : Digest) (certificate : Certificate) : Prop :=
  (digest, certificate) ∈ genesis_digests node.committee ∨
    store.records[digest]? = some (.certificate certificate)

/-- The store and the genesis hold at most one certificate for each round and author. -/
def OneEach (node : Node) (store : Store) : Prop :=
  ∀ d d' c c', Known node store d c → Known node store d' c' → c.round = c'.round →
    c.origin = c'.origin → d = d'

/-- No certificate in the store is of the last round, after which the rounds wrap. -/
def RoundsFit (store : Store) : Prop :=
  ∀ (d : Digest) (c : Certificate), store.records[d]? = some (.certificate c) → c.round + 1 < 2 ^ 64

theorem Known.fits {store : Store} {d : Digest} {c : Certificate} (h : Known node store d c)
    (hfit : RoundsFit store) : c.round + 1 < 2 ^ 64 := by
  rcases h with h | h
  · obtain ⟨g, hg, heq⟩ := List.mem_map.mp h
    obtain ⟨name, -, rfl⟩ := Certificate.mem_genesis.mp hg
    cases heq
    exact show 0 + 1 < 2 ^ 64 by decide
  · exact hfit d c h

/-- A header that is in order, with a vote for it: it has its digest as its id and the signature of
an author with stake, and its parents and its payload are there. -/
structure SoundVote (node : Node) (store : Store) (v : Voted) : Prop where
  vote : v.vote = .new v.header node.name
  id : v.header.id = v.header.digest
  signature : v.header.signature.verify v.header.id v.header.author = true
  stake : 0 < node.committee.stake v.header.author ∨ v.header.MadeBy node.name
  parents : List.Forall₂ (Known node store) v.header.parents.toList v.parents
  rounds : ∀ x ∈ v.parents, x.round + 1 = v.header.round
  authors : (v.parents.map (·.origin)).Nodup
  quorum : node.committee.quorum_threshold ≤
    node.committee.weight {a | a ∈ v.parents.map (·.origin)}
  payload : v.header.author ≠ node.name → ∀ batch ∈ v.header.payload.toList,
    batch ∈ store.batches

/-- A header that has passed its check, or that the proposer made. The others have the id and the
round of the genesis: those of the certificates that pass for a genesis certificate, and the current
header at the start. -/
def Vetted (node : Node) (header : Header) : Prop :=
  header.verify node.committee = .ok () ∨ header.MadeBy node.name ∨
    header.id = Header.default.id ∧ header.round = 0

theorem vetted_enters (node : Node) : Enters node (·.MadeBy node.name) (Vetted node) where
  start := Or.inr (Or.inr ⟨rfl, rfl⟩)
  own := fun _ h => Or.inr (Or.inl h)
  header := fun _ h => Or.inl h
  certificate := by
    intro certificate h
    rcases hgenesis : (Certificate.genesis node.committee).any certificate.eq with _ | _
    · exact Or.inl (Certificate.verify_ok h hgenesis).1
    · obtain ⟨g, hg, heq⟩ := List.any_eq_true.mp hgenesis
      obtain ⟨name, -, rfl⟩ := Certificate.mem_genesis.mp hg
      exact Or.inr (Or.inr ⟨(Certificate.eq_iff.mp heq).1, (Certificate.eq_iff.mp heq).2.1⟩)

theorem exists_digest {store : Store} {digests : List Digest} {parents : List Certificate}
    (h : List.Forall₂ (Known node store) digests parents) {c : Certificate} (hc : c ∈ parents) :
    ∃ d ∈ digests, Known node store d c := by
  induction h with
  | nil => cases hc
  | @cons d c' digests parents hknown _ ih =>
    rcases List.mem_cons.mp hc with rfl | hc
    · exact ⟨d, List.mem_cons_self, hknown⟩
    · obtain ⟨d', hd', hknown'⟩ := ih hc
      exact ⟨d', List.mem_cons_of_mem _ hd', hknown'⟩

/-- Certificates of one round under different digests have different authors. -/
theorem authors_nodup {store : Store} {digests : List Digest} {parents : List Certificate}
    {round : ℕ} (hone : OneEach node store) (hnodup : digests.Nodup)
    (hparents : List.Forall₂ (Known node store) digests parents)
    (hrounds : ∀ x ∈ parents, x.round = round) : (parents.map (·.origin)).Nodup := by
  induction hparents with
  | nil => exact List.nodup_nil
  | @cons d c digests parents hc hparents ih =>
    rw [List.nodup_cons] at hnodup
    rw [List.forall_mem_cons] at hrounds
    refine List.nodup_cons.mpr ⟨fun hm => hnodup.1 ?_, ih hnodup.2 hrounds.2⟩
    obtain ⟨c', hc', horigin⟩ := List.mem_map.mp hm
    obtain ⟨d', hd', hknown⟩ := exists_digest hparents hc'
    rw [hone d d' c c' hc hknown (hrounds.1.trans (hrounds.2 c' hc').symm) horigin.symm]
    exact hd'

theorem Cast.sound {store : Store} {v : Voted} (h : Cast node store v)
    (hvetted : Vetted node v.header) (hone : OneEach node store) (hfit : RoundsFit store)
    (hsign : ∀ digest, (Crypto.sign node.name digest).verify digest node.name = true) :
    SoundVote node store v := by
  obtain ⟨hwrapping, hquorum, -⟩ := check_parents_ok h.checked
  have hparents : List.Forall₂ (Known node store) v.header.parents.toList v.parents :=
    find_parents_forall h.found
  have hrounds : ∀ x ∈ v.parents, x.round + 1 = v.header.round := by
    intro x hx
    obtain ⟨d, -, hknown⟩ := exists_digest hparents hx
    rw [← wrapping_succ_of_lt (hknown.fits hfit)]
    exact hwrapping x hx
  have hne : v.parents ≠ [] := by
    intro hnil
    rw [hnil] at hquorum
    exact absurd hquorum (Nat.not_le_of_lt Committee.quorum_threshold_pos)
  obtain ⟨x, hx⟩ := List.exists_mem_of_ne_nil _ hne
  have hauthors : (v.parents.map (·.origin)).Nodup := by
    refine authors_nodup hone ?_ hparents fun y hy => (?_ : y.round = x.round)
    · refine ExtTreeSet.distinct_toList.imp ?_
      rintro d _ hdistinct rfl
      exact hdistinct compare_self
    · exact Nat.succ.inj ((hrounds y hy).trans (hrounds x hx).symm)
  have hown : v.header.MadeBy node.name → v.header.id = v.header.digest ∧
      v.header.signature.verify v.header.id v.header.author = true := by
    rintro ⟨round, payload, parents, timeout_cert, no_vote_cert, heq⟩
    rw [heq]
    exact ⟨rfl, hsign _⟩
  have hheader : (v.header.id = v.header.digest ∧
      v.header.signature.verify v.header.id v.header.author = true) ∧
      (0 < node.committee.stake v.header.author ∨ v.header.MadeBy node.name) := by
    rcases hvetted with hok | hmade | ⟨-, hround⟩
    · obtain ⟨hid, hstake, -, hsignature⟩ := Header.verify_ok hok
      exact ⟨⟨hid.symm, hsignature⟩, Or.inl hstake⟩
    · exact ⟨hown hmade, Or.inr hmade⟩
    · -- a header of round 0 has no parents of the round before
      exact absurd ((hrounds x hx).trans hround) (Nat.succ_ne_zero _)
  refine ⟨h.vote, hheader.1.1, hheader.1.2, hheader.2, hparents, hrounds, hauthors, ?_, ?_⟩
  · rw [Committee.weight_of_nodup hauthors, List.map_map]
    exact hquorum
  · intro hother batch hbatch
    have hpayload := h.payload
    unfold missing_batches at hpayload
    rw [if_neg (by simpa using hother), List.filter_eq_nil_iff] at hpayload
    simpa using hpayload batch hbatch

/-- For every run of a core, on inputs that the tasks around it give it: each vote that an input
leads to, also when the core then stops, is for a header that is in order with what the store holds
before the input, as long as that store and the genesis hold at most one certificate for each round
and author, and none of the last round. Signatures of the node are valid. -/
theorem votes_are_sound (node : Node) (store : Store) (events : List Event)
    (hsign : ∀ digest, (Crypto.sign node.name digest).verify digest node.name = true)
    (hfrom : FromTasks node (·.MadeBy node.name) store events) :
    Each (fun pre e => ∀ input before, e = .input input → run node store pre = some before →
      OneEach node before.store → RoundsFit before.store →
      ∃ new, (after (handle node input) before).voted = before.voted ++ new ∧
        ∀ v ∈ new, SoundVote node before.store v) events := by
  rintro pre e post heq input before rfl hrun hone hfit
  have hpre : FromTasks node (·.MadeBy node.name) store pre := by
    rw [heq] at hfrom
    exact hfrom.of_append
  have hholds := holds_of_run (vetted_enters node) hpre hrun
  have harrives := hfrom pre _ post heq input before rfl hrun
  have hcasts := (handle_casts (hholds.brings (vetted_enters node) harrives)
    hholds.current).steps_after
  obtain ⟨new, hnew, hall⟩ := of_steps (P := Casts (fun v => Vetted node v.header ∧
    Cast node before.store v) before) (fun _ _ => Casts.trans) hcasts (casts_of_same rfl)
  exact ⟨new, hnew, fun v hv => (hall v hv).2.sound (hall v hv).1 hone hfit hsign⟩

end

/-! ## Votes on fixed inputs -/

theorem oneEach_of_no_certificates [Crypto] {node : Node} {store : Store}
    (h : ∀ (d : Digest) (c : Certificate), store.records[d]? ≠ some (.certificate c)) :
    OneEach node store := by
  rintro d d' c c' (hc | hc) (hc' | hc') - horigin
  · obtain ⟨g, hg, heq⟩ := List.mem_map.mp hc
    obtain ⟨g', hg', heq'⟩ := List.mem_map.mp hc'
    obtain ⟨name, -, rfl⟩ := Certificate.mem_genesis.mp hg
    obtain ⟨name', -, rfl⟩ := Certificate.mem_genesis.mp hg'
    cases heq
    cases heq'
    have hname : name = name' := horigin
    rw [hname]
  · exact absurd hc' (h d' c')
  · exact absurd hc (h d c)
  · exact absurd hc (h d c)

section

attribute [local instance] crypto.sample

theorem sample_signs (name : PublicKey) (digest : Digest) :
    (Crypto.sign name digest).verify digest name = true := by
  change (true && true && (name == name && digest == digest)) = true
  simp

theorem proposal_gets_a_vote :
    (after (handle voter (.primaries (.header (proposal [])))) (spawn .empty)).voted.length = 1 := by
  decide +kernel

/-- A header of authority 2 comes from the network. -/
theorem votes_are_sound_proposal :
    ∃ v, (after (handle voter (.primaries (.header (proposal [])))) (spawn .empty)).voted = [v] ∧
      SoundVote voter .empty v := by
  have hfrom : FromTasks voter (·.MadeBy voter.name) .empty
      [.input (.primaries (.header (proposal [])))] :=
    fromTasks_of_fresh (fun _ h => Bool.noConfusion h)
      (by decide +kernel : ([_] : List Event).all (fresh fun _ => false) = true)
  obtain ⟨new, hnew, hall⟩ := votes_are_sound voter .empty _ (sample_signs _) hfrom [] _ [] rfl
    (.primaries (.header (proposal []))) (spawn .empty) rfl rfl
    (oneEach_of_no_certificates fun d c => by simp [spawn, Store.empty])
    (fun d c => by simp [spawn, Store.empty])
  have hnew' : _ = new := hnew
  have hlength := proposal_gets_a_vote
  rw [hnew', List.length_eq_one_iff] at hlength
  obtain ⟨v, rfl⟩ := hlength
  exact ⟨v, hnew', hall v (List.mem_singleton_self v)⟩

/-- The certificate of a header of authority 2 for round 0. -/
def round_zero : Certificate := { Header.default with author := 2 }.signed.certified [1, 2, 3]

/-- A header of authority 3 for round 1, with that certificate and two genesis certificates as
parents. -/
def on_round_zero : Header :=
  let parents := ExtTreeSet.ofList
    [(Certificate.genesis_of 1).digest, (Certificate.genesis_of 2).digest, round_zero.digest]
  { Header.default with author := 3, round := 1, parents }.signed

def round_zero_arrives : List Event :=
  [.input (.primaries (.certificate round_zero)), .input (.primaries (.header on_round_zero))]

def round_zero_state : Core := (run voter .empty round_zero_arrives).get (by decide +kernel)

/-- The node of an authority without stake. -/
def powerless : Node where
  name := 4
  committee := .sample [(1, 1), (2, 1), (3, 1), (4, 0)] (by simp)
  gc_depth := 50

def powerless_header : Header :=
  .new 4 1 ∅ (ExtTreeSet.ofList ((Certificate.genesis .four).map Certificate.digest)) (.new 0)
    (.new 0)

def powerless_state : Core :=
  (run powerless .empty [.input (.proposer powerless_header)]).get (by decide +kernel)

/-- A certificate of the last round, which lists no parents. -/
def of_last_round (author : PublicKey) : Certificate :=
  { Header.default with author, round := 2 ^ 64 - 1 }.signed.certified [1, 2, 3]

/-- A header of round 0, with three of them as its parents. -/
def on_last_round : Header :=
  let parents := ExtTreeSet.ofList ([2, 3, 4].map fun name => (of_last_round name).digest)
  { Header.default with author := 3, parents }.signed

def last_round_arrives : List Event :=
  ([2, 3, 4].map fun name => .input (.primaries (.certificate (of_last_round name)))) ++
    [.input (.primaries (.header on_last_round))]

def last_round_state : Core := (run voter .empty last_round_arrives).get (by decide +kernel)

/-- The store holds one certificate, but it and a genesis certificate count as two parents by the
same author. An authority without stake votes for its own header. The rounds wrap: parents of the
last round pass for a header of round 0. -/
theorem unsound_headers_get_votes :
    (FromTasks voter (·.MadeBy voter.name) .empty round_zero_arrives ∧
      run voter .empty round_zero_arrives = some round_zero_state ∧
      (∀ (d d' : Digest) (c c' : Certificate),
        round_zero_state.store.records[d]? = some (.certificate c) →
        round_zero_state.store.records[d']? = some (.certificate c') → c.round = c'.round →
        c.origin = c'.origin → d = d') ∧
      ∃ v ∈ round_zero_state.voted, ¬ (v.parents.map (·.origin)).Nodup ∧
        voter.committee.weight {a | a ∈ v.parents.map (·.origin)} <
          voter.committee.quorum_threshold) ∧
    FromTasks powerless (·.MadeBy powerless.name) .empty [.input (.proposer powerless_header)] ∧
      run powerless .empty [.input (.proposer powerless_header)] = some powerless_state ∧
      (∃ v ∈ powerless_state.voted, powerless.committee.stake v.header.author = 0) ∧
    FromTasks voter (·.MadeBy voter.name) .empty last_round_arrives ∧
      run voter .empty last_round_arrives = some last_round_state ∧
      ∃ v ∈ last_round_state.voted, ∃ x ∈ v.parents, x.round + 1 ≠ v.header.round := by
  refine ⟨⟨?_, Option.some_get _ |>.symm, ?_, ?_⟩, ?_, Option.some_get _ |>.symm, ?_, ?_,
    Option.some_get _ |>.symm, ?_⟩
  · exact fromTasks_of_fresh (fun _ h => Bool.noConfusion h)
      (by decide +kernel : round_zero_arrives.all (fresh fun _ => false) = true)
  · have hrecords : ∀ r ∈ round_zero_state.store.records.toList,
        r.2 = .header round_zero.header ∨ r.2 = .header on_round_zero ∨
          r = (round_zero.digest, .certificate round_zero) := by
      decide +kernel
    have hdigest : ∀ (d : Digest) (c : Certificate),
        round_zero_state.store.records[d]? = some (.certificate c) → d = round_zero.digest := by
      intro d c hc
      rcases hrecords _ (ExtTreeMap.mem_toList_iff_getElem?_eq_some.mpr hc) with h | h | h
      · cases h
      · cases h
      · exact (Prod.mk.inj h).1
    intro d d' c c' hc hc' _ _
    rw [hdigest d c hc, hdigest d' c' hc']
  · obtain ⟨v, hv, horigins⟩ :
        ∃ v ∈ round_zero_state.voted, v.parents.map (·.origin) = [1, 2, 2] := by
      decide +kernel
    have hset : {a : PublicKey | a ∈ [1, 2, 2]} = {a | a ∈ [1, 2]} := by
      ext a
      simp
    refine ⟨v, hv, ?_⟩
    rw [horigins, hset, Committee.weight_of_nodup (by decide)]
    decide +kernel
  · apply fromTasks_of_fresh
    · intro header (h : decide (header = powerless_header) = true)
      rw [of_decide_eq_true h]
      exact ⟨1, _, _, _, _, rfl⟩
    · decide +kernel
  · decide +kernel
  · exact fromTasks_of_fresh (fun _ h => Bool.noConfusion h)
      (by decide +kernel : last_round_arrives.all (fresh fun _ => false) = true)
  · decide +kernel

end

end Core

end sailfish.primary
