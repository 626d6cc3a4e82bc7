-- The law of proposed headers: every header that the proposer makes passes the checks of
-- the core on its parents, and the rounds of its headers grow.
import Mathlib
import Sailfish.Proposer

open Std sailfish.crypto sailfish.config

namespace sailfish.primary

section

variable {committee : Committee}

/-! ## The outputs of the aggregators -/

/-- The outputs of an aggregator of certificates, in order. -/
def CertificatesAggregator.outputs (committee : Committee) :
    List Certificate → CertificatesAggregator → List (List Certificate)
  | [], _ => []
  | certificate :: certificates, a =>
    let (parents, a) := a.append certificate committee
    parents.toList ++ outputs committee certificates a

/-- The outputs of an aggregator of messages, in order. An error leaves it as it was. -/
def Aggregator.outputs {M C : Type} (append : Aggregator → M → DagResult (Option C × Aggregator)) :
    List M → Aggregator → List C
  | [], _ => []
  | m :: ms, a =>
    match append a m with
    | .ok (cert, a) => cert.toList ++ outputs append ms a
    | .error _ => outputs append ms a

/-- A certificate that the aggregator of the round makes of timeouts of authorities with stake. -/
def TimeoutCert.Gathered (committee : Committee) (cert : TimeoutCert) (round : ℕ) : Prop :=
  ∃ timeouts : List Timeout, (∀ t ∈ timeouts, t.round = round ∧ 0 < committee.stake t.author) ∧
    cert ∈ Aggregator.outputs (fun a t => TimeoutAggregator.append a t committee) timeouts .new

/-- A certificate that the aggregator of the round makes of no-vote messages of authorities with
stake. -/
def NoVoteCert.Gathered (committee : Committee) (cert : NoVoteCert) (round : ℕ) : Prop :=
  ∃ no_votes : List NoVoteMsg, (∀ m ∈ no_votes, m.round = round ∧ 0 < committee.stake m.author) ∧
    cert ∈ Aggregator.outputs (fun a m => NoVoteAggregator.append a m committee) no_votes .new

/-- The stakes of the authors of some certificates. -/
def stakes (committee : Committee) (certificates : List Certificate) : ℕ :=
  (certificates.map fun c => committee.stake c.origin).sum

theorem stakes_append {l l' : List Certificate} :
    stakes committee (l ++ l') = stakes committee l + stakes committee l' := by
  unfold stakes
  rw [List.map_append, List.sum_append]

/-- Distinct authors do not overflow. -/
theorem stakes_lt (h : committee.Fits) {l : List Certificate} (hl : (l.map (·.origin)).Nodup) :
    stakes committee l < 2 ^ 32 := by
  have hsum := Committee.sum_stake_le_weight (c := committee) hl (S := Set.univ) fun _ _ => trivial
  have htotal := Committee.weight_le_total (c := committee) (S := Set.univ)
  unfold Committee.Fits at h
  rw [List.map_map] at hsum
  change stakes committee l ≤ _ at hsum
  omega

/-- What an aggregator of certificates knows after it gave out some of them. -/
structure CertificatesAggregator.Knows (committee : Committee) (given : List Certificate)
    (a : CertificatesAggregator) : Prop where
  nodup : ((given ++ a.certificates).map (·.origin)).Nodup
  used : ∀ n, n ∈ a.used ↔ n ∈ (given ++ a.certificates).map (·.origin)
  weight : a.weight = stakes committee (given ++ a.certificates)

theorem CertificatesAggregator.knows_new : Knows committee [] .new where
  nodup := List.nodup_nil
  used := by simp [CertificatesAggregator.new]
  weight := rfl

/-- One certificate: what is given out was there before or is the certificate, and it is a
quorum. -/
theorem CertificatesAggregator.append_spec (h : committee.Fits) {given : List Certificate}
    {a a' : CertificatesAggregator} {c : Certificate} {parents : Option (List Certificate)}
    (ha : Knows committee given a) (happend : a.append c committee = (parents, a')) :
    Knows committee (given ++ parents.toList.flatten) a' ∧
      (∀ x ∈ parents.toList.flatten ++ a'.certificates, x ∈ a.certificates ∨ x = c) ∧
      (parents.isSome = true →
        committee.quorum_threshold ≤ stakes committee (given ++ parents.toList.flatten)) := by
  unfold append at happend
  dsimp only at happend
  split at happend
  · -- an author that was there before
    cases happend
    simpa using ⟨ha, fun x hx => Or.inl hx⟩
  rename_i hnew
  have hnew' : c.origin ∉ (given ++ a.certificates).map (·.origin) := fun hm =>
    hnew ((ha.used _).mpr hm)
  have hnodup : ((given ++ (a.certificates ++ [c])).map (·.origin)).Nodup := by
    rw [← List.append_assoc, List.map_append, List.nodup_append]
    refine ⟨ha.nodup, List.nodup_singleton _, ?_⟩
    rintro n hn m hm rfl
    have heq : n = c.origin := by simpa using hm
    exact hnew' (heq ▸ hn)
  have hused : ∀ n, n ∈ a.used.insert c.origin ↔
      n ∈ (given ++ (a.certificates ++ [c])).map (·.origin) := by
    intro n
    rw [← List.append_assoc, List.map_append, List.mem_append, ← ha.used, ExtTreeSet.mem_insert,
      Std.compare_eq_iff_eq, or_comm]
    simp [eq_comm]
  have hweight : u32 (a.weight + committee.stake c.origin) =
      stakes committee (given ++ (a.certificates ++ [c])) := by
    have heq : a.weight + committee.stake c.origin =
        stakes committee (given ++ (a.certificates ++ [c])) := by
      rw [← List.append_assoc, stakes_append, ← ha.weight]
      simp [stakes]
    rw [heq, u32_of_lt (stakes_lt h hnodup)]
  have hmem : ∀ x ∈ a.certificates ++ [c], x ∈ a.certificates ∨ x = c := by simp
  split at happend
  · -- an output
    rename_i hquorum
    cases happend
    simp only [Option.toList_some, List.flatten_cons, List.flatten_nil, List.append_nil]
    exact ⟨⟨by simpa using hnodup, by simpa using hused, by simpa using hweight⟩, hmem,
      fun _ => hweight ▸ hquorum⟩
  · -- no quorum yet
    cases happend
    simp only [Option.toList_none, List.flatten_nil, List.append_nil, List.nil_append]
    exact ⟨⟨hnodup, hused, hweight⟩, hmem, nofun⟩

/-- The outputs hold certificates of distinct authors, and a quorum once there is one output. -/
theorem CertificatesAggregator.outputs_spec (h : committee.Fits) {certificates : List Certificate}
    {given : List Certificate} {a : CertificatesAggregator} (ha : Knows committee given a)
    {l : List (List Certificate)} (hl : l <+: outputs committee certificates a) :
    ((given ++ l.flatten).map (·.origin)).Nodup ∧
      (∀ c ∈ l.flatten, c ∈ a.certificates ∨ c ∈ certificates) ∧
      (l ≠ [] → committee.quorum_threshold ≤ stakes committee (given ++ l.flatten)) := by
  have hgiven := ha.nodup
  rw [List.map_append, List.nodup_append] at hgiven
  induction certificates generalizing given a l with
  | nil =>
    obtain rfl : l = [] := List.prefix_nil.mp hl
    exact ⟨by simpa using hgiven.1, by simp, fun hne => absurd rfl hne⟩
  | cons c certificates ih =>
    rcases happend : a.append c committee with ⟨parents, a'⟩
    obtain ⟨hknows, hmem, hquorum⟩ := append_spec h ha happend
    have hnodup := hknows.nodup
    rw [List.map_append, List.nodup_append] at hnodup
    have hcons : outputs committee (c :: certificates) a =
        parents.toList ++ outputs committee certificates a' := by
      rw [outputs, happend]
    rw [hcons] at hl
    have hfirst : ∀ x ∈ parents.toList.flatten ++ a'.certificates,
        x ∈ a.certificates ∨ x ∈ c :: certificates := by
      intro x hx
      rcases hmem x hx with hx | rfl
      · exact Or.inl hx
      · exact Or.inr List.mem_cons_self
    have hrest : ∀ x, x ∈ a'.certificates ∨ x ∈ certificates →
        x ∈ a.certificates ∨ x ∈ c :: certificates := by
      rintro x (hx | hx)
      · exact hfirst x (List.mem_append_right _ hx)
      · exact Or.inr (List.mem_cons_of_mem _ hx)
    cases parents with
    | none =>
      simp only [Option.toList_none, List.flatten_nil, List.append_nil, List.nil_append]
        at hknows hnodup hl
      obtain ⟨hall, hin, hle⟩ := ih hknows hl hnodup
      exact ⟨hall, fun x hx => hrest x (hin x hx), hle⟩
    | some ps =>
      simp only [Option.toList_some, List.flatten_cons, List.flatten_nil, List.append_nil,
        List.singleton_append] at hknows hfirst hquorum hnodup hl
      rcases l with _ | ⟨p, l⟩
      · exact ⟨by simpa using hgiven.1, by simp, fun hne => absurd rfl hne⟩
      rw [List.cons_prefix_cons] at hl
      obtain ⟨rfl, hl⟩ := hl
      obtain ⟨hall, hin, -⟩ := ih hknows hl hnodup
      rw [List.append_assoc] at hall
      refine ⟨hall, fun x hx => ?_, fun _ => ?_⟩
      · rw [List.flatten_cons] at hx
        rcases List.mem_append.mp hx with hx | hx
        · exact hfirst x (List.mem_append_left _ hx)
        · exact hrest x (hin x hx)
      · rw [List.flatten_cons, ← List.append_assoc, stakes_append]
        exact Nat.le_add_right_of_le (hquorum rfl)

/-! ## The certificates of timeouts and of no-vote messages -/

/-- Voters that are distinct and have stake pass the loop of the check. -/
theorem tally_eq {votes : List (PublicKey × Signature)} {used : ExtTreeSet PublicKey} {weight : ℕ}
    (hnodup : (voters votes).Nodup)
    (hall : ∀ n ∈ voters votes, n ∉ used ∧ 0 < committee.stake n)
    (hlt : weight + ((voters votes).map committee.stake).sum < 2 ^ 32) :
    tally committee votes used weight =
      .ok (weight + ((voters votes).map committee.stake).sum) := by
  induction votes generalizing used weight with
  | nil => rfl
  | cons vote votes ih =>
    obtain ⟨name, sig⟩ := vote
    simp only [voters, List.map_cons, List.nodup_cons, List.forall_mem_cons, List.sum_cons]
      at hnodup hall hlt
    obtain ⟨⟨hnew, hstake⟩, hrest⟩ := hall
    have hu : u32 (weight + committee.stake name) = weight + committee.stake name :=
      u32_of_lt (by omega)
    unfold tally
    simp only [hnew, hstake, not_false_eq_true, decide_true, ensure, if_true, bind, Except.bind, hu]
    rw [ih hnodup.2 _ (by simp only [voters]; omega)]
    · simp [voters, Nat.add_assoc]
    · intro n hn
      refine ⟨fun hm => ?_, (hrest n hn).2⟩
      rcases ExtTreeSet.mem_insert.mp hm with heq | hm
      · rw [Std.compare_eq_iff_eq] at heq
        exact hnodup.1 (heq ▸ hn)
      · exact (hrest n hn).1 hm

/-- An aggregator that only got messages of authorities with stake. -/
structure Aggregator.Sound (committee : Committee) (a : Aggregator) : Prop where
  nodup : (voters a.signatures).Nodup
  used : ∀ n, n ∈ a.used ↔ n ∈ voters a.signatures
  staked : ∀ n ∈ voters a.signatures, 0 < committee.stake n
  weight : a.weight = ((voters a.signatures).map committee.stake).sum

namespace Aggregator

variable {a a' : Aggregator}

theorem sound_new : Sound committee .new where
  nodup := List.nodup_nil
  used := by simp [Aggregator.new, voters]
  staked := by simp [Aggregator.new, voters]
  weight := rfl

theorem sum_stakes_lt (h : committee.Fits) {l : List PublicKey} (hl : l.Nodup) :
    (l.map committee.stake).sum < 2 ^ 32 := by
  have hsum := Committee.sum_stake_le_weight (c := committee) hl (S := Set.univ) fun _ _ => trivial
  have htotal := Committee.weight_le_total (c := committee) (S := Set.univ)
  unfold Committee.Fits at h
  omega

theorem Sound.add (ha : Sound committee a) (h : committee.Fits) {author : PublicKey}
    {signature : Signature} (hstake : 0 < committee.stake author)
    (hadd : a.add committee author signature = .ok a') : Sound committee a' := by
  unfold Aggregator.add at hadd
  by_cases hnew : author ∈ a.used
  · simp [hnew, ensure, bind, Except.bind] at hadd
  simp only [hnew, not_false_eq_true, decide_true, ensure, if_true, bind, Except.bind, pure,
    Except.pure, Except.ok.injEq] at hadd
  subst hadd
  have hvoters : voters (a.signatures ++ [(author, signature)]) = voters a.signatures ++ [author] := by
    simp [voters]
  have hnodup : (voters a.signatures ++ [author]).Nodup := by
    rw [List.nodup_append]
    refine ⟨ha.nodup, List.nodup_singleton _, ?_⟩
    rintro n hn m hm rfl
    exact hnew ((ha.used _).mpr (List.mem_singleton.mp hm ▸ hn))
  refine ⟨?_, ?_, ?_, ?_⟩
  · rw [hvoters]
    exact hnodup
  · intro n
    rw [hvoters, List.mem_append, List.mem_singleton, ExtTreeSet.mem_insert, ha.used,
      Std.compare_eq_iff_eq, or_comm, eq_comm]
  · intro n hn
    rw [hvoters] at hn
    rcases List.mem_append.mp hn with hn | hn
    · exact ha.staked n hn
    · rw [List.mem_singleton.mp hn]
      exact hstake
  · have hlt := sum_stakes_lt h hnodup
    rw [hvoters]
    simp only [List.map_append, List.map_cons, List.map_nil, List.sum_append, List.sum_cons,
      List.sum_nil, Nat.add_zero] at hlt ⊢
    rw [ha.weight, u32_of_lt hlt]

/-- The signatures of an aggregator that has a quorum pass the check of a certificate. -/
theorem Sound.check_quorum (ha : Sound committee a) (h : committee.Fits)
    (hquorum : a.weight ≥ committee.quorum_threshold) :
    check_quorum committee a.signatures = .ok () := by
  unfold primary.check_quorum
  rw [tally_eq ha.nodup (fun n hn => ⟨ExtTreeSet.not_mem_empty, ha.staked n hn⟩)
    (by rw [Nat.zero_add]; exact sum_stakes_lt h ha.nodup), Nat.zero_add, ← ha.weight]
  simp [bind, Except.bind, ensure, hquorum]

/-- What holds of every output, from what one message does. -/
theorem outputs_forall {M C : Type} {append : Aggregator → M → DagResult (Option C × Aggregator)}
    {I : Aggregator → Prop} {P : C → Prop} {ms : List M}
    (happend : ∀ m ∈ ms, ∀ a cert a', I a → append a m = .ok (cert, a') →
      I a' ∧ ∀ c, cert = some c → P c) (ha : I a) :
    ∀ c ∈ outputs append ms a, P c := by
  induction ms generalizing a with
  | nil => exact fun c hc => absurd hc List.not_mem_nil
  | cons m ms ih =>
    have hrest := fun m' hm' => happend m' (List.mem_cons_of_mem m hm')
    intro c hc
    unfold outputs at hc
    split at hc
    · rename_i cert a' hok
      obtain ⟨ha', hcert⟩ := happend m List.mem_cons_self _ _ _ ha hok
      rcases List.mem_append.mp hc with hc | hc
      · exact hcert c (Option.mem_toList.mp hc)
      · exact ih hrest ha' c hc
    · exact ih hrest ha c hc

/-- What the aggregators of timeouts and of no-vote messages share: a message adds its signature,
and a quorum makes a certificate of the message and of the signatures so far. -/
def Collects {M C : Type} (committee : Committee)
    (append : Aggregator → M → DagResult (Option C × Aggregator)) (author : M → PublicKey)
    (signature : M → Signature) (cert : M → List (PublicKey × Signature) → C) : Prop :=
  ∀ a m, append a m = do
    let a ← a.add committee (author m) (signature m)
    if a.weight ≥ committee.quorum_threshold then return (some (cert m a.signatures), a)
    else return (none, a)

variable {M C : Type} {append : Aggregator → M → DagResult (Option C × Aggregator)}
  {author : M → PublicKey} {signature : M → Signature} {cert : M → List (PublicKey × Signature) → C}

theorem Collects.append_ok (hc : Collects committee append author signature cert) {m : M}
    {out : Option C} (h : append a m = .ok (out, a')) :
    a.add committee (author m) (signature m) = .ok a' ∧ ∀ c, out = some c →
      a'.weight ≥ committee.quorum_threshold ∧ c = cert m a'.signatures := by
  rw [hc] at h
  rcases hadd : a.add committee (author m) (signature m) with e | b
  · simp [hadd, bind, Except.bind] at h
  simp only [hadd, bind, Except.bind, pure, Except.pure] at h
  split at h
  · rename_i hquorum
    cases h
    refine ⟨rfl, ?_⟩
    rintro _ ⟨⟩
    exact ⟨hquorum, rfl⟩
  · cases h
    exact ⟨rfl, nofun⟩

/-- Each certificate is made of one of the messages and of signatures that pass. -/
theorem Collects.outputs_ok (hc : Collects committee append author signature cert)
    (h : committee.Fits) {ms : List M} (hstake : ∀ m ∈ ms, 0 < committee.stake (author m)) :
    ∀ c ∈ outputs append ms .new, ∃ m ∈ ms, ∃ signatures,
      primary.check_quorum committee signatures = .ok () ∧ c = cert m signatures := by
  refine outputs_forall (I := Sound committee) ?_ sound_new
  intro m hm a out a' ha happend
  obtain ⟨hadd, hsome⟩ := hc.append_ok happend
  have ha' := ha.add h (hstake m hm) hadd
  refine ⟨ha', fun c hout => ?_⟩
  obtain ⟨hquorum, heq⟩ := hsome c hout
  exact ⟨m, hm, a'.signatures, ha'.check_quorum h hquorum, heq⟩

end Aggregator

theorem TimeoutAggregator.collects (committee : Committee) :
    Aggregator.Collects committee (fun a t => TimeoutAggregator.append a t committee)
      Timeout.author Timeout.signature
      fun t timeouts => ({ round := t.round, timeouts } : TimeoutCert) :=
  fun _ _ => rfl

theorem NoVoteAggregator.collects (committee : Committee) :
    Aggregator.Collects committee (fun a m => NoVoteAggregator.append a m committee)
      NoVoteMsg.author NoVoteMsg.signature
      fun m no_votes => ({ round := m.round, no_votes } : NoVoteCert) :=
  fun _ _ => rfl

theorem TimeoutCert.Gathered.verify (h : committee.Fits) {cert : TimeoutCert} {round : ℕ}
    (hcert : cert.Gathered committee round) :
    cert.round = round ∧ cert.verify committee = .ok () := by
  obtain ⟨timeouts, hall, hm⟩ := hcert
  obtain ⟨t, ht, signatures, hquorum, rfl⟩ :=
    (TimeoutAggregator.collects committee).outputs_ok h (fun t ht => (hall t ht).2) cert hm
  exact ⟨(hall t ht).1, hquorum⟩

theorem NoVoteCert.Gathered.verify (h : committee.Fits) {cert : NoVoteCert} {round : ℕ}
    (hcert : cert.Gathered committee round) :
    cert.round = round ∧ cert.verify committee = .ok () := by
  obtain ⟨no_votes, hall, hm⟩ := hcert
  obtain ⟨m, hmem, signatures, hquorum, rfl⟩ :=
    (NoVoteAggregator.collects committee).outputs_ok h (fun m hm => (hall m hm).2) cert hm
  exact ⟨(hall m hmem).1, hquorum⟩

/-! ## The check of the parents -/

theorem check_parents_loop_eq {header : Header} {parents : List Certificate} {stake : ℕ}
    {has_leader : Bool} (hround : ∀ c ∈ parents, wrapping_succ c.round = header.round)
    (hlt : stake + stakes committee parents < 2 ^ 32) :
    Core.check_parents_loop committee header parents stake has_leader =
      .ok (stake + stakes committee parents, has_leader || parents.any fun c =>
        committee.leader (wrapping_pred header.round) == c.origin) := by
  induction parents generalizing stake has_leader with
  | nil => simp [Core.check_parents_loop, stakes]
  | cons c parents ih =>
    obtain ⟨hc, hrest⟩ := List.forall_mem_cons.mp hround
    simp only [stakes, List.map_cons, List.sum_cons] at hlt
    have hu : u32 (stake + committee.stake c.origin) = stake + committee.stake c.origin :=
      u32_of_lt (by omega)
    unfold Core.check_parents_loop
    simp only [hc, beq_self_eq_true, ensure, if_true, bind, Except.bind, hu]
    rw [ih hrest (by simp only [stakes]; omega), List.any_cons, Bool.or_assoc]
    simp only [stakes, List.map_cons, List.sum_cons, Nat.add_assoc]
    rfl

/-- Parents of the previous round and of distinct authors pass when they are a quorum, and hold
the leader or the header has the certificates to skip it. -/
theorem check_parents_eq_ok (h : committee.Fits) {header : Header} {parents : List Certificate}
    (hround : ∀ c ∈ parents, wrapping_succ c.round = header.round)
    (hnodup : (parents.map (·.origin)).Nodup)
    (hquorum : committee.quorum_threshold ≤ stakes committee parents)
    (hleader : (∃ c ∈ parents, c.origin = committee.leader (wrapping_pred header.round)) ∨
      (header.timeout_cert.verify committee = .ok () ∧ (committee.leader header.round =
        header.author → header.no_vote_cert.verify committee = .ok ()))) :
    Core.check_parents committee header parents = .ok () := by
  unfold Core.check_parents
  rw [check_parents_loop_eq hround (by rw [Nat.zero_add]; exact stakes_lt h hnodup), Nat.zero_add]
  simp only [bind, Except.bind, hquorum, decide_true, ensure, if_true, Bool.false_or]
  by_cases hany : parents.any fun c => committee.leader (wrapping_pred header.round) == c.origin
  · simp [hany, pure, Except.pure]
  · have hnone : ¬ ∃ c ∈ parents, c.origin = committee.leader (wrapping_pred header.round) := by
      rintro ⟨c, hc, heq⟩
      exact hany (List.any_eq_true.mpr ⟨c, hc, by rw [heq]; exact beq_self_eq_true _⟩)
    obtain ⟨htimeout, hno_vote⟩ := hleader.resolve_left hnone
    by_cases hown : committee.leader header.round = header.author
    · simp [hany, htimeout, hown, hno_vote hown]
    · simp [hany, htimeout, hown, pure, Except.pure]

end

namespace Proposer

/-! ## The runs of the proposer -/

/-- What the core sent for a round. -/
def received (round : ℕ) (events : List Event) : List (List Certificate) :=
  events.filterMap fun
    | .turn (.core parents r) => if r = round then some parents else none
    | _ => none

/-- What the channels carry: for each round the outputs of the aggregator of the certificates of
that round, in order, and certificates of timeouts and of no-vote messages. -/
structure Carries (committee : Committee) (certificates : ℕ → List Certificate)
    (events : List Event) : Prop where
  round : ∀ r, ∀ c ∈ certificates r, c.round = r
  parents : ∀ r, received r events <+: CertificatesAggregator.outputs committee (certificates r) .new
  timeout_cert : ∀ cert r, .turn (.timeout_cert cert r) ∈ events → cert.Gathered committee r
  no_vote_cert : ∀ cert r, .turn (.no_vote_cert cert r) ∈ events → cert.Gathered committee r

/-- The header passes the checks of the core with these parents. -/
structure Passes [Crypto] (committee : Committee) (header : Header) (parents : List Certificate) :
    Prop where
  digests : header.parents = ExtTreeSet.ofList (parents.map Certificate.digest)
  previous : ∀ c ∈ parents, c.round + 1 = header.round
  authors : (parents.map (·.origin)).Nodup
  quorum : committee.quorum_threshold ≤ stakes committee parents
  leader : (∃ c ∈ parents, c.origin = committee.leader (header.round - 1)) ∨
    (header.timeout_cert.round + 1 = header.round ∧
      header.timeout_cert.verify committee = .ok () ∧
      (committee.leader header.round = header.author →
        header.no_vote_cert.round + 1 = header.round ∧
          header.no_vote_cert.verify committee = .ok ()))
  check : Core.check_parents committee header parents = .ok ()

section

variable {name : PublicKey} {committee : Committee} {header_size : ℕ} {s : Proposer}
  {certificates : ℕ → List Certificate} {events : List Event} {e : Event}

theorem received_concat (r : ℕ) : received r (events ++ [e]) = received r events ++
    received r [e] := by
  unfold received
  rw [List.filterMap_append]

theorem Carries.of_append {rest : List Event} (h : Carries committee certificates (events ++ rest)) :
    Carries committee certificates events where
  round := h.round
  parents := fun r => by
    have hall := h.parents r
    unfold received at hall ⊢
    rw [List.filterMap_append] at hall
    exact (List.prefix_append _ _).trans hall
  timeout_cert := fun cert r hm => h.timeout_cert cert r (List.mem_append_left _ hm)
  no_vote_cert := fun cert r hm => h.no_vote_cert cert r (List.mem_append_left _ hm)

/-- Parents of one round only. -/
theorem carries_of_round (round : ℕ) (l : List Certificate) (hround : ∀ c ∈ l, c.round = round)
    (hreceived : received round events <+: CertificatesAggregator.outputs committee l .new)
    (hother : ∀ r, r ≠ round → received r events = [])
    (htimeout : ∀ cert r, .turn (.timeout_cert cert r) ∈ events → cert.Gathered committee r)
    (hno_vote : ∀ cert r, .turn (.no_vote_cert cert r) ∈ events → cert.Gathered committee r) :
    Carries committee (fun r => if r = round then l else []) events where
  round := by
    intro r c hc
    split at hc
    · rename_i hr
      rw [hr]
      exact hround c hc
    · cases hc
  parents := by
    intro r
    by_cases hr : r = round
    · rw [if_pos hr, hr]
      exact hreceived
    · rw [hother r hr]
      exact List.nil_prefix
  timeout_cert := htimeout
  no_vote_cert := hno_vote

/-- What the proposer holds after some events: the genesis and all the parents received for its
round, and certificates that pass. With parents and `advance` it has the leader. -/
structure Holds (committee : Committee) (events : List Event) (s : Proposer) : Prop where
  parents : s.last_parents = (if s.round = 0 then Certificate.genesis committee else []) ++
    (received s.round events).flatten
  later : ∀ r, s.round < r → received r events = []
  leader : s.last_parents ≠ [] → s.advance = true →
    ∃ c ∈ s.last_parents, c.origin = committee.leader s.round
  timeout_cert : 0 < s.last_timeout_cert.round → s.last_timeout_cert.verify committee = .ok ()
  no_vote_cert : 0 < s.last_no_vote_cert.round → s.last_no_vote_cert.verify committee = .ok ()

theorem genesis_leader : ∃ c ∈ Certificate.genesis committee, c.origin = committee.leader 0 := by
  refine ⟨.genesis_of (committee.leader 0), Certificate.mem_genesis.mpr ⟨_, ?_, rfl⟩, rfl⟩
  exact Committee.mem_keys.mp (Committee.leader_mem_keys 0)

theorem holds_spawn : Holds committee [] (spawn committee) where
  parents := by simp [spawn, received]
  later := fun _ _ => rfl
  leader := fun _ _ => genesis_leader
  timeout_cert := fun h => absurd h (Nat.lt_irrefl 0)
  no_vote_cert := fun h => absurd h (Nat.lt_irrefl 0)

/-- The state once its round is over and its parents are in a header. -/
theorem Holds.next (h : Holds committee events s) {s' : Proposer} (hround : s'.round = s.round + 1)
    (hparents : s'.last_parents = []) (htimeout : s'.last_timeout_cert = s.last_timeout_cert)
    (hno_vote : s'.last_no_vote_cert = s.last_no_vote_cert) : Holds committee events s' where
  parents := by
    rw [hround, hparents, h.later _ (Nat.lt_succ_self _)]
    rfl
  later := fun r hr => h.later r (by omega)
  leader := fun hne => absurd hparents hne
  timeout_cert := by
    rw [htimeout]
    exact h.timeout_cert
  no_vote_cert := by
    rw [hno_vote]
    exact h.no_vote_cert

/-- A change of what the proposer has sent, and of its timer. -/
theorem Holds.same (h : Holds committee events s) {s' : Proposer} (hround : s'.round = s.round)
    (hparents : s'.last_parents = s.last_parents) (hadvance : s'.advance = s.advance)
    (htimeout : s'.last_timeout_cert = s.last_timeout_cert)
    (hno_vote : s'.last_no_vote_cert = s.last_no_vote_cert) : Holds committee events s' where
  parents := by
    rw [hround, hparents]
    exact h.parents
  later := by
    rw [hround]
    exact h.later
  leader := by
    rw [hround, hparents, hadvance]
    exact h.leader
  timeout_cert := by
    rw [htimeout]
    exact h.timeout_cert
  no_vote_cert := by
    rw [hno_vote]
    exact h.no_vote_cert

theorem genesis_authors : ((Certificate.genesis committee).map (·.origin)).Nodup := by
  have heq : (Certificate.genesis committee).map (·.origin) = committee.keys := by
    unfold Certificate.genesis
    rw [List.map_map]
    exact List.map_id _
  rw [heq]
  exact Committee.keys_nodup

theorem genesis_quorum (h : committee.Fits) (hpos : 0 < committee.total) :
    committee.quorum_threshold ≤ stakes committee (Certificate.genesis committee) := by
  have heq : stakes committee (Certificate.genesis committee) = committee.total := by
    rw [← Committee.sum_stake_keys, List.sum_toFinset _ Committee.keys_nodup]
    unfold stakes Certificate.genesis
    rw [List.map_map]
    rfl
  rw [heq, Committee.quorum_threshold_eq h]
  omega

variable [Crypto]

/-! ## One header -/

theorem digest_of_genesis {c : Certificate} (h : (Certificate.genesis committee).any c.eq = true) :
    ∃ g ∈ Certificate.genesis committee, g.digest = c.digest := by
  obtain ⟨g, hg, heq⟩ := List.any_eq_true.mp h
  obtain ⟨hid, hround, horigin⟩ := Certificate.eq_iff.mp heq
  refine ⟨g, hg, ?_⟩
  unfold Certificate.digest
  rw [hid, hround, horigin]

/-- A header with parents of the proposer's round passes when they are a quorum and hold the leader
or the proposer has the certificates to skip it. -/
theorem passes_of (h : committee.Fits) (hs : Holds committee events s)
    (hfit : s.round + 1 < 2 ^ 64) {parents : List Certificate}
    (hdigests : ExtTreeSet.ofList (s.last_parents.map Certificate.digest) =
      ExtTreeSet.ofList (parents.map Certificate.digest))
    (hround : ∀ c ∈ parents, c.round = s.round) (hauthors : (parents.map (·.origin)).Nodup)
    (hquorum : committee.quorum_threshold ≤ stakes committee parents)
    (hleader : (∃ c ∈ parents, c.origin = committee.leader s.round) ∨ (0 < s.round ∧
      s.last_timeout_cert.round = s.round ∧
      (committee.leader (s.round + 1) ≠ name ∨ s.last_no_vote_cert.round = s.round))) :
    Passes committee (next_header name committee { s with round := s.round + 1 }) parents := by
  have hprevious : ∀ c ∈ parents,
      c.round + 1 = (next_header name committee { s with round := s.round + 1 }).round :=
    fun c hc => congrArg (· + 1) (hround c hc)
  have hcerts : (∃ c ∈ parents, c.origin = committee.leader s.round) ∨
      ((next_header name committee { s with round := s.round + 1 }).timeout_cert =
          s.last_timeout_cert ∧ s.last_timeout_cert.round = s.round ∧
        s.last_timeout_cert.verify committee = .ok () ∧
        (committee.leader (s.round + 1) = name →
          (next_header name committee { s with round := s.round + 1 }).no_vote_cert =
              s.last_no_vote_cert ∧ s.last_no_vote_cert.round = s.round ∧
            s.last_no_vote_cert.verify committee = .ok ())) := by
    refine hleader.imp_right ?_
    rintro ⟨hlater, htimeout, hno_vote⟩
    refine ⟨if_pos htimeout, htimeout, hs.timeout_cert (by omega), fun hown => ?_⟩
    have hgathered := hno_vote.resolve_left (not_not_intro hown)
    exact ⟨if_pos ⟨hown, hgathered⟩, hgathered, hs.no_vote_cert (by omega)⟩
  refine ⟨hdigests, hprevious, hauthors, hquorum, ?_, ?_⟩
  · refine hcerts.imp_right ?_
    rintro ⟨heq, hr, hverify, hno_vote⟩
    rw [heq]
    refine ⟨congrArg (· + 1) hr, hverify, fun hown => ?_⟩
    obtain ⟨heq, hr, hverify⟩ := hno_vote hown
    rw [heq]
    exact ⟨congrArg (· + 1) hr, hverify⟩
  · have hwrapped : ∀ c ∈ parents, wrapping_succ c.round =
        (next_header name committee { s with round := s.round + 1 }).round := by
      intro c hc
      rw [hround c hc]
      exact wrapping_succ_of_lt hfit
    apply check_parents_eq_ok h hwrapped hauthors hquorum
    refine hcerts.imp_right ?_
    rintro ⟨heq, -, hverify, hno_vote⟩
    rw [heq]
    refine ⟨hverify, fun hown => ?_⟩
    obtain ⟨heq, -, hverify⟩ := hno_vote hown
    rw [heq]
    exact hverify

omit [Crypto] in
/-- The certificates received for the round of the proposer: of that round, of distinct authors, and
a quorum once there are any. -/
theorem received_spec (h : committee.Fits) (hcarries : Carries committee certificates events)
    (r : ℕ) : (∀ c ∈ (received r events).flatten, c ∈ certificates r) ∧
      ((received r events).flatten.map (·.origin)).Nodup ∧ (received r events ≠ [] →
        committee.quorum_threshold ≤ stakes committee (received r events).flatten) := by
  have hspec := CertificatesAggregator.outputs_spec h CertificatesAggregator.knows_new
    (hcarries.parents r)
  rw [List.nil_append] at hspec
  obtain ⟨hauthors, hmem, hquorum⟩ := hspec
  exact ⟨fun c hc => (hmem c hc).resolve_left List.not_mem_nil, hauthors, hquorum⟩

/-- The header that the proposer makes when it is ready passes. -/
theorem passes_next (h : committee.Fits) (hpos : 0 < committee.total)
    (hcarries : Carries committee certificates events)
    (hgenesis : ∀ c ∈ certificates 0, (Certificate.genesis committee).any c.eq = true)
    (hs : Holds committee events s) (hfit : s.round + 1 < 2 ^ 64)
    (hready : ready name committee header_size s = true) :
    ∃ parents, Passes committee (next_header name committee { s with round := s.round + 1 })
      parents := by
  unfold ready at hready
  simp only [Bool.and_eq_true, Bool.or_eq_true, Bool.not_eq_true', List.isEmpty_eq_false_iff,
    beq_iff_eq, beq_eq_false_iff_ne] at hready
  rw [wrapping_succ_of_lt hfit] at hready
  obtain ⟨hwhen, hne⟩ := hready
  obtain ⟨hfed, hauthors, hquorum⟩ := received_spec h hcarries s.round
  rcases Nat.eq_zero_or_pos s.round with hzero | hlater
  · -- the parents of round 0 are the genesis, whatever the core sent for it
    refine ⟨Certificate.genesis committee, passes_of h hs hfit ?_ ?_ genesis_authors
      (genesis_quorum h hpos) ?_⟩
    · rw [hs.parents, if_pos hzero]
      apply ExtTreeSet.ext_mem
      intro d
      simp only [ExtTreeSet.mem_ofList, List.contains_iff_mem, List.map_append, List.mem_append,
        List.mem_map]
      constructor
      · rintro (hd | ⟨c, hc, rfl⟩)
        · exact hd
        · have hc' := hfed c hc
          rw [hzero] at hc'
          exact digest_of_genesis (hgenesis c hc')
      · exact Or.inl
    · intro c hc
      obtain ⟨n, -, rfl⟩ := Certificate.mem_genesis.mp hc
      exact hzero.symm
    · rw [hzero]
      exact Or.inl genesis_leader
  · have hparents : s.last_parents = (received s.round events).flatten := by
      rw [hs.parents, if_neg (Nat.ne_of_gt hlater), List.nil_append]
    refine ⟨(received s.round events).flatten, passes_of h hs hfit (by rw [hparents])
      (fun c hc => hcarries.round _ c (hfed c hc)) hauthors (hquorum ?_) ?_⟩
    · intro hnil
      rw [hparents, hnil] at hne
      exact hne rfl
    · rcases hwhen with ⟨⟨-, htimeout⟩, hno_vote⟩ | ⟨-, hadvance⟩
      · exact Or.inr ⟨hlater, htimeout, hno_vote⟩
      · rw [← hparents]
        exact Or.inl (hs.leader hne hadvance)

/-! ## One turn of the main loop -/

/-- The timer changes nothing that a header is made of. -/
theorem check_timer_eq (name : PublicKey) (s : Proposer) : ∃ sent timeout_sent,
    check_timer name s = { s with sent, timeout_sent } ∧ headers sent = headers s.sent := by
  unfold check_timer
  split
  · refine ⟨_, _, rfl, ?_⟩
    change headers (s.sent ++ [_]) = _
    rw [headers_append]
    exact List.append_nil _
  · exact ⟨s.sent, s.timeout_sent, rfl, rfl⟩

/-- A new round begins with a new header. -/
theorem advance_round_eq (name : PublicKey) (committee : Committee) (s : Proposer) : ∃ sent made,
    advance_round name committee s =
      { s with
        round := wrapping_succ s.round
        last_parents := []
        digests := []
        payload_size := 0
        timer_expired := false
        timeout_sent := false
        sent
        made } ∧
      headers sent = headers s.sent ++
        [next_header name committee { s with round := wrapping_succ s.round }] := by
  unfold advance_round
  split
  · refine ⟨_, _, rfl, ?_⟩
    dsimp only [make_header, make_no_vote_msg]
    rw [headers_append, headers_append]
    exact congrArg (· ++ _) (List.append_nil _)
  · refine ⟨_, _, rfl, ?_⟩
    dsimp only [make_header]
    rw [headers_append]
    rfl

/-- What the part before the wait does: it makes no header, or it is ready and makes the next. -/
theorem propose_cases (name : PublicKey) (committee : Committee) (header_size : ℕ) (s : Proposer) :
    (ready name committee header_size s = false ∧ ∃ sent timeout_sent,
      propose name committee header_size s = { s with sent, timeout_sent } ∧
      headers sent = headers s.sent) ∨
    ready name committee header_size s = true ∧ ∃ sent made,
      propose name committee header_size s =
        { s with
          round := wrapping_succ s.round
          last_parents := []
          digests := []
          payload_size := 0
          timer_expired := false
          timeout_sent := false
          sent
          made } ∧
        headers sent =
          headers s.sent ++ [next_header name committee { s with round := wrapping_succ s.round }] := by
  obtain ⟨sent, timeout_sent, heq, hheaders⟩ := check_timer_eq name s
  rcases hready : ready name committee header_size s with _ | _
  · rw [propose_of_not_ready hready, heq]
    exact Or.inl ⟨rfl, sent, timeout_sent, rfl, hheaders⟩
  · obtain ⟨sent', made, heq', hheaders'⟩ :=
      advance_round_eq name committee { s with sent, timeout_sent }
    rw [propose_of_ready hready, heq, heq']
    refine Or.inr ⟨rfl, sent', made, rfl, ?_⟩
    rw [hheaders', hheaders]
    rfl

theorem Holds.propose (hs : Holds committee events s)
    (hfit : ready name committee header_size s = true → s.round + 1 < 2 ^ 64) :
    Holds committee events (propose name committee header_size s) := by
  rcases propose_cases name committee header_size s with
    ⟨-, sent, timeout_sent, heq, -⟩ | ⟨hready, sent, made, heq, -⟩
  · rw [heq]
    exact hs.same rfl rfl rfl rfl rfl
  · rw [heq]
    exact hs.next (wrapping_succ_of_lt (hfit hready)) rfl rfl rfl

omit [Crypto] in
theorem received_of_core {parents : List Certificate} {r round : ℕ} :
    received r [.turn (.core parents round)] = if round = r then [parents] else [] := by
  unfold received
  split <;> simp_all

omit [Crypto] in
/-- With the parents of the channel, `advance` is set anew. -/
theorem Holds.core (hs : Holds committee events s) (parents : List Certificate) (round : ℕ) :
    Holds committee (events ++ [.turn (.core parents round)])
      (receive committee s (.core parents round)) := by
  have hof : ∀ s' : Proposer, s'.last_timeout_cert = s.last_timeout_cert →
      s'.last_no_vote_cert = s.last_no_vote_cert →
      s'.last_parents = (if s'.round = 0 then Certificate.genesis committee else []) ++
        (received s'.round (events ++ [.turn (.core parents round)])).flatten →
      (∀ r, s'.round < r → received r (events ++ [.turn (.core parents round)]) = []) →
      Holds committee (events ++ [.turn (.core parents round)]) (update_leader committee s') := by
    intro s' htimeout hno_vote hparents hlater
    refine ⟨hparents, hlater, fun _ hadvance => ?_, ?_, ?_⟩
    · change (s'.last_parents.find? _).isSome = true at hadvance
      rw [List.find?_isSome] at hadvance
      obtain ⟨c, hc, heq⟩ := hadvance
      exact ⟨c, hc, beq_iff_eq.mp heq⟩
    · change 0 < s'.last_timeout_cert.round → s'.last_timeout_cert.verify committee = .ok ()
      rw [htimeout]
      exact hs.timeout_cert
    · change 0 < s'.last_no_vote_cert.round → s'.last_no_vote_cert.verify committee = .ok ()
      rw [hno_vote]
      exact hs.no_vote_cert
  unfold receive
  dsimp only
  split
  · rename_i hgt
    have hlt : s.round < round := Nat.compare_eq_gt.mp hgt
    refine hof { s with round, last_parents := parents } rfl rfl ?_ fun r hr => ?_
    · rw [received_concat, received_of_core, if_pos rfl, hs.later round hlt]
      simp [Nat.ne_of_gt (Nat.zero_lt_of_lt hlt)]
    · have hr : round < r := hr
      rw [received_concat, received_of_core, if_neg (Nat.ne_of_lt hr), hs.later r (by omega)]
      rfl
  · rename_i hlt
    have hlt : round < s.round := Nat.compare_eq_lt.mp hlt
    refine hof s rfl rfl ?_ fun r hr => ?_
    · rw [received_concat, received_of_core, if_neg (Nat.ne_of_lt hlt), List.append_nil]
      exact hs.parents
    · rw [received_concat, received_of_core, if_neg (by omega), hs.later r hr]
      rfl
  · rename_i heq
    have heq : round = s.round := Nat.compare_eq_eq.mp heq
    refine hof { s with last_parents := s.last_parents ++ parents } rfl rfl ?_ fun r hr => ?_
    · dsimp only
      rw [received_concat, received_of_core, if_pos heq, hs.parents]
      simp
    · have hr : s.round < r := hr
      rw [received_concat, received_of_core, if_neg (by omega), hs.later r hr]
      rfl

omit [Crypto] in
/-- Any other message leaves the parents. -/
theorem Holds.other (hs : Holds committee events s) (hnone : ∀ r, received r [e] = [])
    {s' : Proposer} (hround : s'.round = s.round) (hparents : s'.last_parents = s.last_parents)
    (hadvance : s'.advance = s.advance)
    (htimeout : 0 < s'.last_timeout_cert.round → s'.last_timeout_cert.verify committee = .ok ())
    (hno_vote : 0 < s'.last_no_vote_cert.round → s'.last_no_vote_cert.verify committee = .ok ()) :
    Holds committee (events ++ [e]) s' where
  parents := by
    rw [received_concat, hnone, List.append_nil, hround, hparents]
    exact hs.parents
  later := by
    intro r hr
    rw [received_concat, hnone, List.append_nil]
    exact hs.later r (hround ▸ hr)
  leader := by
    rw [hround, hparents, hadvance]
    exact hs.leader
  timeout_cert := htimeout
  no_vote_cert := hno_vote

theorem Holds.step (h : committee.Fits) (hs : Holds committee events s)
    (hfit : ready name committee header_size s = true → s.round + 1 < 2 ^ 64)
    (hcarries : Carries committee certificates (events ++ [e])) :
    Holds committee (events ++ [e]) (step name committee header_size s e) := by
  cases e with
  | elapse => exact hs.other (fun _ => rfl) rfl rfl rfl hs.timeout_cert hs.no_vote_cert
  | turn message =>
    have hp := hs.propose hfit
    change Holds committee _ (receive committee (Proposer.propose name committee header_size s) message)
    cases message with
    | core parents round => exact hp.core parents round
    | worker | timer => exact hp.other (fun _ => rfl) rfl rfl rfl hp.timeout_cert hp.no_vote_cert
    | timeout_cert cert round =>
      have hgathered := (hcarries.timeout_cert cert round (by simp)).verify h
      unfold receive
      dsimp only
      split
      · exact hp.other (fun _ => rfl) rfl rfl rfl (fun _ => hgathered.2) hp.no_vote_cert
      · exact hp.other (fun _ => rfl) rfl rfl rfl (fun _ => hgathered.2) hp.no_vote_cert
      · exact hp.other (fun _ => rfl) rfl rfl rfl hp.timeout_cert hp.no_vote_cert
    | no_vote_cert cert round =>
      have hgathered := (hcarries.no_vote_cert cert round (by simp)).verify h
      unfold receive
      dsimp only
      split
      · exact hp.other (fun _ => rfl) rfl rfl rfl hp.timeout_cert fun _ => hgathered.2
      · exact hp.other (fun _ => rfl) rfl rfl rfl hp.timeout_cert fun _ => hgathered.2
      · exact hp.other (fun _ => rfl) rfl rfl rfl hp.timeout_cert hp.no_vote_cert

/-! ## The headers of a run -/

omit [Crypto] in
/-- A message makes nothing, and the round does not shrink. -/
theorem receive_eq (committee : Committee) (s : Proposer) (message : Message) :
    (receive committee s message).sent = s.sent ∧ (receive committee s message).made = s.made ∧
      s.round ≤ (receive committee s message).round := by
  unfold receive
  cases message with
  | core parents round =>
    dsimp only [update_leader]
    split
    · rename_i hgt
      exact ⟨rfl, rfl, Nat.le_of_lt (Nat.compare_eq_gt.mp hgt)⟩
    · exact ⟨rfl, rfl, Nat.le_refl _⟩
    · exact ⟨rfl, rfl, Nat.le_refl _⟩
  | timeout_cert | no_vote_cert =>
    dsimp only
    split <;> exact ⟨rfl, rfl, Nat.le_refl _⟩
  | worker | timer => exact ⟨rfl, rfl, Nat.le_refl _⟩

/-- What an event adds to the headers: nothing, or one for a round that is past all the others. -/
theorem step_headers (name : PublicKey) (committee : Committee) (header_size : ℕ) (s : Proposer)
    (e : Event) :
    (headers (step name committee header_size s e).sent = headers s.sent ∧
      s.round ≤ (step name committee header_size s e).round) ∨
    ready name committee header_size s = true ∧
      headers (step name committee header_size s e).sent =
        headers s.sent ++ [next_header name committee { s with round := wrapping_succ s.round }] ∧
      wrapping_succ s.round ≤ (step name committee header_size s e).round := by
  cases e with
  | elapse => exact Or.inl ⟨rfl, Nat.le_refl _⟩
  | turn message =>
    obtain ⟨hsent, -, hle⟩ := receive_eq committee (propose name committee header_size s) message
    unfold step
    dsimp only
    rw [hsent]
    rcases propose_cases name committee header_size s with
      ⟨-, sent, timeout_sent, heq, hheaders⟩ | ⟨hready, sent, made, heq, hheaders⟩
    · rw [heq] at hle ⊢
      exact Or.inl ⟨hheaders, hle⟩
    · rw [heq] at hle ⊢
      exact Or.inr ⟨hready, hheaders, hle⟩

theorem holds_run (h : committee.Fits) (hfit : RoundsFit events)
    (hcarries : Carries committee certificates events) :
    Holds committee events (run name committee header_size events) := by
  induction events using List.reverseRecOn with
  | nil => exact holds_spawn
  | append_singleton events e ih =>
    rw [run_concat]
    exact (ih hfit.of_append hcarries.of_append).step h hfit.of_append.fits_of_ready hcarries

/-- The headers so far: of growing rounds, up to the round of the proposer. -/
theorem headers_sorted (name : PublicKey) (committee : Committee) (header_size : ℕ)
    {events : List Event} (hfit : RoundsFit events) :
    (headers (run name committee header_size events).sent).Pairwise (fun a b => a.round < b.round) ∧
      ∀ header ∈ headers (run name committee header_size events).sent,
        header.round ≤ (run name committee header_size events).round := by
  induction events using List.reverseRecOn with
  | nil => exact ⟨.nil, fun _ h => absurd h List.not_mem_nil⟩
  | append_singleton events e ih =>
    obtain ⟨hsorted, hle⟩ := ih hfit.of_append
    rw [run_concat]
    rcases step_headers name committee header_size (run name committee header_size events) e with
      ⟨heq, hround⟩ | ⟨hready, heq, hround⟩
    · rw [heq]
      exact ⟨hsorted, fun header hm => Nat.le_trans (hle header hm) hround⟩
    · rw [wrapping_succ_of_lt (hfit.of_append.fits_of_ready hready)] at heq hround
      rw [heq]
      refine ⟨List.pairwise_append.mpr ⟨hsorted, List.pairwise_singleton _ _, ?_⟩, ?_⟩
      · intro a ha b hb
        rw [List.mem_singleton.mp hb]
        exact Nat.lt_succ_of_le (hle a ha)
      · intro header hm
        rcases List.mem_append.mp hm with hm | hm
        · exact Nat.le_trans (hle header hm) (Nat.le_of_succ_le hround)
        · rw [List.mem_singleton.mp hm]
          exact hround

/-- For every committee of positive stake that fits `u32` and every run of a proposer on what the
core sends it, where all parents are below the last round of a `u64` and those of round 0 are
genesis certificates: the rounds of its headers grow, and each header passes the checks of the core
with parents of the round before, of distinct authors and a quorum. It has the leader of that round
among them, or a timeout certificate for that round, and also a no-vote certificate where the
proposer is the leader of the new round. -/
theorem made_headers_pass (name : PublicKey) (committee : Committee) (header_size : ℕ)
    (certificates : ℕ → List Certificate) (events : List Event) (hpos : 0 < committee.total)
    (hfits : committee.Fits) (hcarries : Carries committee certificates events)
    (hgenesis : ∀ c ∈ certificates 0, (Certificate.genesis committee).any c.eq = true)
    (hrounds : RoundsFit events) :
    (headers (run name committee header_size events).sent).Pairwise (fun a b => a.round < b.round) ∧
      ∀ header ∈ headers (run name committee header_size events).sent, header.author = name ∧
        ∃ parents, Passes committee header parents := by
  refine ⟨(headers_sorted name committee header_size hrounds).1, ?_⟩
  induction events using List.reverseRecOn with
  | nil => exact fun _ h => absurd h List.not_mem_nil
  | append_singleton events e ih =>
    have hold := ih hcarries.of_append hrounds.of_append
    rw [run_concat]
    rcases step_headers name committee header_size (run name committee header_size events) e with
      ⟨heq, -⟩ | ⟨hready, heq, -⟩
    · rw [heq]
      exact hold
    · have hfit := hrounds.of_append.fits_of_ready hready
      rw [heq, wrapping_succ_of_lt hfit]
      intro header hm
      rcases List.mem_append.mp hm with hm | hm
      · exact hold header hm
      · rw [List.mem_singleton.mp hm]
        exact ⟨rfl, passes_next hfits hpos hcarries.of_append hgenesis
          (holds_run hfits hrounds.of_append hcarries.of_append) hfit hready⟩

end

section

attribute [local instance] crypto.sample

/-- Certificates of round 1 without one of the leader of the round, authority 2. -/
def leaderless : List Certificate :=
  [1, 3, 4].map fun author => .sample author 1 (Certificate.genesis .four)

/-- The timeouts of round 1. -/
def three_timeouts : List Timeout := [1, 3, 4].map (Timeout.new 1)

def timeout_cert_one : TimeoutCert :=
  { round := 1, timeouts := three_timeouts.map fun t => (t.author, t.signature) }

/-- The proposer makes a header with a digest, times out on the leader of round 1, and makes a
header with the timeout certificate. -/
def times_out : List Event :=
  [.turn (.worker 7 0), .turn (.core leaderless 1), .elapse,
    .turn (.timeout_cert timeout_cert_one 1), .turn .timer]

theorem made_headers_pass_timeout :
    (headers (run 4 .four 32 times_out).sent).map (·.round) = [1, 2] ∧
      ∀ header ∈ headers (run 4 .four 32 times_out).sent, header.author = 4 ∧
        ∃ parents, Passes .four header parents := by
  refine ⟨by decide +kernel, (made_headers_pass 4 .four 32 _ times_out (by decide +kernel)
    (by decide +kernel) (carries_of_round 1 leaderless ?_ ⟨[], by decide +kernel⟩
      (fun r hr => by simp [received, times_out, Ne.symm hr]) ?_ fun _ _ hm => by
        simp [times_out] at hm) (fun c hc => absurd hc List.not_mem_nil) (by decide +kernel)).2⟩
  · intro c hc
    obtain ⟨author, -, rfl⟩ := List.mem_map.mp hc
    rfl
  · intro cert r hm
    simp only [times_out, List.mem_cons, Event.turn.injEq, reduceCtorEq, Message.timeout_cert.injEq,
      List.not_mem_nil, or_false, false_or] at hm
    obtain ⟨rfl, rfl⟩ := hm
    exact ⟨three_timeouts, by decide +kernel, by decide +kernel⟩

/-- Certificates of a round, of a quorum with the leader of the last round. -/
def of_round (round : ℕ) : List Certificate := [1, 2, 4].map fun author => .sample author round []

/-- The proposer makes a header, gets parents of the last round and makes the next header. -/
def reaches_the_last_round : List Event :=
  [.turn (.worker 7 0), .turn (.core (of_round (2 ^ 64 - 1)) (2 ^ 64 - 1)), .turn (.worker 8 0),
    .turn .timer]

/-- Round 0 has certificates besides the genesis. -/
def gets_round_zero : List Event :=
  [.turn (.core (of_round 0) 0), .turn (.worker 7 0), .turn .timer]

/-- The round wraps after the last one, and in round 0 an author may have two parents. -/
theorem made_headers_wrap_and_repeat_authors :
    ((∃ certificates, Carries .four certificates reaches_the_last_round) ∧
      ¬ (headers (run 4 .four 32 reaches_the_last_round).sent).Pairwise
        fun a b => a.round < b.round) ∧
    (∃ certificates, Carries .four certificates gets_round_zero) ∧
      ∃ m ∈ (run 4 .four 32 gets_round_zero).made,
        m.header ∈ headers (run 4 .four 32 gets_round_zero).sent ∧
        m.header.parents = ExtTreeSet.ofList (m.parents.map Certificate.digest) ∧
        ¬ (m.parents.map (·.origin)).Nodup := by
  have hround : ∀ round, ∀ c ∈ of_round round, c.round = round := by
    intro round c hc
    obtain ⟨author, -, rfl⟩ := List.mem_map.mp hc
    rfl
  refine ⟨⟨⟨_, carries_of_round (2 ^ 64 - 1) _ (hround _) ⟨[], by decide +kernel⟩
      (fun r hr => by simpa [received, reaches_the_last_round] using hr.symm)
      (fun _ _ hm => by simp [reaches_the_last_round] at hm)
      fun _ _ hm => by simp [reaches_the_last_round] at hm⟩, by decide +kernel⟩,
    ⟨_, carries_of_round 0 _ (hround _) ⟨[], by decide +kernel⟩
      (fun r hr => by simp [received, gets_round_zero, Ne.symm hr])
      (fun _ _ hm => by simp [gets_round_zero] at hm)
      fun _ _ hm => by simp [gets_round_zero] at hm⟩, by decide +kernel⟩

end

end Proposer

end sailfish.primary
