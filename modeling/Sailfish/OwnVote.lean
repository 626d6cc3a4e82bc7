-- The law of the own vote: when the core stops because its own vote, or the certificate that
-- it made of the votes for its own header, is refused.
import Mathlib
import Sailfish.Arrivals
import Sailfish.HeaderForwarding
import Sailfish.VoteCertificates

open Std Relation effects splits sailfish.crypto sailfish.config

namespace sailfish.primary

/-- A vote is refused when its author has one, and counted otherwise. -/
theorem VotesAggregator.append_cases (a : VotesAggregator) (vote : Vote) (committee : Committee)
    (header : Header) :
    (vote.author ∈ a.used ∧
      a.append vote committee header = .error (.AuthorityReuse vote.author)) ∨
    (vote.author ∉ a.used ∧ ∃ out a', a.append vote committee header = .ok (out, a') ∧
      a'.used = a.used.insert vote.author) := by
  by_cases hused : vote.author ∈ a.used
  · refine Or.inl ⟨hused, ?_⟩
    simp [append, Aggregator.add, hused, ensure, bind, Except.bind]
  · refine Or.inr ⟨hused, ?_⟩
    rw [append_first committee header hused rfl]
    split <;> exact ⟨_, _, rfl, rfl⟩

namespace Core

/-! ## What the core comes to -/

/-- What the processing of a header comes to: it is refused, or the core votes for it, or neither.
-/
inductive Verdict
  | refused (e : DagError)
  | set_aside
  | voted (parents : List Certificate)
deriving DecidableEq

section

variable [Crypto] (node : Node)

/-- The checks of `process_header`, in the order that it makes them. -/
def verdict (s : Core) (header : Header) : Verdict :=
  match find_parents (genesis_digests node.committee) s.store header.parents.toList with
  | .error e => .refused e
  | .ok (missing, parents) =>
    if !missing.isEmpty || parents.isEmpty then .set_aside
    else
      match check_parents node.committee header parents with
      | .error e => .refused e
      | .ok _ =>
        if !(missing_batches node.name s.store header).isEmpty ||
          header.author ∈ at_round s.last_voted header.round then .set_aside
        else .voted parents

/-- The state in which the core sends its vote for a header. -/
def accepting (s : Core) (header : Header) (parents : List Certificate) : Core :=
  vote node { s.looking header with store := s.store.write header.id (.header header) } header
    parents

/-- The current header would be processed for its certificate, and come to nothing good: it is
refused, or it gets a vote of ours while ours is among the votes. -/
def stuck (s : Core) (used : ExtTreeSet PublicKey) : Bool :=
  s.current_header.id ∉ at_round s.processing s.current_header.round &&
    match verdict node s s.current_header with
    | .refused _ => true
    | .set_aside => false
    | .voted _ => node.name ∈ used

/-- The vote makes a certificate that the core cannot process. -/
def fatal_vote (s : Core) (vote : Vote) : Bool :=
  match s.votes_aggregator.append vote node.committee s.current_header with
  | .ok (some _, _) => stuck node s (s.votes_aggregator.used.insert vote.author)
  | _ => false

/-- The header is our own and gets a vote of ours, while ours is among the votes for the current
header or the vote makes a certificate that the core cannot process. -/
def fatal_header (s : Core) (header : Header) : Bool :=
  header.author == node.name &&
    match verdict node s header with
    | .refused _ | .set_aside => false
    | .voted parents => node.name ∈ s.votes_aggregator.used ||
        fatal_vote node (accepting node s header parents) (.new header node.name)

/-- The header of the certificate is processed, and it is fatal. -/
def fatal_certificate (s : Core) (certificate : Certificate) : Bool :=
  certificate.header.id ∉ at_round s.processing certificate.header.round &&
    fatal_header node s certificate.header

/-- An input that the core dies of. -/
def fatal (s : Core) : Input → Bool
  | .primaries (.header header) =>
    (s.sanitize_header node header).toBool && fatal_header node s header
  | .primaries (.vote vote) => (s.sanitize_vote node vote).toBool && fatal_vote node s vote
  | .primaries (.certificate certificate) =>
    (s.sanitize_certificate node certificate).toBool && fatal_certificate node s certificate
  | .header_waiter header => fatal_header node s header
  | .certificate_waiter certificate => fatal_certificate node s certificate
  | .primaries _ | .proposer _ | .timeout _ | .no_vote_msg _ => false

end

section

variable [Crypto] {node : Node} {s : Core} {process : Header → CoreM Unit} {header : Header}

/-! ## The processing of a header, by its verdict -/

theorem get_parents_of_error {e : DagError}
    (h : find_parents (genesis_digests node.committee) s.store header.parents.toList = .error e) :
    get_parents node header s = .error (.error e) s := by
  change (propagate _ >>= _) s = _
  rw [h]
  rfl

theorem get_parents_of_missing {missing : List Digest} {parents : List Certificate}
    (h : find_parents (genesis_digests node.committee) s.store header.parents.toList =
      .ok (missing, parents)) (hne : missing.isEmpty = false) :
    ∃ s', s'.voted = s.voted ∧ get_parents node header s = .ok [] s' := by
  refine ⟨{ s with sent := s.sent ++ [.header_waiter (.sync_parents missing header)] }, rfl, ?_⟩
  change (propagate _ >>= _) s = _
  rw [h]
  change (if missing.isEmpty = true then _ else _ : CoreM (List Certificate)) s = _
  rw [if_neg (Bool.eq_false_iff.mp hne)]
  rfl

omit [Crypto] in
theorem missing_payload_of_there (h : (missing_batches node.name s.store header).isEmpty = true) :
    missing_payload node header s = .ok false s := by
  change (if _ then _ else _ : CoreM Bool) s = _
  rw [if_pos h]
  rfl

omit [Crypto] in
theorem missing_payload_of_missing
    (h : (missing_batches node.name s.store header).isEmpty = false) :
    ∃ s', s'.voted = s.voted ∧ missing_payload node header s = .ok true s' := by
  refine ⟨{ s with sent := s.sent ++
    [.header_waiter (.sync_batches (missing_batches node.name s.store header) header)] }, rfl, ?_⟩
  change (if _ then _ else _ : CoreM Bool) s = _
  rw [if_neg (Bool.eq_false_iff.mp h)]
  rfl

theorem vote_for_of_voted {parents : List Certificate}
    (h : header.author ∈ at_round s.last_voted header.round) :
    vote_for node process header parents s = .ok () s := by
  change (if header.author ∉ at_round s.last_voted header.round then _ else pure () : CoreM Unit)
    s = _
  rw [if_neg (not_not_intro h)]
  rfl

theorem vote_for_of_not_voted {parents : List Certificate}
    (h : header.author ∉ at_round s.last_voted header.round) :
    vote_for node process header parents s =
      send_vote node process header (.new header node.name) (vote node s header parents) := by
  change (if header.author ∉ at_round s.last_voted header.round then _ else pure () : CoreM Unit)
    s = _
  rw [if_pos h]
  rfl

/-- The core refuses a header, or sets it aside, or sends its vote for it. -/
theorem process_header_with_cases (node : Node) (process : Header → CoreM Unit) (s : Core)
    (header : Header) :
    (∃ e s', verdict node s header = .refused e ∧ s'.voted = s.voted ∧
      process_header_with node process header s = .error (.error e) s') ∨
    (∃ s', verdict node s header = .set_aside ∧ s'.voted = s.voted ∧
      process_header_with node process header s = .ok () s') ∨
    ∃ parents, verdict node s header = .voted parents ∧
      process_header_with node process header s =
        send_vote node process header (.new header node.name) (accepting node s header parents) := by
  rw [process_header_with_eq, process_announced]
  unfold verdict
  rcases hfind : find_parents (genesis_digests node.committee) s.store header.parents.toList with
    e | ⟨missing, parents⟩
  · exact Or.inl ⟨e, s.looking header, rfl, rfl, bind_of_error (get_parents_of_error hfind)⟩
  dsimp only
  rcases hmissing : missing.isEmpty with _ | _
  · obtain ⟨s', hvotes, hs'⟩ := get_parents_of_missing (s := s.looking header) hfind hmissing
    exact Or.inr (Or.inl ⟨s', rfl, hvotes, bind_of_ok hs'⟩)
  obtain rfl := List.isEmpty_iff.mp hmissing
  rw [bind_of_ok (get_parents_of_found (s := s.looking header) hfind)]
  rcases hempty : parents.isEmpty with _ | _
  · rcases hcheck : check_parents node.committee header parents with e | u
    · exact Or.inl ⟨e, s.looking header, rfl, rfl, rfl⟩
    rcases hpayload : (missing_batches node.name s.store header).isEmpty with _ | _
    · obtain ⟨s', hvotes, hs'⟩ := missing_payload_of_missing (s := s.looking header) hpayload
      exact Or.inr (Or.inl ⟨s', rfl, hvotes, bind_of_ok hs'⟩)
    · have hthere := missing_payload_of_there (s := s.looking header) hpayload
      by_cases hvoted : header.author ∈ at_round s.last_voted header.round
      · simp only [hvoted]
        refine Or.inr (Or.inl ⟨{ s.looking header with
          store := s.store.write header.id (.header header) }, rfl, rfl, ?_⟩)
        exact (bind_of_ok rfl).trans
          ((bind_of_ok hthere).trans ((bind_of_ok rfl).trans (vote_for_of_voted hvoted)))
      · simp only [hvoted]
        exact Or.inr (Or.inr ⟨parents, rfl, (bind_of_ok rfl).trans
          ((bind_of_ok hthere).trans ((bind_of_ok rfl).trans (vote_for_of_not_voted hvoted)))⟩)
  · exact Or.inr (Or.inl ⟨s.looking header, rfl, rfl, rfl⟩)

/-! ## The computations that stop -/

/-- From `s`, the computation panics. -/
abbrev Panics {α : Type} (x : CoreM α) (s : Core) : Prop := Stops (· = .panic) x s

/-- From `s`, the computation ends with an error or a panic. -/
abbrev Halts {α : Type} (x : CoreM α) (s : Core) : Prop := Stops (fun _ => True) x s

variable {E : Halt → Prop}

omit [Crypto] in
theorem stops_expect {α : Type} {x : CoreM α} :
    Stops E (expect x) s ↔ E .panic ∧ Halts x s := by
  unfold Halts Stops expect
  rcases x s with ⟨a, s'⟩ | ⟨e, s'⟩ <;> simp

theorem deliver_certificate_ok (certificate : Certificate) (s : Core) :
    ∃ delivered s', deliver_certificate node certificate s = .ok delivered s' := by
  by_cases h : has_ancestors (genesis_digests node.committee) s.store certificate = true
  · refine ⟨true, s, ?_⟩
    change (if _ then _ else _ : CoreM Bool) s = _
    rw [if_pos h]
    rfl
  · refine ⟨false, { s with sent := s.sent ++ [.certificate_waiter certificate] }, ?_⟩
    change (if _ then _ else _ : CoreM Bool) s = _
    rw [if_neg h]
    rfl

/-- The rest of the processing of a certificate cannot fail. -/
theorem stops_process_certificate {certificate : Certificate} :
    Stops E (process_certificate node process certificate) s ↔
      certificate.header.id ∉ at_round s.processing certificate.header.round ∧
        Stops E (process certificate.header) s := by
  have htotal : ∀ (_ : Unit) s', ¬ Stops E (deliver_certificate node certificate >>= fun delivered =>
      if delivered = true then store_certificate node certificate else pure ()) s' := by
    intro u s'
    obtain ⟨delivered, s'', hok⟩ := deliver_certificate_ok certificate s'
    rw [Stops.bind_of_ok hok]
    cases delivered with
    | true => exact Stops.not_of_ok (store_certificate_eq rfl)
    | false => exact Stops.not_of_ok rfl
  unfold process_certificate
  rw [Stops.bind_of_total htotal]
  change Stops E (if certificate.header.id ∉ at_round s.processing certificate.header.round then
    process certificate.header else pure ()) s ↔ _
  split
  · rename_i hnew
    exact ⟨fun h => ⟨hnew, h⟩, And.right⟩
  · rename_i hin
    exact ⟨fun h => absurd h (Stops.not_of_ok rfl), fun h => absurd h.1 hin⟩

/-- The state in which a certificate of votes is processed. -/
def certifying (node : Node) (s : Core) (certificate : Certificate)
    (aggregator : VotesAggregator) : Core :=
  let addresses := node.committee.others_primaries node.name
  { s with
    votes_aggregator := aggregator
    sent := s.sent ++ [.network addresses (.certificate certificate)]
    cancel_handlers := s.cancel_handlers.insert certificate.round
      ((s.cancel_handlers[certificate.round]?).getD [] ++ addresses) }

/-- The core refuses the second vote of an author, or counts a vote, or makes a certificate. -/
theorem process_vote_cases (node : Node) (process : Header → CoreM Unit) (s : Core) (vote : Vote) :
    (vote.author ∈ s.votes_aggregator.used ∧
      process_vote node process vote s = .error (.error (.AuthorityReuse vote.author)) s) ∨
    (vote.author ∉ s.votes_aggregator.used ∧
      (∀ certificate aggregator, s.votes_aggregator.append vote node.committee s.current_header ≠
        .ok (some certificate, aggregator)) ∧
      ∃ s', s'.voted = s.voted ∧ process_vote node process vote s = .ok () s') ∨
    ∃ certificate aggregator, vote.author ∉ s.votes_aggregator.used ∧
      s.votes_aggregator.append vote node.committee s.current_header =
        .ok (some certificate, aggregator) ∧
      aggregator.used = s.votes_aggregator.used.insert vote.author ∧
      process_vote node process vote s =
        expect (process_certificate node process certificate)
          (certifying node s certificate aggregator) := by
  rcases VotesAggregator.append_cases s.votes_aggregator vote node.committee s.current_header with
    ⟨hused, happend⟩ | ⟨hused, out, aggregator, happend, hinsert⟩
  · refine Or.inl ⟨hused, ?_⟩
    change (propagate _ >>= _) s = _
    rw [happend]
    rfl
  · cases out with
    | none =>
      refine Or.inr (Or.inl ⟨hused, ?_, { s with votes_aggregator := aggregator }, rfl, ?_⟩)
      · rw [happend]
        exact fun _ _ => nofun
      · change (propagate _ >>= _) s = _
        rw [happend]
        rfl
    | some certificate =>
      refine Or.inr (Or.inr ⟨certificate, aggregator, hused, happend, hinsert, ?_⟩)
      change (propagate _ >>= _) s = _
      rw [happend]
      rfl

/-- A vote of ours for an own header stops the core when the processing of the vote does. -/
theorem stops_send_vote (hown : header.author = node.name) :
    Stops E (send_vote node process header (.new header node.name)) s ↔
      E .panic ∧ Halts (process_vote node process (.new header node.name)) s := by
  unfold send_vote
  rw [if_pos (by simpa [Vote.new] using hown)]
  exact stops_expect

/-- The author of the header is in the committee, or the header has no parents. -/
def Addressed (node : Node) (header : Header) : Prop :=
  header.parents.toList = [] ∨ header.author = node.name ∨
    header.author ∈ node.committee.authorities

theorem verdict_of_no_parents (h : header.parents.toList = []) :
    verdict node s header = .set_aside := by
  unfold verdict
  rw [h]
  rfl

/-- The vote for a header of another author goes out. -/
theorem not_stops_send_vote (h : Addressed node header) {parents : List Certificate}
    (hvoted : verdict node s header = .voted parents) (hother : header.author ≠ node.name)
    {s' : Core} :
    ¬ Stops E (send_vote node process header (.new header node.name)) s' := by
  have hmem : header.author ∈ node.committee.authorities := by
    rcases h with h | h | h
    · rw [verdict_of_no_parents h] at hvoted
      cases hvoted
    · exact absurd h hother
    · exact h
  unfold send_vote
  rw [if_neg (by simpa [Vote.new] using hother)]
  unfold address Committee.primary
  rw [if_pos hmem]
  exact Stops.not_of_ok rfl

/-- The processing of a header stops when the header is refused, or when it is our own, it gets a
vote, and the processing of our vote stops. -/
theorem stops_process_header_with (h : Addressed node header) :
    Stops E (process_header_with node process header) s ↔
      (∃ e, verdict node s header = .refused e ∧ E (.error e)) ∨
        E .panic ∧ header.author = node.name ∧ ∃ parents, verdict node s header = .voted parents ∧
          Halts (process_vote node process (.new header node.name))
            (accepting node s header parents) := by
  rcases process_header_with_cases node process s header with
    ⟨e, s', hverdict, -, heq⟩ | ⟨s', hverdict, -, heq⟩ | ⟨parents, hverdict, heq⟩
  · rw [hverdict, Stops.iff_of_error heq]
    simp
  · rw [hverdict]
    simp [Stops.not_of_ok heq]
  · have hsend : Stops E (process_header_with node process header) s ↔
        Stops E (send_vote node process header (.new header node.name))
          (accepting node s header parents) := by
      unfold Stops
      rw [heq]
    rw [hsend, hverdict]
    by_cases hown : header.author = node.name
    · rw [stops_send_vote hown]
      simp [hown]
    · simp [not_stops_send_vote h hverdict hown, hown]

/-- The processing of a vote stops when its author has voted before, or when it makes a certificate
and the processing of the current header stops. -/
theorem stops_process_vote {vote : Vote} :
    Stops E (process_vote node process vote) s ↔
      vote.author ∈ s.votes_aggregator.used ∧ E (.error (.AuthorityReuse vote.author)) ∨
        E .panic ∧ ∃ certificate aggregator,
          s.votes_aggregator.append vote node.committee s.current_header =
            .ok (some certificate, aggregator) ∧
          aggregator.used = s.votes_aggregator.used.insert vote.author ∧
          s.current_header.id ∉ at_round s.processing s.current_header.round ∧
          Halts (process s.current_header) (certifying node s certificate aggregator) := by
  rcases process_vote_cases node process s vote with
    ⟨hused, heq⟩ | ⟨hused, hnone, s', -, heq⟩ |
    ⟨certificate, aggregator, hused, happend, hinsert, heq⟩
  · have happend : s.votes_aggregator.append vote node.committee s.current_header =
        .error (.AuthorityReuse vote.author) := by
      rcases VotesAggregator.append_cases s.votes_aggregator vote node.committee
        s.current_header with ⟨-, h⟩ | ⟨h, -⟩
      · exact h
      · exact absurd hused h
    rw [Stops.iff_of_error heq, happend]
    simp [hused]
  · simp [Stops.not_of_ok heq, hused, hnone]
  · have hheader := VotesAggregator.append_header happend
    have hexpect : Stops E (process_vote node process vote) s ↔
        Stops E (expect (process_certificate node process certificate))
          (certifying node s certificate aggregator) := by
      unfold Stops
      rw [heq]
    rw [hexpect, stops_expect, Halts, stops_process_certificate, hheader, happend]
    constructor
    · rintro ⟨hE, hnew, hhalts⟩
      exact Or.inr ⟨hE, certificate, aggregator, rfl, hinsert, hnew, hhalts⟩
    · rintro (⟨hin, -⟩ | ⟨hE, _, _, hsame, -, hnew, hhalts⟩)
      · exact absurd hin hused
      · cases hsame
        exact ⟨hE, hnew, hhalts⟩

/-- The current header is our own, or it has no parents. -/
def OwnCurrent (node : Node) (s : Core) : Prop :=
  s.current_header.parents.toList = [] ∨ s.current_header.author = node.name

omit [Crypto] in
theorem OwnCurrent.addressed (h : OwnCurrent node s) : Addressed node s.current_header :=
  h.imp id Or.inl

/-- The processing of the current header stops when it is refused, or when it gets a vote of ours
while ours is among the votes: it makes no certificate, since it is in `processing` then. -/
theorem stops_process_current (h : OwnCurrent node s) (n : ℕ) :
    Stops E (process_header_within node (n + 1) s.current_header) s ↔
      (∃ e, verdict node s s.current_header = .refused e ∧ E (.error e)) ∨
        E .panic ∧ (∃ parents, verdict node s s.current_header = .voted parents) ∧
          node.name ∈ s.votes_aggregator.used := by
  have hvote : ∀ parents, Halts (process_vote node (process_header_within node n)
      (.new s.current_header node.name)) (accepting node s s.current_header parents) ↔
      node.name ∈ s.votes_aggregator.used := by
    intro parents
    have hin : s.current_header.id ∈
        at_round (accepting node s s.current_header parents).processing s.current_header.round :=
      mem_insert_at.mpr (Or.inl ⟨rfl, rfl⟩)
    rw [Halts, stops_process_vote]
    constructor
    · rintro (⟨hused, -⟩ | ⟨-, _, _, -, -, hnew, -⟩)
      · exact hused
      · exact absurd hin hnew
    · exact fun hused => Or.inl ⟨hused, trivial⟩
  rw [process_header_within, stops_process_header_with h.addressed]
  simp only [hvote]
  constructor
  · rintro (hrefused | ⟨hE, hown, parents, hvoted, hused⟩)
    · exact Or.inl hrefused
    · exact Or.inr ⟨hE, ⟨parents, hvoted⟩, hused⟩
  · rintro (hrefused | ⟨hE, ⟨parents, hvoted⟩, hused⟩)
    · exact Or.inl hrefused
    · refine Or.inr ⟨hE, ?_, parents, hvoted, hused⟩
      rcases h with h | h
      · rw [verdict_of_no_parents h] at hvoted
        cases hvoted
      · exact h

theorem stuck_iff (node : Node) (s : Core) (used : ExtTreeSet PublicKey) :
    stuck node s used = true ↔
      s.current_header.id ∉ at_round s.processing s.current_header.round ∧
        ((∃ e, verdict node s s.current_header = .refused e) ∨
          (∃ parents, verdict node s s.current_header = .voted parents) ∧ node.name ∈ used) := by
  unfold stuck
  rcases verdict node s s.current_header with e | _ | parents <;> simp

/-- A vote is fatal when it makes a certificate and the processing of the current header stops. -/
theorem fatal_vote_iff (h : OwnCurrent node s) (n : ℕ) (vote : Vote) :
    fatal_vote node s vote = true ↔ ∃ certificate aggregator,
      s.votes_aggregator.append vote node.committee s.current_header =
        .ok (some certificate, aggregator) ∧
      aggregator.used = s.votes_aggregator.used.insert vote.author ∧
      s.current_header.id ∉ at_round s.processing s.current_header.round ∧
      Halts (process_header_within node (n + 1) s.current_header)
        (certifying node s certificate aggregator) := by
  rcases VotesAggregator.append_cases s.votes_aggregator vote node.committee s.current_header with
    ⟨-, happend⟩ | ⟨-, out, aggregator, happend, hinsert⟩
  · unfold fatal_vote
    rw [happend]
    simp
  · cases out with
    | none =>
      unfold fatal_vote
      rw [happend]
      simp
    | some certificate =>
      have hcurrent : Halts (process_header_within node (n + 1) s.current_header)
            (certifying node s certificate aggregator) ↔
          (∃ e, verdict node s s.current_header = .refused e) ∨
            (∃ parents, verdict node s s.current_header = .voted parents) ∧
              node.name ∈ aggregator.used :=
        (stops_process_current (s := certifying node s certificate aggregator) h n).trans
          (or_congr (exists_congr fun _ => iff_of_eq (and_true _)) (iff_of_eq (true_and _)))
      have hstuck : fatal_vote node s vote =
          stuck node s (s.votes_aggregator.used.insert vote.author) := by
        unfold fatal_vote
        rw [happend]
      rw [hstuck, stuck_iff]
      constructor
      · rintro ⟨hnew, hend⟩
        rw [← hinsert] at hend
        exact ⟨certificate, aggregator, happend, hinsert, hnew, hcurrent.mpr hend⟩
      · rintro ⟨_, _, hsame, -, hnew, hhalts⟩
        rw [happend] at hsame
        cases hsame
        rw [← hinsert]
        exact ⟨hnew, hcurrent.mp hhalts⟩

theorem panics_process_vote (h : OwnCurrent node s) (n : ℕ) (vote : Vote) :
    Panics (process_vote node (process_header_within node (n + 1)) vote) s ↔
      fatal_vote node s vote = true := by
  rw [fatal_vote_iff h n, Panics, stops_process_vote]
  simp

theorem halts_process_vote (h : OwnCurrent node s) (n : ℕ) (vote : Vote) :
    Halts (process_vote node (process_header_within node (n + 1)) vote) s ↔
      vote.author ∈ s.votes_aggregator.used ∨ fatal_vote node s vote = true := by
  rw [fatal_vote_iff h n, Halts, stops_process_vote]
  simp

/-- The processing of a header panics exactly when the header is fatal. -/
theorem panics_process_header (h : OwnCurrent node s) (haddressed : Addressed node header) :
    Panics (process_header node header) s ↔ fatal_header node s header = true := by
  have hcurrent : ∀ parents, OwnCurrent node (accepting node s header parents) := fun _ => h
  rw [process_header, process_header_within, Panics, stops_process_header_with haddressed]
  simp only [halts_process_vote (hcurrent _), fatal_header]
  rcases verdict node s header with e | _ | parents
  · simp
  · simp
  · simp only [reduceCtorEq, false_and, exists_false, false_or, true_and, Verdict.voted.injEq,
      exists_eq_left', Bool.and_eq_true, beq_iff_eq, Bool.or_eq_true, decide_eq_true_eq]
    exact Iff.rfl

/-- The processing of a certificate panics exactly when the certificate is fatal. -/
theorem panics_process_certificate (h : OwnCurrent node s) {certificate : Certificate}
    (haddressed : Addressed node certificate.header) :
    Panics (process_certificate node (process_header node) certificate) s ↔
      fatal_certificate node s certificate = true := by
  rw [Panics, stops_process_certificate, ← Panics, panics_process_header h haddressed]
  simp [fatal_certificate]

/-! ## The inputs that the core dies of -/

omit [Crypto] in
theorem panics_propagate_bind {α β : Type} {r : DagResult α} {f : α → CoreM β} :
    Panics (propagate r >>= f) s ↔ ∃ a, r = .ok a ∧ Panics (f a) s := by
  cases r with
  | error e =>
    rw [Panics, Stops.iff_of_error (bind_of_error (show propagate (.error e) s = _ from rfl))]
    simp
  | ok a =>
    rw [Panics, Stops.bind_of_ok (show propagate (.ok a) s = _ from rfl)]
    simp

omit [Crypto] in
/-- What follows a check matters when the check passes. -/
theorem panics_checked {r : DagResult Unit} {x : CoreM Unit} {b : Bool}
    (h : r = .ok () → (Panics x s ↔ b = true)) :
    Panics (propagate r >>= fun _ => x) s ↔ (r.toBool && b) = true := by
  rw [panics_propagate_bind]
  cases r with
  | error e => simp [Except.toBool]
  | ok u => simp [Except.toBool, h rfl]

/-- An error of the computation is no panic. -/
abbrev Safe {α : Type} (x : CoreM α) (s : Core) : Prop := Fails (fun e _ => e ≠ .panic) x s

omit [Crypto] in
theorem Safe.not_panics {α : Type} {x : CoreM α} (h : Safe x s) : ¬ Panics x s := by
  rintro ⟨e, s', hx, he⟩
  exact h e s' hx he

omit [Crypto] in
theorem propagate_safe {α : Type} {r : DagResult α} : Safe (propagate r) s := by
  cases r with
  | ok a => exact Fails.pure
  | error e => exact Fails.throw nofun

omit [Crypto] in
theorem send_some_safe {output : Option Output} : Safe (send_some output) s := by
  cases output with
  | none => exact Fails.pure
  | some output => exact Fails.of_ok rfl

omit [Crypto] in
theorem process_timeout_safe {timeout : Timeout} : Safe (process_timeout node timeout) s := by
  refine Fails.bind_of_ok rfl (Fails.bind propagate_safe fun ⟨cert, aggregator⟩ s₁ _ => ?_)
  exact Fails.bind_of_ok rfl send_some_safe

theorem no_vote_aggregator_safe {round : ℕ} : Safe (no_vote_aggregator node round) s := by
  refine Fails.bind_of_ok rfl ?_
  split
  · exact Fails.pure
  · refine Fails.bind propagate_safe fun ⟨_, aggregator⟩ s₁ _ => ?_
    exact Fails.bind_of_ok rfl Fails.pure

theorem process_no_vote_msg_safe {no_vote_msg : NoVoteMsg} :
    Safe (process_no_vote_msg node no_vote_msg) s := by
  refine Fails.bind no_vote_aggregator_safe fun aggregator s₁ _ => ?_
  refine Fails.bind propagate_safe fun ⟨cert, aggregator⟩ s₂ _ => ?_
  exact Fails.bind_of_ok rfl send_some_safe

omit [Crypto] in
/-- The leader of a round has an address. -/
theorem process_own_no_vote_msg_safe {no_vote_msg : NoVoteMsg} :
    Safe (process_own_no_vote_msg node no_vote_msg) s := by
  have hleader : node.committee.leader (wrapping_succ no_vote_msg.round) ∈ node.committee.authorities :=
    Committee.mem_keys.mp (Committee.leader_mem_keys _)
  unfold process_own_no_vote_msg address Committee.primary
  rw [if_pos hleader]
  exact Fails.of_ok rfl

/-- A header that the proposer made starts with no votes, and is in `processing` when its first vote
comes. -/
theorem not_fatal_own_header (header : Header)
    (hvotes : s.votes_aggregator = .new) (hcurrent : s.current_header = header) :
    fatal_header node s header = false := by
  have hin : ∀ parents, s.current_header.id ∈
      at_round (accepting node s header parents).processing s.current_header.round := by
    intro parents
    rw [hcurrent]
    exact mem_insert_at.mpr (Or.inl ⟨rfl, rfl⟩)
  have hvote : ∀ parents vote, fatal_vote node (accepting node s header parents) vote = false := by
    intro parents vote
    have hstuck : ∀ used, stuck node (accepting node s header parents) used = false := by
      intro used
      rw [← Bool.not_eq_true, stuck_iff]
      exact fun h => h.1 (hin parents)
    unfold fatal_vote
    split
    · exact hstuck _
    · rfl
  have hunused : node.name ∉ s.votes_aggregator.used := by
    rw [hvotes]
    exact ExtTreeSet.not_mem_empty
  unfold fatal_header
  rcases verdict node s header with e | _ | parents
  · simp
  · simp
  · simp [hvote, hunused]

theorem panics_handle {input : Input} (h : OwnCurrent node s) (hholds : Holds (Addressed node) s)
    (henters : Enters node (fun header => header.author = node.name) (Addressed node))
    (harrives : Arrives (fun header => header.author = node.name) s input) :
    Panics (handle node input) s ↔ fatal node s input = true := by
  have hbrings := hholds.brings henters harrives
  have hsafe : ∀ {x : CoreM Unit} {s' : Core}, Safe x s' →
      (Panics x s' ↔ (false : Bool) = true) := by
    intro x s' hx
    simp [hx.not_panics]
  cases input with
  | primaries message =>
    refine (Stops.bind_of_ok rfl).trans ?_
    cases message with
    | header header =>
      exact panics_checked fun hok => panics_process_header h (hbrings hok).1
    | timeout timeout => exact hsafe (Fails.bind propagate_safe fun _ _ _ => process_timeout_safe)
    | no_vote_msg msg =>
      exact hsafe (Fails.bind propagate_safe fun _ _ _ => process_no_vote_msg_safe)
    | vote vote => exact panics_checked fun _ => panics_process_vote h 1 vote
    | certificate certificate =>
      exact panics_checked fun hok => panics_process_certificate h (hbrings hok).1
    | certificates_request digests requestor => exact absurd rfl (harrives _ _)
  | header_waiter header => exact panics_process_header h hbrings.1
  | certificate_waiter certificate => exact panics_process_certificate h hbrings.1
  | proposer header =>
    refine (Stops.bind_of_ok rfl).trans ((Stops.bind_of_ok rfl).trans ?_)
    refine (panics_process_header ?_ (henters.own header harrives)).trans ?_
    · exact Or.inr harrives
    · rw [not_fatal_own_header header rfl rfl]
      rfl
  | timeout timeout => exact hsafe (Fails.bind_of_ok rfl process_timeout_safe)
  | no_vote_msg msg => exact hsafe process_own_no_vote_msg_safe

/-! ## The runs of the core -/

/-- The event is an input that the core dies of. -/
def Event.Fatal (node : Node) (s : Core) (e : Event) : Prop :=
  ∃ input, e = .input input ∧ fatal node s input = true

theorem addressed_enters (node : Node) :
    Enters node (fun header => header.author = node.name) (Addressed node) where
  start := Or.inl rfl
  own := fun _ h => Or.inr (Or.inl h)
  header := fun header h => Or.inr (Or.inr (Committee.mem_of_stake_pos (Header.verify_ok h).2.1))
  certificate := by
    intro certificate h
    rcases hgenesis : (Certificate.genesis node.committee).any certificate.eq with _ | _
    · have hheader := (Certificate.verify_ok h hgenesis).1
      exact Or.inr (Or.inr (Committee.mem_of_stake_pos (Header.verify_ok hheader).2.1))
    · -- a certificate that passes for a genesis one has the author of that one
      obtain ⟨g, hg, heq⟩ := List.any_eq_true.mp hgenesis
      obtain ⟨name, hname, rfl⟩ := Certificate.mem_genesis.mp hg
      have hauthor : certificate.header.author = name := (Certificate.eq_iff.mp heq).2.2
      exact Or.inr (Or.inr (hauthor ▸ hname))

theorem step_isSome_iff {e : Event} (h : OwnCurrent node s) (hholds : Holds (Addressed node) s)
    (harrives : ∀ input, e = .input input →
      Arrives (fun header => header.author = node.name) s input) :
    (step node s e).isSome = true ↔ ¬ e.Fatal node s := by
  cases e with
  | input input =>
    have hpanics := panics_handle h hholds (addressed_enters node) (harrives input rfl)
    have hfatal : (Event.input input).Fatal node s ↔ Panics (handle node input) s := by
      rw [hpanics]
      exact ⟨fun ⟨_, heq, hf⟩ => Event.input.inj heq ▸ hf, fun hf => ⟨input, rfl, hf⟩⟩
    rw [hfatal]
    unfold Core.step Panics Stops
    dsimp only
    rcases hresult : handle node input s with ⟨_, s'⟩ | ⟨e | _, s'⟩ <;> simp
  | payload | committed => simp [Core.step, Event.Fatal]

/-- For every run of a core, on inputs that the tasks around it give it: the core never panics
exactly when no step of the run is an input that it dies of. Such an input leads to a vote of our
own, or to a certificate of our own header, that the core refuses. -/
theorem core_survives_iff (node : Node) (store : Store) (events : List Event)
    (hfrom : FromTasks node (fun header => header.author = node.name) store events) :
    (run node store events).isSome = true ↔
      Each (fun pre e => ∀ s, run node store pre = some s → ¬ e.Fatal node s) events := by
  induction events using List.reverseRecOn with
  | nil => exact ⟨fun _ => each_nil, fun _ => rfl⟩
  | append_singleton events e ih =>
    have hstep : ∀ s, run node store events = some s →
        ((step node s e).isSome = true ↔ ¬ e.Fatal node s) := by
      intro s hrun
      refine step_isSome_iff ?_ (holds_of_run (addressed_enters node) hfrom.of_append hrun)
        fun input he => hfrom.last input s he hrun
      rcases current_header_of_run hfrom.of_append hrun with hdefault | hown
      · exact Or.inl (by rw [hdefault]; rfl)
      · exact Or.inr hown
    simp only [Option.isSome_iff_exists, run_concat] at ih hstep ⊢
    constructor
    · rintro ⟨s', s, hrun, hs'⟩
      refine ((ih hfrom.of_append).mp ⟨s, hrun⟩).concat fun t ht => ?_
      exact (hstep t ht).mp ⟨s', (Option.some.inj (hrun.symm.trans ht)) ▸ hs'⟩
    · intro hall
      obtain ⟨s, hrun⟩ := (ih hfrom.of_append).mpr hall.of_append
      obtain ⟨s', hs'⟩ := (hstep s hrun).mpr (hall.last s hrun)
      exact ⟨s', s, hrun, hs'⟩

end

/-! ## A vote that comes late -/

section

attribute [local instance] crypto.sample

/-- The node of authority 2, which garbage collects all but the last round. -/
def laggard : Node := { name := 2, committee := .four, gc_depth := 1 }

/-- The header of the node for round 1. -/
def lagging_header : Header :=
  let parents := ExtTreeSet.ofList ((Certificate.genesis .four).map Certificate.digest)
  { Header.default with author := 2, round := 1, parents }.signed

/-- The node makes its header and votes for it. The consensus reaches round 3, the core cleans up,
and then authority 1 votes for the header. -/
def lagging : List Event :=
  let timeout : Timeout := { round := 1, author := 2, signature := .default }
  [.input (.proposer lagging_header), .committed 3, .input (.timeout timeout),
    .input (.primaries (.vote (.new lagging_header 1)))]

theorem lagging_fromTasks (names : List PublicKey) :
    FromTasks laggard (fun header => header.author = laggard.name) .empty
      (lagging ++ names.map fun name => .input (.primaries (.vote (.new lagging_header name)))) := by
  apply fromTasks_of_fresh
  · exact fun header (h : (header.author == laggard.name) = true) => beq_iff_eq.mp h
  · rw [List.all_append, List.all_map, Bool.and_eq_true]
    exact ⟨by decide +kernel, List.all_eq_true.mpr fun _ _ => rfl⟩

theorem core_survives_iff_lagging :
    (run laggard .empty lagging).isSome = true ∧
      Each (fun pre e => ∀ s, run laggard .empty pre = some s → ¬ e.Fatal laggard s) lagging := by
  have hsome : (run laggard .empty lagging).isSome = true := by decide +kernel
  have hfrom := lagging_fromTasks []
  rw [List.map_nil, List.append_nil] at hfrom
  exact ⟨hsome, (core_survives_iff laggard .empty lagging hfrom).mp hsome⟩

/-- The vote of authority 3 makes the certificate. Its header is not in `processing` any more, so it
is processed again and gets a second vote of the node. -/
theorem late_vote_kills_the_core :
    FromTasks laggard (fun header => header.author = laggard.name) .empty
      (lagging ++ [.input (.primaries (.vote (.new lagging_header 3)))]) ∧
    (run laggard .empty lagging).isSome = true ∧
    run laggard .empty (lagging ++ [.input (.primaries (.vote (.new lagging_header 3)))]) = none :=
  ⟨lagging_fromTasks [3], by decide +kernel, by decide +kernel⟩

end

end Core

end sailfish.primary
