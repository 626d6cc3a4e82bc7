-- The effects of the core: every change that the processing of an input makes to the
-- state of the core, with what the code has checked when it makes it.
import Mathlib
import Sailfish.Core
import Sailfish.Lib.Effects

open Std Relation effects sailfish.crypto sailfish.config

namespace sailfish.primary.Core

section Sets

variable {α : Type} [Ord α] [TransOrd α] {m : ExtTreeMap ℕ (ExtTreeSet α)} {r r' : ℕ} {x y : α}

theorem mem_at_round_filter {k : ℕ} :
    y ∈ at_round (m.filter fun r _ => decide (r ≥ k)) r ↔ k ≤ r ∧ y ∈ at_round m r := by
  unfold at_round
  rw [ExtTreeMap.getElem?_filter']
  by_cases h : k ≤ r
  · rcases m[r]? with _ | set <;> simp [h, Option.filter]
  · rcases m[r]? with _ | set <;> simp [h]

variable [LawfulEqOrd α]

theorem mem_insert_at : y ∈ at_round (insert_at m r x) r' ↔
    (r' = r ∧ y = x) ∨ y ∈ at_round m r' := by
  unfold insert_at at_round
  rw [ExtTreeMap.getElem?_insert]
  by_cases h : r = r'
  · subst h
    simp [ExtTreeSet.mem_insert, eq_comm (a := x)]
  · simp [h, Ne.symm h]

end Sets

section

variable [Crypto]

/-- The header was sent to the consensus and passes all the checks of `process_header`: its parents
are found, and they and its payload are in order. -/
structure Accepted (node : Node) (s : Core) (header : Header) (parents : List Certificate) :
    Prop where
  forwarded : .consensus_header header ∈ s.sent
  found : find_parents (genesis_digests node.committee) s.store header.parents.toList =
    .ok ([], parents)
  checked : check_parents node.committee header parents = .ok ()
  payload : missing_batches node.name s.store header = []

/-- An output for the consensus is a header that meets `P`, and so is what waits at a waiter. -/
def Sendable (P : Header → Prop) : Output → Prop
  | .consensus_header header => P header
  | .consensus _ => False
  | .header_waiter message => P message.header
  | .certificate_waiter certificate => P certificate.header
  | _ => True

/-- A change that the core makes while it processes headers that meet `P` and timeouts of rounds
that meet `T`, and while it may create no-vote messages for the rounds that meet `R`. -/
inductive Effect (node : Node) (P : Header → Prop) (T R : ℕ → Prop) (s : Core) : Core → Prop
  | send {output : Output} : Sendable P output →
      Effect node P T R s { s with sent := s.sent ++ [output] }
  | processing {header : Header} : .consensus_header header ∈ s.sent →
      Effect node P T R s { s with processing := insert_at s.processing header.round header.id }
  | accept {header : Header} {parents : List Certificate} : P header →
      Accepted node s header parents → header.author ∈ at_round s.last_voted header.round →
      Effect node P T R s { s with store := s.store.write header.id (.header header) }
  | vote {header : Header} {parents : List Certificate} : P header →
      Accepted node s header parents → header.author ∉ at_round s.last_voted header.round →
      Effect node P T R s
        (vote node { s with store := s.store.write header.id (.header header) } header parents)
  | store_certificate {certificate : Certificate}
      {aggregators : ExtTreeMap ℕ CertificatesAggregator} {parents : Option (List Certificate)} :
      P certificate.header →
      has_ancestors (genesis_digests node.committee) s.store certificate = true →
      Effect node P T R s { s with
        store := s.store.write certificate.digest (.certificate certificate)
        certificates_aggregators := aggregators
        sent := s.sent ++ (parents.map (Output.proposer · certificate.round)).toList ++
          [.consensus certificate] }
  | votes {aggregator : VotesAggregator} :
      Effect node P T R s { s with votes_aggregator := aggregator }
  | handlers {handlers : ExtTreeMap ℕ (List PublicKey)} :
      Effect node P T R s { s with cancel_handlers := handlers }
  | timeouts {round : ℕ} {aggregator : TimeoutAggregator} : T round →
      Effect node P T R s { s with
        timeouts_aggregators := s.timeouts_aggregators.insert round aggregator }
  | no_votes {round : ℕ} {aggregator : NoVoteAggregator} :
      round ∈ s.no_vote_aggregators ∨ R round →
      Effect node P T R s { s with
        no_vote_aggregators := s.no_vote_aggregators.insert round aggregator }

variable {node : Node} {P : Header → Prop} {T R : ℕ → Prop} {s s' : Core}

theorem Effect.current_header (h : Effect node P T R s s') :
    s'.current_header = s.current_header := by
  cases h <;> rfl

theorem Effect.processing_mono (h : Effect node P T R s s') {r : ℕ} {d : Digest}
    (hd : d ∈ at_round s.processing r) : d ∈ at_round s'.processing r := by
  cases h with
  | processing => exact mem_insert_at.mpr (Or.inr hd)
  | send | accept | vote | store_certificate | votes | handlers | timeouts | no_votes => exact hd

theorem current_header_of_effects (h : ReflTransGen (Effect node P T R) s s') :
    s'.current_header = s.current_header :=
  of_steps (P := fun s' => s'.current_header = s.current_header)
    (fun _ _ heffect heq => heffect.current_header.trans heq) h rfl

theorem processing_of_effects (h : ReflTransGen (Effect node P T R) s s') {r : ℕ} {d : Digest}
    (hd : d ∈ at_round s.processing r) : d ∈ at_round s'.processing r :=
  of_steps (P := fun s => d ∈ at_round s.processing r) (fun _ _ heffect => heffect.processing_mono)
    h hd

/-! ## The effects of each function -/

section

variable {α : Type}

/-- The effects of a computation, whatever its result. -/
abbrev Effects (node : Node) (P : Header → Prop) (T R : ℕ → Prop) (x : CoreM α) (s : Core) :
    Prop :=
  Runs (Effect node P T R) x s fun _ _ => True

theorem Effects.bind {β : Type} {x : CoreM α} {f : α → CoreM β} (hx : Effects node P T R x s)
    (hf : ∀ a s', ReflTransGen (Effect node P T R) s s' → Effects node P T R (f a) s') :
    Effects node P T R (x >>= f) s :=
  Runs.bind hx fun a s' hsteps _ => hf a s' hsteps

theorem Effects.modify {f : Core → Core} (h : Effect node P T R s (f s)) :
    Effects node P T R (modify f) s :=
  Runs.modify h trivial

omit [Crypto] in
theorem expect_runs {Step : Core → Core → Prop} {x : CoreM α}
    (h : Runs Step x s fun _ _ => True) : Runs Step (expect x) s fun _ _ => True where
  of_ok := by
    intro a s' hxs
    unfold Core.expect at hxs
    rcases heq : x s with ⟨b, s''⟩ | ⟨e, s''⟩
    · rw [heq] at hxs
      cases hxs
      exact h.of_ok a s' heq
    · rw [heq] at hxs
      cases hxs
  of_error := by
    intro e s' hxs
    unfold Core.expect at hxs
    rcases heq : x s with ⟨b, s''⟩ | ⟨e', s''⟩
    · rw [heq] at hxs
      cases hxs
    · rw [heq] at hxs
      cases hxs
      exact h.of_error e' _ heq

theorem Effects.expect {x : CoreM α} (h : Effects node P T R x s) :
    Effects node P T R (expect x) s :=
  expect_runs h

theorem Effects.get {f : Core → CoreM α} (hf : Effects node P T R (f s) s) :
    Effects node P T R (get >>= f) s :=
  Runs.bind (Q := fun a s' => a = s ∧ s' = s) (Runs.get ⟨rfl, rfl⟩) (by
    rintro _ _ - ⟨rfl, rfl⟩
    exact hf)

theorem propagate_runs {r : DagResult α} :
    Runs (Effect node P T R) (propagate r) s fun a s' => r = .ok a ∧ s' = s := by
  cases r with
  | ok a => exact Runs.pure ⟨rfl, rfl⟩
  | error e => exact Runs.throw

end

theorem send_effects {output : Output} (h : Sendable P output) :
    Effects node P T R (send output) s :=
  Effects.modify (.send h)

theorem send_some_effects {α : Type} {f : α → Output} {x : Option α} (h : ∀ a, Sendable P (f a)) :
    Effects node P T R (send_some (x.map f)) s := by
  cases x with
  | some a => exact send_effects (h a)
  | none => exact Runs.pure trivial

theorem send_to_effects {addresses : List PublicKey} {round : ℕ} {message : PrimaryMessage} :
    Effects node P T R (send_to addresses round message) s :=
  Runs.bind (Q := fun _ _ => True) (Runs.modify (.send trivial) trivial)
    fun _ _ _ _ => Effects.modify .handlers

theorem address_effects {name : PublicKey} : Effects node P T R (address node name) s := by
  unfold address
  split
  · exact Runs.pure trivial
  · exact Runs.throw

/-- The parents that are returned, if any, are all the parents, and nothing is sent. -/
theorem get_parents_runs {header : Header} (hP : P header) :
    Runs (Effect node P T R) (get_parents node header) s fun parents s' => parents ≠ [] →
      s' = s ∧ find_parents (genesis_digests node.committee) s.store header.parents.toList =
        .ok ([], parents) := by
  refine Runs.bind (Q := fun a s' => a = s ∧ s' = s) (Runs.get ⟨rfl, rfl⟩) ?_
  rintro _ _ - ⟨rfl, rfl⟩
  refine Runs.bind propagate_runs ?_
  rintro ⟨missing, parents⟩ _ - ⟨hok, rfl⟩
  dsimp only
  split
  · rename_i hempty
    rw [List.isEmpty_iff] at hempty
    subst hempty
    exact Runs.pure fun _ => ⟨rfl, hok⟩
  · refine Runs.bind (send_effects hP) fun _ _ _ _ => ?_
    exact Runs.pure fun hne => absurd rfl hne

theorem missing_payload_runs {header : Header} (hP : P header) :
    Runs (Effect node P T R) (missing_payload node header) s fun missing s' => missing = false →
      s' = s ∧ missing_batches node.name s.store header = [] := by
  refine Runs.bind (Q := fun a s' => a = s ∧ s' = s) (Runs.get ⟨rfl, rfl⟩) ?_
  rintro _ _ - ⟨rfl, rfl⟩
  dsimp only
  split
  · rename_i hempty
    exact Runs.pure fun _ => ⟨rfl, List.isEmpty_iff.mp hempty⟩
  · refine Runs.bind (send_effects hP) fun _ _ _ _ => ?_
    exact Runs.pure nofun

theorem deliver_certificate_runs {certificate : Certificate} (hP : P certificate.header) :
    Runs (Effect node P T R) (deliver_certificate node certificate) s fun delivered s' =>
      delivered = true →
        has_ancestors (genesis_digests node.committee) s'.store certificate = true := by
  refine Runs.bind (Q := fun a s' => a = s ∧ s' = s) (Runs.get ⟨rfl, rfl⟩) ?_
  rintro _ _ - ⟨rfl, rfl⟩
  split
  · rename_i hall
    exact Runs.pure fun _ => hall
  · refine Runs.bind (send_effects hP) fun _ _ _ _ => ?_
    exact Runs.pure nofun

/-- The vote makes a certificate for the current header. -/
def Completes (node : Node) (s : Core) (vote : Vote) : Prop :=
  ∃ certificate aggregator, s.votes_aggregator.append vote node.committee s.current_header =
    .ok (some certificate, aggregator)

section

variable {process : Header → CoreM Unit}

/-- The storing of a certificate cannot fail. -/
theorem store_certificate_eq {certificate : Certificate} {parents : Option (List Certificate)}
    {aggregator : CertificatesAggregator}
    (h : ((s.certificates_aggregators[certificate.round]?).getD .new).append certificate
      node.committee = (parents, aggregator)) :
    store_certificate node certificate s = .ok () { s with
      store := s.store.write certificate.digest (.certificate certificate)
      certificates_aggregators := s.certificates_aggregators.insert certificate.round aggregator
      sent := s.sent ++ (parents.map (Output.proposer · certificate.round)).toList ++
        [.consensus certificate] } := by
  change (send_some ((((s.certificates_aggregators[certificate.round]?).getD .new).append
      certificate node.committee).1.map (Output.proposer · certificate.round)) >>=
    fun _ => send (.consensus certificate)) { s with
      store := s.store.write certificate.digest (.certificate certificate)
      certificates_aggregators := s.certificates_aggregators.insert certificate.round
        (((s.certificates_aggregators[certificate.round]?).getD .new).append
          certificate node.committee).2 } = _
  rw [h]
  cases parents with
  | none =>
    simp only [Option.map_none, Option.toList_none, List.append_nil]
    rfl
  | some parents => rfl

theorem store_certificate_effects {certificate : Certificate} (hP : P certificate.header)
    (h : has_ancestors (genesis_digests node.committee) s.store certificate = true) :
    Effects node P T R (store_certificate node certificate) s := by
  obtain ⟨parents, aggregator, hout⟩ : ∃ parents aggregator,
      ((s.certificates_aggregators[certificate.round]?).getD .new).append certificate
        node.committee = (parents, aggregator) := ⟨_, _, rfl⟩
  exact Runs.step (store_certificate_eq hout) (.store_certificate hP h)
    (Runs.pure (a := ()) trivial)

/-- What `process_certificate` does once the header of the certificate is processed. -/
theorem deliver_and_store_effects {certificate : Certificate} (hP : P certificate.header) :
    Effects node P T R (do
      if ← deliver_certificate node certificate then store_certificate node certificate) s := by
  refine (deliver_certificate_runs hP).bind fun delivered s₁ _ hdelivered => ?_
  split
  · rename_i hall
    exact store_certificate_effects hP (hdelivered hall)
  · exact Runs.pure trivial

theorem process_certificate_effects {certificate : Certificate} (hP : P certificate.header)
    (h : certificate.header.id ∉ at_round s.processing certificate.header.round →
      Effects node P T R (process certificate.header) s) :
    Effects node P T R (process_certificate node process certificate) s := by
  refine Effects.bind ?_ fun _ s₁ _ => deliver_and_store_effects hP
  refine Effects.get ?_
  split
  · rename_i hnew
    exact h hnew
  · exact Runs.pure trivial

theorem process_vote_effects {vote : Vote} (hP : Completes node s vote → P s.current_header)
    (h : Completes node s vote → ∀ s', ReflTransGen (Effect node P T R) s s' →
      s.current_header.id ∉ at_round s'.processing s.current_header.round →
      Effects node P T R (process s.current_header) s') :
    Effects node P T R (process_vote node process vote) s := by
  refine Effects.get ?_
  refine Runs.bind propagate_runs fun ⟨certificate, aggregator⟩ s₁ h₁ ⟨hok, _⟩ => ?_
  refine (Effects.modify .votes).bind fun _ s₂ h₂ => ?_
  split
  · exact Runs.pure trivial
  · have hcompletes : Completes node s vote := ⟨_, aggregator, hok⟩
    have heq := VotesAggregator.append_header hok
    refine send_to_effects.bind fun _ s₃ h₃ => Effects.expect ?_
    apply process_certificate_effects
    · rw [heq]
      exact hP hcompletes
    · rw [heq]
      exact h hcompletes s₃ ((h₁.trans h₂).trans h₃)

/-- The header is stored, and voted for when its author has no vote for the round yet. -/
theorem accept_effects {header : Header} {parents : List Certificate} (hP : P header)
    (haccepted : Accepted node s header parents)
    (h : header.author ∉ at_round s.last_voted header.round → header.author = node.name →
      Completes node s (.new header node.name) → P s.current_header ∧
      ∀ s', ReflTransGen (Effect node P T R) s s' →
        s.current_header.id ∉ at_round s'.processing s.current_header.round →
        Effects node P T R (process s.current_header) s') :
    Effects node P T R (do
      modify fun s => { s with store := s.store.write header.id (.header header) }
      vote_for node process header parents) s := by
  by_cases hnew : header.author ∈ at_round s.last_voted header.round
  · refine Runs.step (y := pure ()) ?_ (.accept hP haccepted hnew) (Runs.pure trivial)
    change (if header.author ∉ at_round s.last_voted header.round then _ else pure () : CoreM Unit)
      { s with store := s.store.write header.id (.header header) } = _
    rw [if_neg (not_not_intro hnew)]
  · have hvote := Effect.vote (T := T) (R := R) hP haccepted hnew
    refine Runs.step ?_ hvote (y := send_vote node process header (.new header node.name)) ?_
    · change (if header.author ∉ at_round s.last_voted header.round then _ else pure () :
        CoreM Unit) { s with store := s.store.write header.id (.header header) } = _
      rw [if_pos hnew]
      rfl
    unfold send_vote
    split
    · rename_i hown
      have hown' : header.author = node.name := by simpa [Vote.new] using hown
      refine Effects.expect (process_vote_effects ?_ ?_)
      · rw [hvote.current_header]
        exact fun hcompletes => (h hnew hown' hcompletes).1
      · rw [hvote.current_header]
        exact fun hcompletes s' h' => (h hnew hown' hcompletes).2 s' (.head hvote h')
    · exact address_effects.bind fun _ _ _ => send_to_effects

/-- The state in which the core looks for the parents of a header. -/
def looking (s : Core) (header : Header) : Core :=
  { s with
    sent := s.sent ++ [.consensus_header header]
    processing := insert_at s.processing header.round header.id }

/-- What `process_header` does once the header is sent to the consensus. -/
def process_announced (node : Node) (process : Header → CoreM Unit) (header : Header) :
    CoreM Unit := do
  let parents ← get_parents node header
  if parents.isEmpty then return ()
  else
    propagate (check_parents node.committee header parents)
    if ← missing_payload node header then return ()
    else
      modify fun s => { s with store := s.store.write header.id (.header header) }
      vote_for node process header parents

theorem process_header_with_eq (header : Header) :
    process_header_with node process header s =
      process_announced node process header (s.looking header) := rfl

theorem looking_effects {header : Header} (hP : P header) :
    ReflTransGen (Effect node P T R) s (s.looking header) := by
  have hsend : Effect node P T R s { s with sent := s.sent ++ [.consensus_header header] } :=
    .send hP
  exact (ReflTransGen.single hsend).tail (.processing (List.mem_append_right _ List.mem_cons_self))

/-- The header is refused, or set aside, or accepted. -/
theorem process_announced_effects {header : Header} (hP : P header)
    (hsent : .consensus_header header ∈ s.sent)
    (h : ∀ parents, Accepted node s header parents →
      header.author ∉ at_round s.last_voted header.round → header.author = node.name →
      Completes node s (.new header node.name) → P s.current_header ∧
      ∀ s', ReflTransGen (Effect node P T R) s s' →
        s.current_header.id ∉ at_round s'.processing s.current_header.round →
        Effects node P T R (process s.current_header) s') :
    Effects node P T R (process_announced node process header) s := by
  refine (get_parents_runs hP).bind fun parents s₁ h₁ hfound => ?_
  split
  · exact Runs.pure trivial
  rename_i hne
  obtain ⟨rfl, hfound⟩ := hfound fun heq => hne (List.isEmpty_iff.mpr heq)
  refine Runs.bind propagate_runs ?_
  rintro _ _ - ⟨hcheck, rfl⟩
  refine (missing_payload_runs hP).bind fun missing s₂ h₂ hpayload => ?_
  split
  · exact Runs.pure trivial
  rename_i hthere
  obtain ⟨rfl, hpayload⟩ := hpayload (Bool.eq_false_iff.mpr hthere)
  have haccepted : Accepted node s₂ header parents := ⟨hsent, hfound, hcheck, hpayload⟩
  exact accept_effects hP haccepted (h parents haccepted)

end

/-- The processing of a header may lead to the processing of the current header, when it is our
own. -/
theorem process_header_within_effects {n : ℕ} {header : Header} (hP : P header)
    (hown : header.author = node.name → Completes node s (.new header node.name) →
      P s.current_header) :
    Effects node P T R (process_header_within node n header) s := by
  induction n generalizing header s with
  | zero => exact Runs.throw
  | succ n ih =>
    refine Runs.steps (process_header_with_eq header) (looking_effects hP) ?_
    apply process_announced_effects hP (List.mem_append_right _ List.mem_cons_self)
    refine fun _ _ _ hauthor hcompletes => ⟨hown hauthor hcompletes, fun s' h' _ => ?_⟩
    apply ih (hown hauthor hcompletes)
    intro _ _
    rw [current_header_of_effects h']
    exact hown hauthor hcompletes

/-! ## The bound on the recursion -/

section

variable {process process' : Header → CoreM Unit}

theorem process_certificate_congr {certificate : Certificate}
    (h : certificate.header.id ∉ at_round s.processing certificate.header.round →
      process certificate.header s = process' certificate.header s) :
    process_certificate node process certificate s =
      process_certificate node process' certificate s := by
  apply bind_congr_left
  change (if _ then process certificate.header else pure ()) s =
    (if _ then process' certificate.header else pure ()) s
  split
  · rename_i hnew
    exact h hnew
  · rfl

/-- An effect of any computation. -/
abbrev AnyEffect (node : Node) : Core → Core → Prop :=
  Effect node (fun _ => True) (fun _ => True) fun _ => True

/-- Two continuations that agree on what the effects of a computation leave. -/
theorem effects_congr (node : Node) {α β : Type} {x : CoreM α} {f f' : α → CoreM β}
    {Q : α → Core → Prop} (hx : Runs (AnyEffect node) x s Q)
    (hf : ∀ a s', ReflTransGen (AnyEffect node) s s' → Q a s' → f a s' = f' a s') :
    (x >>= f) s = (x >>= f') s :=
  Runs.bind_congr hx hf

theorem process_vote_congr {vote : Vote}
    (h : ∀ s', ReflTransGen (AnyEffect node) s s' →
      s.current_header.id ∉ at_round s'.processing s.current_header.round →
      process s.current_header s' = process' s.current_header s') :
    process_vote node process vote s = process_vote node process' vote s := by
  change (propagate _ >>= _) s = (propagate _ >>= _) s
  refine effects_congr node propagate_runs
    fun ⟨certificate, aggregator⟩ s₁ h₁ ⟨hok, _⟩ => ?_
  refine effects_congr node (Effects.modify .votes) fun _ s₂ h₂ _ => ?_
  cases certificate with
  | none => rfl
  | some certificate =>
    have heq := VotesAggregator.append_header hok
    refine effects_congr node send_to_effects fun _ s₃ h₃ _ => ?_
    have hcert : process_certificate node process certificate s₃ =
        process_certificate node process' certificate s₃ := by
      apply process_certificate_congr
      rw [heq]
      exact h s₃ ((h₁.trans h₂).trans h₃)
    unfold expect
    rw [hcert]

theorem send_vote_congr {header : Header} {vote : Vote}
    (h : ∀ s', ReflTransGen (AnyEffect node) s s' →
      s.current_header.id ∉ at_round s'.processing s.current_header.round →
      process s.current_header s' = process' s.current_header s') :
    send_vote node process header vote s = send_vote node process' header vote s := by
  unfold send_vote
  by_cases hown : (vote.origin == node.name) = true
  · rw [if_pos hown, if_pos hown]
    unfold expect
    rw [process_vote_congr h]
  · rw [if_neg hown, if_neg hown]

/-- Two ways to process the headers in between agree on a header that is accepted. -/
theorem accept_congr {header : Header} {parents : List Certificate}
    (haccepted : Accepted node s header parents)
    (h : ∀ s', ReflTransGen (AnyEffect node) s s' →
      s.current_header.id ∉ at_round s'.processing s.current_header.round →
      process s.current_header s' = process' s.current_header s') :
    (do
      modify fun s => { s with store := s.store.write header.id (.header header) }
      vote_for node process header parents : CoreM Unit) s = (do
      modify fun s => { s with store := s.store.write header.id (.header header) }
      vote_for node process' header parents : CoreM Unit) s := by
  change (if header.author ∉ at_round s.last_voted header.round then _ else pure () : CoreM Unit)
      { s with store := s.store.write header.id (.header header) } =
    (if header.author ∉ at_round s.last_voted header.round then _ else pure () : CoreM Unit)
      { s with store := s.store.write header.id (.header header) }
  split
  · rename_i hnew
    have hvote : AnyEffect node s _ := .vote trivial haccepted hnew
    refine send_vote_congr ?_
    rw [hvote.current_header]
    exact fun s' h' => h s' (.head hvote h')
  · rfl

theorem process_header_with_congr {header : Header}
    (h : ∀ s', ReflTransGen (AnyEffect node) s s' →
      header.id ∈ at_round s'.processing header.round →
      s.current_header.id ∉ at_round s'.processing s.current_header.round →
      process s.current_header s' = process' s.current_header s') :
    process_header_with node process header s = process_header_with node process' header s := by
  have hlooking : ReflTransGen (AnyEffect node) s (s.looking header) := looking_effects trivial
  rw [process_header_with_eq, process_header_with_eq]
  refine effects_congr node (get_parents_runs trivial) fun parents s₁ h₁ hfound => ?_
  split
  · rfl
  rename_i hne
  obtain ⟨rfl, hparents⟩ := hfound fun heq => hne (List.isEmpty_iff.mpr heq)
  refine effects_congr node propagate_runs ?_
  rintro _ _ - ⟨hcheck, rfl⟩
  refine effects_congr node (missing_payload_runs trivial)
    fun missing s₂ h₂ hpayload => ?_
  split
  · rfl
  rename_i hmissing
  obtain ⟨rfl, hthere⟩ := hpayload (Bool.eq_false_iff.mpr hmissing)
  apply accept_congr ⟨List.mem_append_right _ List.mem_cons_self, hparents, hcheck, hthere⟩
  intro s₃ h₃
  apply h s₃ (hlooking.trans h₃)
  exact processing_of_effects h₃ (mem_insert_at.mpr (Or.inl ⟨rfl, rfl⟩))

/-- The processing of the current header makes no recursive call: it is in `processing` then. -/
theorem process_current_header_congr :
    process_header_with node process s.current_header s =
      process_header_with node process' s.current_header s :=
  process_header_with_congr fun _ _ hmem hnew => absurd hmem hnew

/-- A recursive call is for the current header, so there are at most two calls in one another. -/
theorem process_header_within_eq (n : ℕ) (header : Header) :
    process_header_within node (n + 2) header = process_header node header := by
  funext s
  apply process_header_with_congr
  intro s' h' _ _
  rw [← current_header_of_effects h']
  exact process_current_header_congr

end

/-! ## The effects of an input -/

/-- What the processing of a header needs: the header meets `P`, and the current header does when
the header is our own and our vote for it makes a certificate. -/
def HeaderAllowed (node : Node) (P : Header → Prop) (s : Core) (header : Header) : Prop :=
  P header ∧ (header.author = node.name → Completes node s (.new header node.name) →
    P s.current_header)

/-- The headers that an input brings to `process_header` meet `P`, and the round that it brings to a
new aggregator of no-vote messages meets `R`. A message of another primary has passed its check. -/
def Brings (node : Node) (P : Header → Prop) (R : ℕ → Prop) (s : Core) : Input → Prop
  | .primaries (.header header) =>
    s.sanitize_header node header = .ok () → HeaderAllowed node P s header
  | .primaries (.certificate certificate) =>
    s.sanitize_certificate node certificate = .ok () → HeaderAllowed node P s certificate.header
  | .primaries (.vote vote) => s.sanitize_vote node vote = .ok () → Completes node s vote →
    P s.current_header
  | .primaries (.no_vote_msg no_vote_msg) => s.sanitize_no_vote_msg node no_vote_msg = .ok () →
    no_vote_msg.round ∉ s.no_vote_aggregators → R no_vote_msg.round
  | .header_waiter header => HeaderAllowed node P s header
  | .certificate_waiter certificate => HeaderAllowed node P s certificate.header
  | .proposer header => P header
  | _ => True

/-- The core takes up a timeout of the round: one of its own, or one that passes its check. -/
def Takes (node : Node) (s : Core) : Input → ℕ → Prop
  | .timeout timeout, round => timeout.round = round
  | .primaries (.timeout timeout), round =>
    s.sanitize_timeout node timeout = .ok () ∧ timeout.round = round
  | _, _ => False

/-- The state once a header of our own is the current one. -/
def start (s : Core) : Input → Core
  | .proposer header => { s with current_header := header, votes_aggregator := .new }
  | _ => s

theorem process_header_effects {header : Header} (h : HeaderAllowed node P s header) :
    Effects node P T R (process_header node header) s :=
  process_header_within_effects h.1 h.2

theorem process_timeout_effects {timeout : Timeout} (h : T timeout.round) :
    Effects node P T R (process_timeout node timeout) s := by
  refine Effects.get ?_
  refine Runs.bind propagate_runs fun ⟨cert, aggregator⟩ s₁ _ _ => ?_
  exact (Effects.modify (.timeouts h)).bind fun _ _ _ => send_some_effects fun _ => trivial

theorem no_vote_aggregator_runs {round : ℕ} (h : round ∉ s.no_vote_aggregators → R round) :
    Runs (Effect node P T R) (no_vote_aggregator node round) s
      fun _ s' => round ∈ s'.no_vote_aggregators := by
  refine Runs.bind (Q := fun a s' => a = s ∧ s' = s) (Runs.get ⟨rfl, rfl⟩) ?_
  rintro _ _ - ⟨rfl, rfl⟩
  split
  · rename_i aggregator hsome
    exact Runs.pure (ExtTreeMap.mem_iff_isSome_getElem?.mpr (by rw [hsome]; rfl))
  · rename_i hnone
    refine Runs.bind propagate_runs ?_
    rintro ⟨_, aggregator⟩ _ - ⟨-, rfl⟩
    have hR := h (by rw [ExtTreeMap.mem_iff_isSome_getElem?, hnone]; exact Bool.false_ne_true)
    refine Runs.bind (Q := fun _ s' => round ∈ s'.no_vote_aggregators)
      (Runs.modify (.no_votes (Or.inr hR)) ExtTreeMap.mem_insert_self) ?_
    exact fun _ _ _ hmem => Runs.pure hmem

theorem process_no_vote_msg_effects {no_vote_msg : NoVoteMsg}
    (h : no_vote_msg.round ∉ s.no_vote_aggregators → R no_vote_msg.round) :
    Effects node P T R (process_no_vote_msg node no_vote_msg) s := by
  refine Runs.bind (no_vote_aggregator_runs h) fun aggregator s₁ _ hmem => ?_
  refine Runs.bind propagate_runs ?_
  rintro ⟨cert, aggregator⟩ _ - ⟨-, rfl⟩
  exact (Effects.modify (.no_votes (Or.inl hmem))).bind fun _ _ _ =>
    send_some_effects fun _ => trivial

theorem handle_message_effects {message : PrimaryMessage}
    (h : Brings node P R s (.primaries message))
    (ht : ∀ r, Takes node s (.primaries message) r → T r) :
    Effects node P T R (handle_message node message) s := by
  refine Effects.get ?_
  cases message with
  | header header =>
    refine Runs.bind propagate_runs ?_
    rintro _ _ - ⟨hok, rfl⟩
    exact process_header_effects (h hok)
  | timeout timeout =>
    refine Runs.bind propagate_runs ?_
    rintro _ _ - ⟨hok, rfl⟩
    exact process_timeout_effects (ht _ ⟨hok, rfl⟩)
  | no_vote_msg msg =>
    refine Runs.bind propagate_runs ?_
    rintro _ _ - ⟨hok, rfl⟩
    exact process_no_vote_msg_effects (h hok)
  | vote vote =>
    refine Runs.bind propagate_runs ?_
    rintro _ _ - ⟨hok, rfl⟩
    refine process_vote_effects (h hok) fun hcompletes s' h' _ =>
      process_header_effects ⟨h hok hcompletes, fun _ _ => ?_⟩
    rw [current_header_of_effects h']
    exact h hok hcompletes
  | certificate certificate =>
    refine Runs.bind propagate_runs ?_
    rintro _ _ - ⟨hok, rfl⟩
    exact process_certificate_effects (h hok).1 fun _ => process_header_effects (h hok)
  | certificates_request digests requestor => exact Runs.throw

/-- What the handling of an input does, from the state in which an own header is the current one. -/
theorem handle_effects {input : Input} (h : Brings node P R s input)
    (ht : ∀ r, Takes node s input r → T r) :
    ∃ x : CoreM Unit, handle node input s = x (s.start input) ∧
      Effects node P T R x (s.start input) := by
  cases input with
  | primaries message => exact ⟨_, rfl, handle_message_effects h ht⟩
  | header_waiter header => exact ⟨_, rfl, process_header_effects h⟩
  | certificate_waiter certificate =>
    exact ⟨_, rfl, process_certificate_effects h.1 fun _ => process_header_effects h⟩
  | proposer header =>
    refine ⟨_, rfl, send_to_effects.bind fun _ s₁ h₁ => process_header_effects ⟨h, fun _ _ => ?_⟩⟩
    rw [current_header_of_effects h₁]
    exact h
  | timeout timeout =>
    exact ⟨_, rfl, send_to_effects.bind fun _ _ _ => process_timeout_effects (ht _ rfl)⟩
  | no_vote_msg msg => exact ⟨_, rfl, address_effects.bind fun _ _ _ => send_to_effects⟩

/-- An iteration of the main loop ends with the cleanup. -/
theorem step_input_eq {input : Input} (h : Core.step node s (.input input) = some s') :
    s' = (after (handle node input) s).cleanup node := by
  unfold Core.step at h
  unfold after
  dsimp only at h
  rcases hresult : handle node input s with ⟨_, s₁⟩ | ⟨e | _, s₁⟩
  · rw [hresult] at h
    exact (Option.some.inj h).symm
  · rw [hresult] at h
    exact (Option.some.inj h).symm
  · rw [hresult] at h
    cases h

theorem step_of_effects {input : Input} {x : CoreM Unit} {s₀ : Core}
    (heq : handle node input s = x s₀) (hx : Effects node P T R x s₀)
    (hstep : step node s (.input input) = some s') :
    ∃ s₁, ReflTransGen (Effect node P T R) s₀ s₁ ∧ s' = s₁.cleanup node := by
  refine ⟨_, hx.steps_after, ?_⟩
  rw [step_input_eq hstep, after_of_eq heq]

/-- One iteration of the main loop: the effects of the input, then the cleanup. -/
theorem step_effects {input : Input} (h : Brings node P R s input)
    (ht : ∀ r, Takes node s input r → T r) (hstep : step node s (.input input) = some s') :
    ∃ s₁, ReflTransGen (Effect node P T R) (s.start input) s₁ ∧ s' = s₁.cleanup node := by
  obtain ⟨x, heq, hx⟩ := handle_effects h ht
  exact step_of_effects heq hx hstep

theorem run_concat {store : Store} {events : List Event} {e : Event} :
    run node store (events ++ [e]) = some s' ↔
      ∃ s, run node store events = some s ∧ Core.step node s e = some s' := by
  unfold run
  rw [List.foldlM_append]
  simp [Option.bind_eq_some_iff]

/-! ## Invariants of a run -/

/-- A change that leaves the records, what was sent, the votes, the no-vote messages and the
timeouts. -/
structure Frame (s s' : Core) : Prop where
  records : s'.store.records = s.store.records
  sent : s'.sent = s.sent
  voted : s'.voted = s.voted
  no_votes : s'.no_vote_aggregators = s.no_vote_aggregators
  timeouts : s'.timeouts_aggregators = s.timeouts_aggregators

omit [Crypto] in
theorem start_frame (input : Input) : Frame s (s.start input) := by
  cases input <;> exact ⟨rfl, rfl, rfl, rfl, rfl⟩

omit [Crypto] in
theorem cleanup_frame : Frame s (s.cleanup node) := by
  unfold cleanup
  dsimp only
  split <;> exact ⟨rfl, rfl, rfl, rfl, rfl⟩

/-- An event is an input, whose effects come between two frames, or a frame. -/
theorem step_cases {e : Event} (hstep : step node s e = some s') : Frame s s' ∨
    ∃ input, e = .input input ∧ ∀ P R, Brings node P R s input →
      ∃ s₁, ReflTransGen (Effect node P (fun _ => True) R) (s.start input) s₁ ∧
        s' = s₁.cleanup node := by
  cases e with
  | input input => exact Or.inr ⟨input, rfl, fun P R h => step_effects h (fun _ _ => trivial) hstep⟩
  | payload digest worker_id =>
    cases hstep
    exact Or.inl ⟨rfl, rfl, rfl, rfl, rfl⟩
  | committed round =>
    unfold step at hstep
    dsimp only at hstep
    split at hstep <;> cases hstep <;> exact Or.inl ⟨rfl, rfl, rfl, rfl, rfl⟩

/-- Only a no-vote message brings a round to a new aggregator. -/
theorem brings_of_no_votes {input : Input} (h : ∀ msg, input = .primaries (.no_vote_msg msg) →
      s.sanitize_no_vote_msg node msg = .ok () → msg.round ∉ s.no_vote_aggregators →
      R msg.round) :
    Brings node (fun _ => True) R s input := by
  cases input with
  | primaries message =>
    cases message with
    | header | certificate => exact fun _ => ⟨trivial, fun _ _ => trivial⟩
    | vote => exact fun _ _ => trivial
    | no_vote_msg msg => exact h msg rfl
    | timeout | certificates_request => exact trivial
  | header_waiter | certificate_waiter => exact ⟨trivial, fun _ _ => trivial⟩
  | proposer | timeout | no_vote_msg => exact trivial

theorem brings_any (input : Input) : Brings node (fun _ => True) (fun _ => True) s input :=
  brings_of_no_votes fun _ _ _ _ => trivial

/-- What the effects of an input and the frames keep holds in every state of a run. -/
theorem invariant_of_run {I : Core → Prop} {store : Store} {events : List Event}
    (hspawn : I (spawn store)) (heffect : ∀ s s', AnyEffect node s s' → I s → I s')
    (hframe : ∀ s s', Frame s s' → I s → I s') (hrun : run node store events = some s) : I s := by
  induction events using List.reverseRecOn generalizing s with
  | nil =>
    cases hrun
    exact hspawn
  | append_singleton events e ih =>
    obtain ⟨before, hbefore, hstep⟩ := run_concat.mp hrun
    have hI := ih hbefore
    rcases step_cases hstep with h | ⟨input, -, h⟩
    · exact hframe _ _ h hI
    · obtain ⟨s₁, heffects, rfl⟩ := h _ _ (brings_any input)
      exact hframe _ _ cleanup_frame
        (of_steps heffect heffects (hframe _ _ (start_frame input) hI))

end

end sailfish.primary.Core
