-- The primaries of a committee that run this code, in any order of their steps. The
-- authorities that do not run it, and the network, may bring anything to them.
import Mathlib
import Sailfish.SignedMessages
import Sailfish.SoundVotes
import Sailfish.Lib.Parties

open Std splits sailfish.crypto sailfish.config

namespace sailfish.crypto

/-- As `sample`, but only the signatures of some keys on some digests are valid. -/
@[reducible] def sample_signed (signed : List (PublicKey × Digest)) : Crypto :=
  { sample with
    verify_strict := fun key digest sig =>
      sig.part1 == key && sig.part2 == digest && signed.contains (key, digest)
    verify_batch := fun batch => batch.all fun (digest, sig, key) =>
      sig.part1 == key && sig.part2 == digest && signed.contains (key, digest) }

theorem sample_signed_batchSound (signed : List (PublicKey × Digest)) :
    @BatchSound (sample_signed signed) := by
  intro batch h x hx
  exact List.all_eq_true.mp h x hx

/-- A valid signature is on one of the digests of the key. -/
theorem mem_of_sample_signed {signed : List (PublicKey × Digest)} {key : PublicKey}
    {digest : Digest} {sig : Signature}
    (h : @Signature.verify (sample_signed signed) sig digest key = true) :
    (key, digest) ∈ signed := by
  have hstrict := (Bool.and_eq_true_iff.mp h).2
  exact List.contains_iff_mem.mp (Bool.and_eq_true_iff.mp hstrict).2

end sailfish.crypto

namespace sailfish.primary

namespace Primary

section

variable [Crypto] {node : Node} {header_size : ℕ} {s s' : Primary} {e : Event}

/-- The input that the core handles with the event, if any. -/
def input (s : Primary) : Event → Option Core.Input
  | .core (.input input) => some input
  | .core_receives channel => s.to_core.find? (·.channel == some channel)
  | .core (.payload _ _) | .core (.committed _) | .elapse | .propose | .worker _ _ | .timer
  | .proposer_receives _ => none

/-- No header comes to be processed while its round is below the last garbage collected one. -/
def Recent (node : Node) (s : Primary) (e : Event) : Prop :=
  ∀ input, s.input e = some input →
    Core.Allowed node (fun header => s.core.gc_round ≤ header.round) s.core input

/-- The core stays, or it makes the step of the input that it handles. -/
theorem core_of_step (h : step node header_size s e = some s') : s'.core = s.core ∨
    ∃ e', Core.step node s.core e' = some s'.core ∧
      ∀ input, e' = .input input → s.input e = some input := by
  cases e with
  | core e' =>
    unfold step at h
    dsimp only at h
    split at h
    · refine Or.inr ⟨e', (core_step_eq_some h).1, ?_⟩
      rintro input rfl
      rfl
    · cases h
  | core_receives channel =>
    unfold step at h
    simp only [Option.bind_eq_bind, Option.bind_eq_some_iff] at h
    obtain ⟨input, hfind, h⟩ := h
    refine Or.inr ⟨.input input, (core_step_eq_some h).1, ?_⟩
    rintro _ ⟨⟩
    exact hfind
  | elapse | propose | worker | timer | proposer_receives =>
    refine Or.inl ?_
    cases change_of_step h <;> assumption

/-- What comes to the core from outside is what the tasks around the primary may give it. -/
def FromTasks (s : Primary) (e : Event) : Prop :=
  ∀ input, e = .core (.input input) → Core.Arrives (fun _ => False) s.core input

/-- The headers of the proposer are made for the node, also those that wait for the core. -/
structure Makes (name : PublicKey) (s : Primary) : Prop where
  made : ∀ m ∈ s.proposer.made, m.header.MadeBy name
  to_core : ∀ header, .proposer header ∈ s.to_core → header.MadeBy name

theorem makes_spawn {store : Store} : Makes node.name (spawn node store) where
  made := fun _ hm => absurd hm List.not_mem_nil
  to_core := fun _ hm => absurd hm List.not_mem_nil

theorem mem_to_core_of_step {input : Core.Input} (h : step node header_size s e = some s')
    (hm : input ∈ s'.to_core) : input ∈ s.to_core ∨ input ∈ s'.proposer.sent := by
  cases e with
  | core e' =>
    unfold step core_step at h
    dsimp only at h
    split at h
    · simp only [Option.pure_def, Option.bind_eq_bind, Option.bind_eq_some_iff] at h
      obtain ⟨core, -, heq⟩ := h
      cases heq
      exact Or.inl hm
    · cases h
  | core_receives channel =>
    unfold step core_step at h
    simp only [Option.pure_def, Option.bind_eq_bind, Option.bind_eq_some_iff] at h
    obtain ⟨_, -, _, -, heq⟩ := h
    cases heq
    exact Or.inl (List.mem_of_mem_eraseP hm)
  | elapse =>
    cases h
    exact Or.inl hm
  | propose =>
    unfold step at h
    dsimp only at h
    split at h
    · cases h
    · cases h
      exact (List.mem_append.mp hm).imp_right List.mem_of_mem_drop
  | worker | timer =>
    unfold step at h
    dsimp only at h
    split at h
    · cases h
      exact Or.inl hm
    · cases h
  | proposer_receives channel =>
    unfold step at h
    dsimp only at h
    split at h
    · simp only [Option.pure_def, Option.bind_eq_bind, Option.bind_eq_some_iff] at h
      obtain ⟨_, -, heq⟩ := h
      cases heq
      exact Or.inl hm
    · cases h

theorem made_of_step (h : step node header_size s e = some s')
    (hs : ∀ m ∈ s.proposer.made, m.header.MadeBy node.name) :
    ∀ m ∈ s'.proposer.made, m.header.MadeBy node.name := by
  cases change_of_step h with
  | core _ hproposer | core_receives _ _ hproposer =>
    rw [hproposer]
    exact hs
  | elapse _ hproposer =>
    rw [hproposer]
    exact hs
  | propose _ hproposer =>
    rw [hproposer, Proposer.made_propose]
    exact Proposer.forall_mem_append_if hs fun _ => ⟨_, _, _, _, _, rfl⟩
  | receive message _ _ _ hproposer =>
    rw [hproposer, (Proposer.receive_eq node.committee s.proposer message).2.1]
    exact hs

theorem Makes.step (h : Makes node.name s) (hstep : step node header_size s e = some s')
    (horderly : Proposer.Orderly node.name node.committee s'.proposer) : Makes node.name s' := by
  have hmade := made_of_step hstep h.made
  refine ⟨hmade, fun header hm => ?_⟩
  rcases mem_to_core_of_step hstep hm with hm | hm
  · exact h.to_core header hm
  · have hsent : header ∈ Proposer.headers s'.proposer.sent :=
      List.mem_filterMap.mpr ⟨_, hm, rfl⟩
    rw [horderly.sent_headers] at hsent
    obtain ⟨m, hmem, rfl⟩ := List.mem_map.mp hsent
    exact hmade m hmem

theorem makes_of_run {store : Store} {events : List Event}
    (hrun : run node header_size store events = some s) : Makes node.name s := by
  induction events using List.reverseRecOn generalizing s with
  | nil =>
    cases hrun
    exact makes_spawn
  | append_singleton events e ih =>
    obtain ⟨before, hbefore, hstep⟩ := run_concat.mp hrun
    exact (ih hbefore).step hstep (orderly_of_run hrun)

/-- The core of the primary makes a run on inputs that the tasks around it give it. -/
def Served (node : Node) (store : Store) (s : Primary) : Prop :=
  ∃ events, Core.run node store events = some s.core ∧
    Core.FromTasks node (·.MadeBy node.name) store events

omit [Crypto] in
theorem arrives_of_input {Own : Header → Prop}
    (hown : ∀ header, .proposer header ∈ s.to_core → Own header) (hfrom : s.FromTasks e)
    {input : Core.Input} (hinput : s.input e = some input) : Core.Arrives Own s.core input := by
  cases e with
  | core e' =>
    cases e' with
    | input input' =>
      cases hinput
      have harrives := hfrom _ rfl
      cases input with
      | proposer header => exact harrives.elim
      | primaries | header_waiter | certificate_waiter | timeout | no_vote_msg => exact harrives
    | payload | committed => cases hinput
  | core_receives channel =>
    have hfind : s.to_core.find? (·.channel == some channel) = some input := hinput
    have hchannel := List.find?_some hfind
    rw [beq_iff_eq] at hchannel
    cases input with
    | proposer header => exact hown header (List.mem_of_find?_eq_some hfind)
    | timeout | no_vote_msg => exact trivial
    | primaries | header_waiter | certificate_waiter => cases hchannel
  | elapse | propose | worker | timer | proposer_receives => cases hinput

theorem Served.step {store : Store} (h : Served node store s) (hmakes : Makes node.name s)
    (hfrom : s.FromTasks e) (hstep : step node header_size s e = some s') :
    Served node store s' := by
  obtain ⟨events, hrun, htasks⟩ := h
  rcases core_of_step hstep with hcore | ⟨e', hcore, hinput⟩
  · exact ⟨events, by rw [hcore]; exact hrun, htasks⟩
  · refine ⟨events ++ [e'], Core.run_concat.mpr ⟨_, hrun, hcore⟩, htasks.concat ?_⟩
    intro input before he hbefore
    rw [hrun] at hbefore
    cases hbefore
    exact arrives_of_input hmakes.to_core hfrom (hinput input he)

theorem tracked_of_step (h : Core.Tracked node s.core) (hrecent : Recent node s e)
    (hstep : step node header_size s e = some s') : Core.Tracked node s'.core := by
  rcases core_of_step hstep with hcore | ⟨e', hcore, hinput⟩
  · rw [hcore]
    exact h
  · exact h.step (fun input he => hrecent input (hinput input he)) hcore

end

end Primary

/-- What the primaries of a committee share. -/
structure System where
  committee : Committee
  gc_depth : ℕ
  header_size : ℕ

namespace System

variable (sys : System)

def node (name : PublicKey) : Node := { name, committee := sys.committee, gc_depth := sys.gc_depth }

section

variable [Crypto]

def spawn (store : PublicKey → Store) (name : PublicKey) : Primary :=
  .spawn (sys.node name) (store name)

/-- A run of the primaries, with what is in their stores at the start. An event comes with the name
of the primary that it happens to. -/
def run (store : PublicKey → Store) (events : List (PublicKey × Primary.Event)) :
    Option (PublicKey → Primary) :=
  parties.run (fun name => Primary.step (sys.node name) sys.header_size) (sys.spawn store) events

/-- No honest primary comes to process a header while it is past the round of the header. -/
def Recent (honest : Set PublicKey) (store : PublicKey → Store)
    (events : List (PublicKey × Primary.Event)) : Prop :=
  Each (fun pre e => ∀ before, sys.run store pre = some before → e.1 ∈ honest →
    (before e.1).Recent (sys.node e.1) e.2) events

/-- What comes to the cores of the honest primaries from outside is what their tasks may give
them. -/
def FromTasks (honest : Set PublicKey) (store : PublicKey → Store)
    (events : List (PublicKey × Primary.Event)) : Prop :=
  Each (fun pre e => ∀ before, sys.run store pre = some before → e.1 ∈ honest →
    (before e.1).FromTasks e.2) events

/-- Signatures of the honest primaries are unforgeable: each one that is valid is on a digest that
the primary has signed. -/
def Unforged (honest : Set PublicKey) (s : PublicKey → Primary) : Prop :=
  Unforgeable fun key digest => key ∈ honest → digest ∈ (s key).signed key

variable {sys} {honest : Set PublicKey} {store : PublicKey → Store}
  {events : List (PublicKey × Primary.Event)} {s : PublicKey → Primary} {name : PublicKey}

/-- Each primary makes a run of its own. -/
theorem primary_of_run (hrun : sys.run store events = some s) (name : PublicKey) :
    Primary.run (sys.node name) sys.header_size (store name) (parties.events_of name events) =
      some (s name) :=
  parties.run_of_party hrun name

/-- The votes of the honest primaries are tracked. -/
theorem tracked_of_run (hrun : sys.run store events = some s)
    (hrecent : sys.Recent honest store events) (hname : name ∈ honest) :
    Core.Tracked (sys.node name) (s name).core := by
  refine parties.invariant_of_run
    (I := fun name s => name ∈ honest → Core.Tracked (sys.node name) s.core) hrun ?_ ?_ name hname
  · exact fun _ _ => Core.tracked_spawn _
  · exact hrecent.imp fun pre e hr before t hbefore hstep h hm =>
      Primary.tracked_of_step (h hm) (hr before hbefore hm) hstep

theorem served_of_run (hrun : sys.run store events = some s)
    (hfrom : sys.FromTasks honest store events) (hname : name ∈ honest) :
    Primary.Served (sys.node name) (store name) (s name) := by
  refine parties.invariant_of_run
    (I := fun name s => name ∈ honest → Primary.Served (sys.node name) (store name) s)
    hrun ?_ ?_ name hname
  · exact fun _ _ => ⟨[], rfl, each_nil⟩
  · exact hfrom.imp fun pre e hr before t hbefore hstep h hm =>
      (h hm).step (Primary.makes_of_run (primary_of_run hbefore e.1)) (hr before hbefore hm) hstep

/-- The event is outside the core, or brings a marker of a batch or a header or a certificate of
another author from the network. -/
def foreign : PublicKey × Primary.Event → Bool
  | (name, .core (.input (.primaries (.header header)))) => header.author != name
  | (name, .core (.input (.primaries (.certificate certificate)))) =>
    certificate.header.author != name
  | (_, .core (.payload _ _)) => true
  | (_, .core _) | (_, .core_receives _) => false
  | (_, .elapse) | (_, .propose) | (_, .worker _ _) | (_, .timer) | (_, .proposer_receives _) => true

omit [Crypto] in
theorem header_of_foreign {e : Primary.Event} (h : foreign (name, e) = true) {s : Primary}
    {input : Core.Input} (hinput : s.input e = some input) :
    (∃ header : Header, input = .primaries (.header header) ∧ header.author ≠ name) ∨
      ∃ certificate : Certificate, input = .primaries (.certificate certificate) ∧
        certificate.header.author ≠ name := by
  cases e with
  | core e =>
    cases e with
    | input input =>
      cases hinput
      cases input with
      | primaries message =>
        cases message with
        | header header => exact Or.inl ⟨header, rfl, bne_iff_ne.mp h⟩
        | certificate certificate => exact Or.inr ⟨certificate, rfl, bne_iff_ne.mp h⟩
        | timeout | no_vote_msg | vote | certificates_request => cases h
      | header_waiter | certificate_waiter | proposer | timeout | no_vote_msg => cases h
    | payload | committed => cases hinput
  | core_receives => cases h
  | elapse | propose | worker | timer | proposer_receives => cases hinput

theorem recent_of_foreign (h : events.all foreign = true) : sys.Recent honest store events := by
  rintro pre ⟨name, e⟩ post heq before _ _ input hinput
  rcases header_of_foreign (List.all_eq_true.mp h (name, e) (by simp [heq])) hinput with
    ⟨header, rfl, hother⟩ | ⟨certificate, rfl, hother⟩
  · exact fun hround => ⟨hround, fun hown => absurd hown hother⟩
  · exact fun hround => ⟨hround, fun hown => absurd hown hother⟩

omit [Crypto] in
theorem arrives_of_foreign {e : Primary.Event} (h : foreign (name, e) = true) (s : Primary) :
    s.FromTasks e := by
  rintro input rfl
  rcases header_of_foreign (s := s) h rfl with ⟨header, rfl, -⟩ | ⟨certificate, rfl, -⟩
  · exact fun _ _ => nofun
  · exact fun _ _ => nofun

theorem fromTasks_of_foreign (h : events.all foreign = true) :
    sys.FromTasks honest store events := by
  rintro pre ⟨name, e⟩ post heq before _ _
  exact arrives_of_foreign (List.all_eq_true.mp h (name, e) (by simp [heq])) (before name)

end

end System

end sailfish.primary
