-- The authorities of a committee: the primary of each one (`primary/src/primary.rs`) and its
-- workers (`worker/src/worker.rs`), with what a worker reports to its primary. A report
-- may come late, after others, or never (`network/src/simple_sender.rs`).
import Mathlib
import Sailfish.CertifiedHeaders
import Sailfish.Dissemination
import Sailfish.Payloads
import Sailfish.Lib.Splits

open Std splits sailfish.crypto sailfish.config sailfish.primary sailfish.worker

/-! ## A part of a machine that has steps of its own -/

namespace projection

variable {σ ε τ δ : Type*} {step : σ → ε → Option σ} {start s s' : σ} {events : List ε} {e : ε}

theorem foldlM_concat : (events ++ [e]).foldlM step start = some s' ↔
    ∃ s, events.foldlM step start = some s ∧ step s e = some s' := by
  rw [List.foldlM_append]
  simp [Option.bind_eq_some_iff]

/-- A step leaves the part as it is, or makes a step of it, where `C` holds of the part and `D` of
what the step leaves. -/
def Moves (one : τ → δ → Option τ) (part : σ → τ) (C : τ → δ → Prop) (D : σ → δ → Prop) (s s' : σ) :
    Prop :=
  part s' = part s ∨ ∃ d, one (part s) d = some (part s') ∧ C (part s) d ∧ D s' d

/-- What holds of each step of the part that the machine makes holds along its run. What every later
step keeps holds of all of them at the end. -/
theorem part_of_run (one : τ → δ → Option τ) (part : σ → τ) {C : τ → δ → Prop} {D : σ → δ → Prop}
    (hrun : events.foldlM step start = some s)
    (hmoves : Each (fun pre e => ∀ before after, pre.foldlM step start = some before →
      step before e = some after → Moves one part C D before after) events)
    (hkeep : ∀ s s' e d, step s e = some s' → D s d → D s' d) :
    ∃ own, own.foldlM one (part start) = some (part s) ∧
      Each (fun pre d => ∀ before, pre.foldlM one (part start) = some before → C before d) own ∧
      ∀ d ∈ own, D s d := by
  induction events using List.reverseRecOn generalizing s with
  | nil =>
    cases hrun
    exact ⟨[], rfl, each_nil, nofun⟩
  | append_singleton events e ih =>
    obtain ⟨before, hbefore, hstep⟩ := foldlM_concat.mp hrun
    obtain ⟨own, hown, hC, hD⟩ := ih hbefore hmoves.of_append
    have hkept : ∀ d ∈ own, D s d := fun d hd => hkeep _ _ _ _ hstep (hD d hd)
    rcases hmoves.last before s hbefore hstep with heq | ⟨d, hone, hCd, hDd⟩
    · exact ⟨own, by rw [heq]; exact hown, hC, hkept⟩
    · refine ⟨own ++ [d], foldlM_concat.mpr ⟨_, hown, hone⟩, hC.concat fun t ht => ?_, ?_⟩
      · rw [hown] at ht
        cases ht
        exact hCd
      · exact List.forall_mem_append.mpr ⟨hkept, List.forall_mem_singleton.mpr hDd⟩

end projection

open projection

namespace sailfish.node

/-- The primaries of a committee, and its workers of each id. -/
structure Authorities where
  primaries : System
  workers : ℕ → Workers
  of_committee : ∀ id, (workers id).committee = primaries.committee
  of_id : ∀ id, (workers id).id = id

namespace Authorities

structure State where
  primaries : PublicKey → Primary
  workers : ℕ → Workers.State
  /-- The numbers of the messages that came to the primary from each worker of its authority. -/
  arrived : PublicKey → ℕ → List ℕ
  /-- The digests that wait for the proposer. -/
  tx_our_digests : PublicKey → List (Digest × ℕ)
  /-- The digests that wait for the payload receiver. -/
  tx_others_digests : PublicKey → List (Digest × ℕ)

/-- What happens to the authorities. -/
inductive Event
  | primary (name : PublicKey) (e : Primary.Event)
  | workers (id : ℕ) (e : Workers.Event)
  /-- The message `i` of a worker comes to the primary of its authority. -/
  | dispatch (name : PublicKey) (id i : ℕ)
  /-- The proposer takes the next digest. -/
  | our_digest (name : PublicKey)
  /-- The payload receiver takes the next digest. -/
  | others_digest (name : PublicKey)
deriving DecidableEq

/-- The primary takes the event from a channel of its workers. -/
def from_workers : Primary.Event → Bool
  | .worker _ _ | .core (.payload _ _) => true
  | .core (.input _) | .core (.committed _) | .core_receives _ | .elapse | .propose | .timer
  | .proposer_receives _ => false

namespace State

def set_primary (s : State) (name : PublicKey) (primary : Primary) : State :=
  { s with primaries := Function.update s.primaries name primary }

/-- The handler of the messages of our workers. -/
def dispatch (s : State) (name : PublicKey) : WorkerPrimaryMessage → State
  | .OurBatch digest worker_id =>
    let digests := s.tx_our_digests name ++ [(digest, worker_id)]
    { s with tx_our_digests := Function.update s.tx_our_digests name digests }
  | .OthersBatch digest worker_id =>
    let digests := s.tx_others_digests name ++ [(digest, worker_id)]
    { s with tx_others_digests := Function.update s.tx_others_digests name digests }

/-- The message `i` of the worker is not on its way any more. -/
def arrives (s : State) (name : PublicKey) (id i : ℕ) : State :=
  { s with
    arrived := Function.update s.arrived name
      (Function.update (s.arrived name) id (i :: s.arrived name id)) }

end State

section

variable [Crypto] [Bincode] (sys : Authorities)

def spawn (store : PublicKey → Store) (batches : ℕ → PublicKey → ExtTreeMap Digest Bytes) : State where
  primaries := sys.primaries.spawn store
  workers id := (sys.workers id).spawn (batches id)
  arrived _ _ := []
  tx_our_digests _ := []
  tx_others_digests _ := []

/-- The primary of an authority makes a step. -/
def primary_step (s : State) (name : PublicKey) (e : Primary.Event) : Option State :=
  (Primary.step (sys.primaries.node name) sys.primaries.header_size (s.primaries name) e).map
    (s.set_primary name)

/-- One event. `none` is a panic of a core, or an event that cannot happen. -/
def step (s : State) : Event → Option State
  | .primary name e => if from_workers e then none else sys.primary_step s name e
  | .workers id e =>
    ((sys.workers id).step (s.workers id) e).map fun t =>
      { s with workers := Function.update s.workers id t }
  | .dispatch name id i =>
    if (s.arrived name id).contains i then none
    else (((s.workers id).workers name).tx_primary[i]?).map ((s.arrives name id i).dispatch name)
  | .our_digest name =>
    match s.tx_our_digests name with
    | [] => none
    | (digest, worker_id) :: rest =>
      sys.primary_step { s with tx_our_digests := Function.update s.tx_our_digests name rest } name
        (.worker digest worker_id)
  | .others_digest name =>
    match s.tx_others_digests name with
    | [] => none
    | (digest, worker_id) :: rest =>
      sys.primary_step { s with tx_others_digests := Function.update s.tx_others_digests name rest }
        name (.core (.payload digest worker_id))

/-- A run of the authorities, with what is in the stores of their primaries and workers at the
start. -/
def run (store : PublicKey → Store) (batches : ℕ → PublicKey → ExtTreeMap Digest Bytes)
    (events : List Event) : Option State :=
  events.foldlM sys.step (sys.spawn store batches)

/-- What comes to the cores of the honest primaries from outside is what their tasks may give
them. -/
def FromTasks (honest : Set PublicKey) (store : PublicKey → Store)
    (batches : ℕ → PublicKey → ExtTreeMap Digest Bytes) (events : List Event) : Prop :=
  Each (fun pre e => ∀ before, sys.run store batches pre = some before →
    ∀ name e', e = .primary name e' → name ∈ honest → (before.primaries name).FromTasks e') events

/-- The links to the workers that run this code behave as such. -/
def Follows (honest : Set PublicKey) (events : List Event) : Prop :=
  ∀ id a b e, .workers id (.outsider a b e) ∈ events → b ∉ honest

variable {sys} {store : PublicKey → Store} {batches : ℕ → PublicKey → ExtTreeMap Digest Bytes}
  {events : List Event} {e : Event} {s s' : State}

theorem run_concat : sys.run store batches (events ++ [e]) = some s' ↔
    ∃ s, sys.run store batches events = some s ∧ sys.step s e = some s' := foldlM_concat

/-- What an event does. -/
inductive Change (sys : Authorities) (s : State) : Event → State → Prop
  | primary {name : PublicKey} {e : Primary.Event} {primary : Primary} : from_workers e = false →
      Primary.step (sys.primaries.node name) sys.primaries.header_size (s.primaries name) e =
        some primary → Change sys s (.primary name e) (s.set_primary name primary)
  | workers {id : ℕ} {e : Workers.Event} {t : Workers.State} :
      (sys.workers id).step (s.workers id) e = some t →
      Change sys s (.workers id e) { s with workers := Function.update s.workers id t }
  | dispatch {name : PublicKey} {id i : ℕ} {message : WorkerPrimaryMessage} :
      ((s.workers id).workers name).tx_primary[i]? = some message →
      Change sys s (.dispatch name id i) ((s.arrives name id i).dispatch name message)
  | our_digest {name : PublicKey} {batch : Digest × ℕ} {rest : List (Digest × ℕ)}
      {primary : Primary} : s.tx_our_digests name = batch :: rest →
      Primary.step (sys.primaries.node name) sys.primaries.header_size (s.primaries name)
        (.worker batch.1 batch.2) = some primary →
      Change sys s (.our_digest name) { s with
        primaries := Function.update s.primaries name primary
        tx_our_digests := Function.update s.tx_our_digests name rest }
  | others_digest {name : PublicKey} {batch : Digest × ℕ} {rest : List (Digest × ℕ)}
      {primary : Primary} : s.tx_others_digests name = batch :: rest →
      Primary.step (sys.primaries.node name) sys.primaries.header_size (s.primaries name)
        (.core (.payload batch.1 batch.2)) = some primary →
      Change sys s (.others_digest name) { s with
        primaries := Function.update s.primaries name primary
        tx_others_digests := Function.update s.tx_others_digests name rest }

theorem change_of_step (h : sys.step s e = some s') : Change sys s e s' := by
  cases e with
  | primary name e =>
    unfold step primary_step at h
    dsimp only at h
    split at h
    · cases h
    · rename_i hfrom
      obtain ⟨primary, hprimary, rfl⟩ := Option.map_eq_some_iff.mp h
      exact .primary (Bool.eq_false_iff.mpr hfrom) hprimary
  | workers id e =>
    obtain ⟨t, ht, rfl⟩ := Option.map_eq_some_iff.mp h
    exact .workers ht
  | dispatch name id i =>
    unfold step at h
    dsimp only at h
    split at h
    · cases h
    · obtain ⟨message, hmessage, rfl⟩ := Option.map_eq_some_iff.mp h
      exact .dispatch hmessage
  | our_digest name =>
    unfold step primary_step at h
    dsimp only at h
    split at h
    · cases h
    · rename_i hdigests
      obtain ⟨primary, hprimary, rfl⟩ := Option.map_eq_some_iff.mp h
      exact .our_digest hdigests hprimary
  | others_digest name =>
    unfold step primary_step at h
    dsimp only at h
    split at h
    · cases h
    · rename_i hdigests
      obtain ⟨primary, hprimary, rfl⟩ := Option.map_eq_some_iff.mp h
      exact .others_digest hdigests hprimary

/-! ## What the primaries know of their workers -/

/-- A worker of the authority sent the message to its primary. -/
def State.Sent (s : State) (name : PublicKey) (message : WorkerPrimaryMessage) : Prop :=
  ∃ id, message ∈ ((s.workers id).workers name).tx_primary

theorem tx_primary_of_change (h : Change sys s e s') (id : ℕ) (name : PublicKey) :
    ((s.workers id).workers name).tx_primary <+: ((s'.workers id).workers name).tx_primary := by
  cases h with
  | primary | our_digest | others_digest => exact List.prefix_rfl
  | @workers id' e t ht =>
    change _ <+: ((Function.update s.workers id' t id).workers name).tx_primary
    by_cases hid : id = id'
    · subst hid
      rw [Function.update_self]
      rcases Workers.workers_of_change (Workers.change_of_step ht) name with heq | ⟨e', hstep⟩
      · rw [heq]
      · exact (Worker.grows_of_change (Worker.change_of_step hstep)).1
    · rw [Function.update_of_ne hid]
  | @dispatch name' id' i message => cases message <;> exact List.prefix_rfl

theorem State.Sent.of_change {name : PublicKey} {message : WorkerPrimaryMessage}
    (h : s.Sent name message) (hchange : Change sys s e s') : s'.Sent name message := by
  obtain ⟨id, hm⟩ := h
  exact ⟨id, (tx_primary_of_change hchange id name).subset hm⟩

/-- What waits on the channels of a primary was sent by its workers. -/
structure Queued (s : State) : Prop where
  our : ∀ name, ∀ batch ∈ s.tx_our_digests name, s.Sent name (.OurBatch batch.1 batch.2)
  others : ∀ name, ∀ batch ∈ s.tx_others_digests name, s.Sent name (.OthersBatch batch.1 batch.2)

omit [Crypto] [Bincode] in
theorem forall_mem_update {P : PublicKey → Digest × ℕ → Prop} {f : PublicKey → List (Digest × ℕ)}
    (h : ∀ name, ∀ batch ∈ f name, P name batch) {name : PublicKey} {digests : List (Digest × ℕ)}
    (hdigests : ∀ batch ∈ digests, P name batch) :
    ∀ name', ∀ batch ∈ Function.update f name digests name', P name' batch :=
  (Function.forall_update_iff f (p := fun name digests => ∀ batch ∈ digests, P name batch)).mpr
    ⟨hdigests, fun name' _ => h name'⟩

theorem Queued.of_change (h : Queued s) (hchange : Change sys s e s') : Queued s' := by
  have hour : ∀ name, ∀ batch ∈ s.tx_our_digests name, s'.Sent name (.OurBatch batch.1 batch.2) :=
    fun name batch hb => (h.our name batch hb).of_change hchange
  have hothers : ∀ name, ∀ batch ∈ s.tx_others_digests name,
      s'.Sent name (.OthersBatch batch.1 batch.2) :=
    fun name batch hb => (h.others name batch hb).of_change hchange
  cases hchange with
  | primary | workers => exact ⟨hour, hothers⟩
  | @dispatch name id i message hmessage =>
    have hsent : s.Sent name message := ⟨id, List.mem_of_getElem? hmessage⟩
    cases message with
    | OurBatch digest worker_id =>
      refine ⟨forall_mem_update hour ?_, hothers⟩
      exact List.forall_mem_append.mpr ⟨hour name, List.forall_mem_singleton.mpr hsent⟩
    | OthersBatch digest worker_id =>
      refine ⟨hour, forall_mem_update hothers ?_⟩
      exact List.forall_mem_append.mpr ⟨hothers name, List.forall_mem_singleton.mpr hsent⟩
  | @our_digest name batch rest primary hdigests =>
    refine ⟨forall_mem_update hour fun batch hb => ?_, hothers⟩
    exact hour name batch (hdigests ▸ List.mem_cons_of_mem _ hb)
  | @others_digest name batch rest primary hdigests =>
    refine ⟨hour, forall_mem_update hothers fun batch hb => ?_⟩
    exact hothers name batch (hdigests ▸ List.mem_cons_of_mem _ hb)

theorem queued_of_run (hrun : sys.run store batches events = some s) : Queued s := by
  induction events using List.reverseRecOn generalizing s with
  | nil =>
    cases hrun
    exact ⟨fun _ => nofun, fun _ => nofun⟩
  | append_singleton events e ih =>
    obtain ⟨before, hbefore, hstep⟩ := run_concat.mp hrun
    exact (ih hbefore).of_change (change_of_step hstep)

/-- A worker of the authority sent what the event of its primary brings. -/
def State.Reported (s : State) : PublicKey × Primary.Event → Prop
  | (name, .worker digest worker_id) => s.Sent name (.OurBatch digest worker_id)
  | (name, .core (.payload digest worker_id)) => s.Sent name (.OthersBatch digest worker_id)
  | _ => True

omit [Crypto] [Bincode] in
theorem State.reported_of_not_from_workers {name : PublicKey} {e : Primary.Event}
    (h : from_workers e = false) : s.Reported (name, e) := by
  cases e with
  | core e =>
    cases e with
    | payload => cases h
    | input | committed => trivial
  | worker => cases h
  | core_receives | elapse | propose | timer | proposer_receives => trivial

theorem State.Reported.of_change {d : PublicKey × Primary.Event} (h : s.Reported d)
    (hchange : Change sys s e s') : s'.Reported d := by
  obtain ⟨name, e'⟩ := d
  cases e' with
  | core e' =>
    cases e' with
    | payload => exact State.Sent.of_change h hchange
    | input | committed => trivial
  | worker => exact State.Sent.of_change h hchange
  | core_receives | elapse | propose | timer | proposer_receives => trivial

/-- The primaries make a run of their own, where each digest that comes from a worker was sent by
it. -/
theorem primaries_of_run {honest : Set PublicKey} (hrun : sys.run store batches events = some s)
    (hfrom : sys.FromTasks honest store batches events) :
    ∃ own, sys.primaries.run store own = some s.primaries ∧
      sys.primaries.FromTasks honest store own ∧ ∀ d ∈ own, s.Reported d := by
  refine part_of_run
    (parties.step fun name => Primary.step (sys.primaries.node name) sys.primaries.header_size)
    State.primaries (C := fun before d => d.1 ∈ honest → (before d.1).FromTasks d.2)
    (D := State.Reported) hrun (hfrom.imp fun pre e htasks before after hbefore hstep => ?_)
    fun s s' e d hstep hd => hd.of_change (change_of_step hstep)
  have hqueued := (queued_of_run hbefore)
  have hchange := change_of_step hstep
  cases hchange with
  | @primary name e primary hworkers hprimary =>
    exact Or.inr ⟨(name, e), parties.step_eq_some.mpr ⟨primary, hprimary, rfl⟩,
      fun hname => htasks before hbefore name e rfl hname,
      State.reported_of_not_from_workers hworkers⟩
  | workers => exact Or.inl rfl
  | @dispatch name id i message => cases message <;> exact Or.inl rfl
  | @our_digest name batch rest primary hdigests hprimary =>
    refine Or.inr ⟨(name, .worker batch.1 batch.2),
      parties.step_eq_some.mpr ⟨primary, hprimary, rfl⟩, fun _ => nofun, ?_⟩
    exact hqueued.our name batch (hdigests ▸ List.mem_cons_self)
  | @others_digest name batch rest primary hdigests hprimary =>
    refine Or.inr ⟨(name, .core (.payload batch.1 batch.2)),
      parties.step_eq_some.mpr ⟨primary, hprimary, rfl⟩, fun _ => nofun, ?_⟩
    exact hqueued.others name batch (hdigests ▸ List.mem_cons_self)

/-- The workers of an id make a run of their own, on their events. -/
theorem workers_of_run (hrun : sys.run store batches events = some s) (id : ℕ) :
    ∃ own, (sys.workers id).run (batches id) own = some (s.workers id) ∧
      ∀ e ∈ own, .workers id e ∈ events := by
  have hmoves : Each (fun pre e => ∀ before after, sys.run store batches pre = some before →
      sys.step before e = some after → Moves (sys.workers id).step (fun s : State => s.workers id)
        (fun _ _ => True) (fun _ e' => .workers id e' ∈ events) before after) events := by
    rintro pre e post heq before after - hstep
    cases change_of_step hstep with
    | primary | our_digest | others_digest => exact Or.inl rfl
    | @workers id' e t ht =>
      by_cases hid : id' = id
      · subst hid
        refine Or.inr ⟨e, ?_, trivial, by simp [heq]⟩
        dsimp only
        rw [ht, Function.update_self]
      · exact Or.inl (Function.update_of_ne (Ne.symm hid) _ _)
    | @dispatch name id' i message => cases message <;> exact Or.inl rfl
  obtain ⟨own, hown, -, hall⟩ := part_of_run _ _ hrun hmoves fun _ _ _ _ _ h => h
  exact ⟨own, hown, hall⟩

end

end Authorities

end sailfish.node
