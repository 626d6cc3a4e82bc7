-- The laws of available batches: the batches of a certified header are in the stores of
-- honest workers, and so are those of each header that an honest primary makes.
import Mathlib
import Sailfish.Authorities

open Std splits sailfish.crypto sailfish.config sailfish.primary sailfish.worker

namespace sailfish.primary

namespace Core

variable [Crypto] {node : Node} {s s' : Core} {e : Event}

theorem Effect.batches {P : Header → Prop} {T R : ℕ → Prop} (h : Effect node P T R s s') :
    s'.store.batches = s.store.batches := by
  cases h <;> rfl

/-- Only the payload receiver writes markers. -/
theorem batches_of_step (hstep : step node s e = some s') :
    s'.store.batches = s.store.batches ∨ ∃ digest worker_id, e = .payload digest worker_id ∧
      s'.store.batches = (digest, worker_id) :: s.store.batches := by
  cases e with
  | input input =>
    obtain ⟨s₁, heffects, rfl⟩ := step_effects (brings_any input) (fun _ _ => trivial) hstep
    have hstart : (s.start input).store.batches = s.store.batches := by cases input <;> rfl
    have h₁ : s₁.store.batches = s.store.batches :=
      effects.of_steps (P := fun s' => s'.store.batches = s.store.batches)
        (fun _ _ heffect heq => heffect.batches.trans heq) heffects hstart
    refine Or.inl ?_
    unfold Core.cleanup
    dsimp only
    split <;> exact h₁
  | payload digest worker_id =>
    cases hstep
    exact Or.inr ⟨digest, worker_id, rfl, rfl⟩
  | committed round =>
    unfold Core.step at hstep
    dsimp only at hstep
    split at hstep <;> cases hstep <;> exact Or.inl rfl

end Core

namespace Primary

variable [Crypto] {node : Node} {header_size : ℕ} {s : Primary} {store : Store}
  {events : List Event}

/-- A marker was there at the start, or the payload receiver wrote it. -/
theorem marker_of_run (hrun : run node header_size store events = some s) {batch : Digest × ℕ}
    (hbatch : batch ∈ s.core.store.batches) :
    batch ∈ store.batches ∨ .core (.payload batch.1 batch.2) ∈ events := by
  induction events using List.reverseRecOn generalizing s with
  | nil =>
    cases hrun
    exact Or.inl hbatch
  | append_singleton events e ih =>
    obtain ⟨before, hbefore, hstep⟩ := run_concat.mp hrun
    have hold : batch ∈ before.core.store.batches →
        batch ∈ store.batches ∨ .core (.payload batch.1 batch.2) ∈ events ++ [e] :=
      fun hb => (ih hbefore hb).imp_right (List.mem_append_left _)
    cases change_of_step hstep with
    | @core e' _ hcore =>
      rcases Core.batches_of_step hcore with heq | ⟨digest, worker_id, rfl, heq⟩
      · exact hold (heq ▸ hbatch)
      · rcases List.mem_cons.mp (heq ▸ hbatch) with rfl | hb
        · exact Or.inr (List.mem_append_right _ List.mem_cons_self)
        · exact hold hb
    | core_receives _ hcore =>
      rcases Core.batches_of_step hcore with heq | ⟨_, _, he, -⟩
      · exact hold (heq ▸ hbatch)
      · cases he
    | elapse hcore | propose hcore => exact hold (hcore ▸ hbatch)
    | receive _ _ _ hcore => exact hold (hcore ▸ hbatch)

end Primary

end sailfish.primary

namespace sailfish.node

namespace Authorities

/-- The worker of the authority for the batch has its bytes in the store. -/
def State.Stores [Crypto] [Bincode] (s : State) (name : PublicKey) (batch : Digest × ℕ) : Prop :=
  ∃ bytes, ((s.workers batch.2).workers name).store[batch.1]? = some bytes ∧
    Crypto.sha512 bytes = batch.1 ∧ IsBatch bytes

section

variable [Crypto] [Bincode] {sys : Authorities} {honest : Set PublicKey}
  {store : PublicKey → Store} {batches : ℕ → PublicKey → ExtTreeMap Digest Bytes}
  {events : List Event} {s : State} {name : PublicKey}

/-- What the stores of the workers hold at the start is in order, and each marker in the store of a
primary has its batch with a worker. -/
structure Starts (honest : Set PublicKey) (store : PublicKey → Store)
    (batches : ℕ → PublicKey → ExtTreeMap Digest Bytes) : Prop where
  addressed : ∀ id, ∀ name ∈ honest, Worker.Addressed (batches id name)
  markers : ∀ name ∈ honest, ∀ batch ∈ (store name).batches, batch.1 ∈ batches batch.2 name

/-- The batches that the honest workers make are read back. -/
def Reads (honest : Set PublicKey) (s : State) : Prop :=
  ∀ id, ∀ name ∈ honest, ∀ m ∈ ((s.workers id).workers name).batch_maker.sent, Bincode.Reads m.batch

theorem kept_of_run (hrun : sys.run store batches events = some s)
    (hstarts : Starts honest store batches) (hreads : Reads honest s) (hname : name ∈ honest) (id : ℕ) :
    ∃ own, Worker.Kept ((sys.workers id).node name) own ((s.workers id).workers name) := by
  obtain ⟨turns, hturns, -⟩ := workers_of_run hrun id
  obtain ⟨own, hown⟩ := Workers.worker_of_run hturns name
  exact ⟨own, Worker.kept_of_run (hstarts.addressed id name hname) hown (hreads id name hname)⟩

/-- The marker of a batch in the store of an honest primary shows that a worker has the batch. -/
theorem stores_of_marker (hrun : sys.run store batches events = some s)
    (hfrom : sys.FromTasks honest store batches events) (hstarts : Starts honest store batches)
    (hreads : Reads honest s) (hname : name ∈ honest) {batch : Digest × ℕ}
    (hbatch : batch ∈ (s.primaries name).core.store.batches) : s.Stores name batch := by
  have hmem : batch.1 ∈ ((s.workers batch.2).workers name).store := by
    obtain ⟨own, hown, -, hreported⟩ := primaries_of_run hrun hfrom
    rcases Primary.marker_of_run (System.primary_of_run hown name) hbatch with hstart | hevent
    · obtain ⟨turns, hturns, -⟩ := workers_of_run hrun batch.2
      obtain ⟨worker_own, hworker⟩ := Workers.worker_of_run hturns name
      exact Worker.stored_of_run hworker (hstarts.markers name hname batch hstart)
    · obtain ⟨⟨name', e⟩, he, heq⟩ := List.mem_filterMap.mp hevent
      dsimp only at heq
      split at heq <;> cases heq
      rename_i heq
      subst heq
      obtain ⟨id, hsent⟩ := hreported _ he
      obtain ⟨_, hkept⟩ := kept_of_run hrun hstarts hreads hname id
      obtain ⟨hid, hd, -⟩ := hkept.reported_others _ _ hsent
      rw [(sys.workers id).of_id, sys.of_id] at hid
      rw [hid]
      exact hd
  obtain ⟨bytes, hbytes⟩ := Option.isSome_iff_exists.mp (ExtTreeMap.mem_iff_isSome_getElem?.mp hmem)
  obtain ⟨_, hkept⟩ := kept_of_run hrun hstarts hreads hname batch.2
  exact ⟨bytes, hbytes, hkept.store _ _ hbytes⟩

/-- For every run of the authorities of a committee, in any order of the steps of their primaries
and workers and of the links between these, whatever the others send: when the authorities that are
not honest have less stake than the validity threshold, the honest authorities whose own workers
have every batch of an accepted certificate in their stores, other than for a header of their own,
have at least the stake of the validity threshold. It takes that a header with the digest of the
certified one that they voted for agrees with it. -/
theorem certified_batches_are_stored (hb : BatchSound) (sys : Authorities)
    (hf : sys.primaries.committee.Fits) (honest : Set PublicKey)
    (hweight : sys.primaries.committee.weight honestᶜ < sys.primaries.committee.validity_threshold)
    (store : PublicKey → Store) (batches : ℕ → PublicKey → ExtTreeMap Digest Bytes)
    (hstarts : Starts honest store batches) (events : List Event) (s : State)
    (hrun : sys.run store batches events = some s)
    (hfrom : sys.FromTasks honest store batches events)
    (hreads : Reads honest s) (hunforged : System.Unforged honest s.primaries)
    (hfit : ∀ name ∈ honest, ∀ v ∈ (s.primaries name).core.voted, v.vote.round < 2 ^ 64)
    (c : Certificate) (hc : System.Certified sys.primaries honest s.primaries c)
    (hdigest : ∀ name ∈ honest, ∀ v ∈ (s.primaries name).core.voted,
      v.header.digest = c.header.digest → v.header.Agrees c.header) :
    sys.primaries.committee.validity_threshold ≤ sys.primaries.committee.weight
      {name | name ∈ honest ∧
        (c.header.author ≠ name → ∀ batch ∈ c.header.payload.toList, s.Stores name batch)} := by
  obtain ⟨own, hown, htasks, -⟩ := primaries_of_run hrun hfrom
  have hholds : {a | c.SignedBy a} ⊆ {name | name ∈ honest ∧
      (c.header.author ≠ name → ∀ batch ∈ c.header.payload.toList, s.Stores name batch)} ∪
        honestᶜ := by
    intro name hsigned
    by_cases hname : name ∈ honest
    · have havailable :=
        System.available_of_signed hown htasks hunforged hfit hc hdigest hname hsigned
      exact Or.inl ⟨hname, fun hother batch hbatch =>
        stores_of_marker hrun hfrom hstarts hreads hname
          (havailable.batches hother batch hbatch)⟩
    · exact Or.inr hname
  exact Committee.validity_le_weight_of_quorum hf hweight
    (Nat.le_trans (Certificate.quorum_signed hb hc.accepted hc.not_genesis)
      (Committee.weight_mono hholds))

end

/-! ## A run on a fixed input -/

def four_authorities : Authorities where
  primaries := System.four_primaries
  workers id :=
    { committee := .four
      id
      node := fun name => { Worker.first_worker with name, id }
      named := fun _ => rfl
      of_committee := fun _ => rfl
      of_id := fun _ => rfl }
  of_committee _ := rfl
  of_id _ := rfl

/-- A header of authority 4 for round 1, with the batch of the sample. -/
def delivered_header : Header :=
  letI := crypto.sample
  { System.outsider with payload := ExtTreeMap.ofList [(Worker.one_digest, 0)] }.signed

def delivered_certificate : Certificate :=
  letI := crypto.sample
  delivered_header.certified [1, 2, 3]

/-- The signatures that are valid: of the header, and of the votes for it. -/
def delivered_signed : List (PublicKey × Digest) :=
  letI := crypto.sample
  (4, delivered_header.digest) :: [1, 2, 3].map fun name => (name, delivered_certificate.digest)

/-- The batch comes to the workers 1, 2 and 3, then their reports and the header come to their
primaries. -/
def delivers : List Event :=
  [1, 2, 3].flatMap fun name =>
    [.workers 0 (.turn name (.dispatch Worker.one_batch.bytes)),
      .workers 0 (.turn name .process_others), .dispatch name 0 0, .others_digest name,
      .primary name (.core (.input (.primaries (.header delivered_header))))]

/-- Then worker 1 makes a batch of its own, and its primary a header with it. -/
def proposes : List Event :=
  delivers ++ Workers.one_reported.map (.workers 0) ++
    [.dispatch 1 0 1, .primary 1 .propose, .our_digest 1, .primary 1 .propose]

section

attribute [local instance] Worker.one_bincode

@[reducible] def delivered_crypto : Crypto := crypto.sample_signed delivered_signed

attribute [local instance] delivered_crypto

def proposed : State :=
  (four_authorities.run (fun _ => .empty) (fun _ _ => ∅) proposes).get (by decide +kernel)

theorem proposed_run :
    four_authorities.run (fun _ => .empty) (fun _ _ => ∅) proposes = some proposed :=
  (Option.some_get _).symm

theorem proposed_starts : Starts {a | a ∈ [1, 2, 3]} (fun _ => .empty) (fun _ _ => ∅) where
  addressed := fun _ _ _ d bytes hd => by simp at hd
  markers := fun _ _ => nofun

theorem proposed_fromTasks :
    four_authorities.FromTasks {a | a ∈ [1, 2, 3]} (fun _ => .empty) (fun _ _ => ∅) proposes := by
  have hall : (proposes.all fun
      | .primary name e => System.foreign (name, e)
      | _ => true) = true := by decide +kernel
  rintro pre e post heq before - name e' rfl -
  exact System.arrives_of_foreign (List.all_eq_true.mp hall (.primary name e') (by simp [heq])) _

theorem proposed_reads : Reads {a | a ∈ [1, 2, 3]} proposed := by
  intro id name hname m hm
  by_cases hid : id = 0
  · subst hid
    have hall : (([1, 2, 3] : List PublicKey).all fun name =>
        ((proposed.workers 0).workers name).batch_maker.sent.all fun m =>
          Bincode.deserialize (Bincode.serialize m.batch) == some m.batch) = true := by
      decide +kernel
    exact beq_iff_eq.mp (List.all_eq_true.mp (List.all_eq_true.mp hall name hname) m hm)
  · -- the other workers stay as they started
    have hall : (proposes.all fun
        | .workers id _ => id == 0
        | _ => true) = true := by decide +kernel
    obtain ⟨own, hown, hevents⟩ := workers_of_run proposed_run id
    have hnil : own = [] := by
      refine List.eq_nil_iff_forall_not_mem.mpr fun e he => hid ?_
      exact beq_iff_eq.mp (List.all_eq_true.mp hall _ (hevents e he))
    rw [hnil] at hown
    rw [← Option.some.inj hown] at hm
    cases hm

theorem certified_batches_are_stored_delivered :
    delivered_header.payload.toList = [(Worker.one_digest, 0)] ∧
      Committee.four.validity_threshold ≤ Committee.four.weight {name | name ∈ {a | a ∈ [1, 2, 3]} ∧
        (delivered_header.author ≠ name →
          ∀ batch ∈ delivered_header.payload.toList, proposed.Stores name batch)} := by
  refine ⟨by decide +kernel, certified_batches_are_stored (sample_signed_batchSound _)
    four_authorities (by decide +kernel) {a | a ∈ [1, 2, 3]} Committee.weight_compl_three
    (fun _ => .empty) (fun _ _ => ∅) proposed_starts proposes proposed proposed_run
    proposed_fromTasks proposed_reads (System.unforged_of_checked (by decide +kernel))
    (System.fit_of_checked (by decide +kernel)) delivered_certificate
    (System.certified_of_checked (by decide +kernel)) fun name hname v hv _ => ?_⟩
  have hall : (([1, 2, 3] : List PublicKey).all fun name =>
      (proposed.primaries name).core.voted.all fun v => v.header == delivered_header) = true := by
    decide +kernel
  have heq := beq_iff_eq.mp (List.all_eq_true.mp (List.all_eq_true.mp hall name hname) v hv)
  rw [heq]
  exact ⟨rfl, rfl, rfl, rfl⟩

end

end Authorities

end sailfish.node
