-- A worker (`worker/src/worker.rs`): its batch maker, its quorum waiter, its processors
-- (`processor.rs`), its helper (`helper.rs`) and its synchronizer, around one store. The
-- capacities of the channels are left out, and so is the connection to the primary.
import Mathlib
import Sailfish.QuorumWaiter
import Sailfish.WorkerSynchronizer
import Sailfish.Lib.Base64

open Std splits sailfish.crypto sailfish.config

namespace sailfish.worker

namespace BatchMaker

variable {s : BatchMaker}

/-- A turn sends at most one batch more, to the workers that the batch maker knows. -/
theorem step_sent (e : Event) : (s.step e).workers = s.workers ∧
    ∃ new, (s.step e).sent = s.sent ++ new ∧
      ∀ m ∈ new, m.handlers = s.workers ∧ ∃ batch, m.batch = .Batch batch := by
  have hseal : ∀ s : BatchMaker, s.seal_batch.workers = s.workers ∧
      ∃ new, s.seal_batch.sent = s.sent ++ new ∧
        ∀ m ∈ new, m.handlers = s.workers ∧ ∃ batch, m.batch = .Batch batch :=
    fun s => ⟨rfl, _, rfl, List.forall_mem_singleton.mpr ⟨rfl, _, rfl⟩⟩
  have hstay : s.workers = s.workers ∧ ∃ new, s.sent = s.sent ++ new ∧
      ∀ m ∈ new, m.handlers = s.workers ∧ ∃ batch, m.batch = .Batch batch :=
    ⟨rfl, [], (List.append_nil _).symm, nofun⟩
  cases e with
  | transaction t =>
    unfold step
    dsimp only
    split
    · exact hseal _
    · exact hstay
  | timer =>
    unfold step
    dsimp only
    split
    · exact hstay
    · exact hseal _

end BatchMaker

namespace QuorumWaiter

variable {committee : Committee} {stake : ℕ} {handlers : List PublicKey} {s : QuorumWaiter}

/-- Each batch is sent to the same authorities: those that acknowledged it and those that it waits
for. A batch that was delivered has a quorum of acknowledgements, with the stake of the node. -/
structure Tallied (committee : Committee) (stake : ℕ) (handlers : List PublicKey) (s : QuorumWaiter) :
    Prop where
  rx_message : ∀ m ∈ s.rx_message, m.handlers = handlers
  taken : ∀ w ∈ s.taken, (w.acks ++ w.wait_for_quorum).Perm handlers ∧
    w.total_stake ≤ acknowledged committee stake w
  tx_batch : ∀ batch ∈ s.tx_batch, ∃ w ∈ s.finished, w.batch = batch ∧
    committee.quorum_threshold ≤ acknowledged committee stake w

theorem tallied_spawn : Tallied committee stake handlers spawn := ⟨nofun, nofun, nofun⟩

/-- The handler that resolves goes from those that are left to those that acknowledged. -/
theorem waiter_perm (committee : Committee) {w : Broadcast} {i : ℕ} {name : PublicKey}
    (h : w.wait_for_quorum[i]? = some name) :
    ((waiter committee w i name).acks ++ (waiter committee w i name).wait_for_quorum).Perm
      (w.acks ++ w.wait_for_quorum) := by
  obtain ⟨hi, rfl⟩ := List.getElem?_eq_some_iff.mp h
  unfold waiter
  dsimp only
  rw [List.append_assoc, List.singleton_append]
  exact (List.getElem_cons_eraseIdx_perm hi).append_left w.acks

theorem waiter_stake {w : Broadcast} {i : ℕ} {name : PublicKey}
    (h : w.total_stake ≤ acknowledged committee stake w) :
    (waiter committee w i name).total_stake ≤
      acknowledged committee stake (waiter committee w i name) := by
  rw [acknowledged_waiter]
  exact Nat.le_trans (u32_le _) (Nat.add_le_add_right h _)

theorem Tallied.resolve (h : Tallied committee stake handlers s) {w : Broadcast} {i : ℕ}
    {name : PublicKey} (hw : s.waiting = some w) (hname : w.wait_for_quorum[i]? = some name) :
    Tallied committee stake handlers (s.resolve committee w i name) := by
  have hw' : w ∈ s.taken := by simp [taken_of_waiting hw]
  have hperm := (waiter_perm committee hname).trans (h.taken w hw').1
  have hstake : (waiter committee w i name).total_stake ≤ _ := waiter_stake (h.taken w hw').2
  refine ⟨?_, ?_, ?_⟩
  · rw [rx_message_resolve]
    exact h.rx_message
  · rw [taken_resolve]
    intro x hx
    rcases List.mem_append.mp hx with hx | hx
    · exact h.taken x (by simp [taken_of_waiting hw, hx])
    · rw [List.mem_singleton.mp hx]
      exact ⟨hperm, hstake⟩
  · unfold QuorumWaiter.resolve
    dsimp only
    split
    · rename_i hreached
      intro batch hbatch
      rcases List.mem_append.mp hbatch with hbatch | hbatch
      · obtain ⟨x, hx, heq⟩ := h.tx_batch batch hbatch
        exact ⟨x, List.mem_append_left _ hx, heq⟩
      · rw [List.mem_singleton.mp hbatch]
        exact ⟨_, List.mem_append_right _ List.mem_cons_self, rfl, Nat.le_trans hreached hstake⟩
    · exact h.tx_batch

theorem Tallied.step (h : Tallied committee stake handlers s) {e : Event}
    (hm : ∀ m, e = .message m → m.handlers = handlers) :
    Tallied committee stake handlers (s.step committee stake e) := by
  rcases step_cases committee stake s e with
    ⟨m, rfl, heq⟩ | ⟨m, rest, rfl, -, hrx, heq⟩ | ⟨i, w, name, rfl, hresolving, hw, heq⟩ | ⟨-, heq, -⟩
  · rw [heq]
    refine ⟨List.forall_mem_append.mpr ⟨h.rx_message, ?_⟩, h.taken, h.tx_batch⟩
    exact List.forall_mem_singleton.mpr (hm m rfl)
  · rw [heq]
    have hhandlers := List.forall_mem_cons.mp (hrx ▸ h.rx_message)
    refine ⟨hhandlers.2, ?_, fun batch hbatch => ?_⟩
    · refine List.forall_mem_append.mpr ⟨h.taken, List.forall_mem_singleton.mpr ⟨?_, ?_⟩⟩
      · exact List.Perm.of_eq hhandlers.1
      · exact Nat.le_add_right _ _
    · obtain ⟨x, hx, hbatch⟩ := h.tx_batch batch hbatch
      exact ⟨x, List.mem_append_left _ hx, hbatch⟩
  · rw [heq]
    exact h.resolve hw (resolving_eq_some.mp hresolving).2
  · rw [heq]
    exact h

/-- What was delivered stays. -/
theorem tx_batch_prefix (committee : Committee) (stake : ℕ) (s : QuorumWaiter) (events : List Event) :
    s.tx_batch <+: (events.foldl (step committee stake) s).tx_batch := by
  induction events generalizing s with
  | nil => exact List.prefix_rfl
  | cons e events ih =>
    refine List.IsPrefix.trans ?_ (ih (s.step committee stake e))
    rcases step_cases committee stake s e with
      ⟨_, -, heq⟩ | ⟨_, _, -, -, -, heq⟩ | ⟨_, _, _, -, -, -, heq⟩ | ⟨-, heq, -⟩
    · rw [heq]
    · rw [heq]
    · rw [heq, tx_batch_resolve]
      exact List.prefix_append _ _
    · rw [heq]

end QuorumWaiter

/-- What the workers take from the `bincode` package. `none` is an error. -/
class Bincode where
  serialize : WorkerMessage → Bytes
  deserialize : Bytes → Option WorkerMessage

/-- The documented behaviour of `bincode`: a message that was serialized is read back. -/
def Bincode.Reads [Bincode] (m : WorkerMessage) : Prop := deserialize (serialize m) = some m

/-- The bytes of a message, for runs on fixed inputs: numbers have their lowest byte first, and a
key is the text of its `Serialize` instance. -/
def WorkerMessage.bytes : WorkerMessage → Bytes
  | .Batch batch => to_le_bytes 4 0 ++ to_le_bytes 8 batch.length ++
    batch.flatMap fun transaction => to_le_bytes 8 transaction.length ++ transaction
  | .BatchRequest digests origin =>
    let key := (base64.encode_chars (as_ref origin)).map fun c => UInt8.ofNat c.toNat
    to_le_bytes 4 1 ++ to_le_bytes 8 digests.length ++ digests.flatMap as_ref ++
      to_le_bytes 8 key.length ++ key

/-- A small instance, which reads back the messages of a list. -/
@[reducible] def Bincode.sample (messages : List WorkerMessage) : Bincode where
  serialize := WorkerMessage.bytes
  deserialize bytes := messages.find? (·.bytes == bytes)

/-- The bytes of a batch. -/
def IsBatch [Bincode] (bytes : Bytes) : Prop :=
  ∃ batch, Bincode.deserialize bytes = some (.Batch batch)

/-- The messages sent by the workers to their primary. -/
inductive WorkerPrimaryMessage
  /-- The worker indicates it sealed a new batch. -/
  | OurBatch (digest : Digest) (worker_id : ℕ)
  /-- The worker indicates it received a batch's digest from another authority. -/
  | OthersBatch (digest : Digest) (worker_id : ℕ)
deriving DecidableEq

/-- The tasks of a worker, with what waits on their channels. -/
structure Worker where
  batch_maker : BatchMaker
  quorum_waiter : QuorumWaiter
  /-- How many of the batches of the quorum waiter the processor of our own batches took. -/
  processed : ℕ
  /-- The batches of others that wait for their processor. -/
  rx_batch : List Bytes
  /-- The requests that wait for the helper. -/
  rx_request : List (List Digest × PublicKey)
  synchronizer : Synchronizer
  store : ExtTreeMap Digest Bytes
  /-- What was sent to the primary. -/
  tx_primary : List WorkerPrimaryMessage
  /-- The batches that the helper sent, with the authorities that it sent them to. -/
  answers : List (PublicKey × Bytes)

namespace Worker

/-- What happens to a worker. -/
inductive Event
  | batch_maker (e : BatchMaker.Event)
  /-- The quorum waiter takes the next batch. -/
  | receive
  /-- A handler of the quorum waiter resolves. -/
  | resolve (i : ℕ)
  /-- The processor of our own batches takes the next one. -/
  | process_own
  /-- A frame from another worker. -/
  | dispatch (serialized : Bytes)
  /-- The processor of the batches of others takes the next one. -/
  | process_others
  /-- The helper takes the next request. -/
  | help
  | synchronizer (e : Synchronizer.Event)
deriving DecidableEq

section

variable [Crypto] [Bincode] (node : Node)

def spawn (store : ExtTreeMap Digest Bytes) : Worker where
  batch_maker := .spawn node.batch_size (node.committee.others_workers node.name node.id)
  quorum_waiter := .spawn
  processed := 0
  rx_batch := []
  rx_request := []
  synchronizer := .spawn
  store := store
  tx_primary := []
  answers := []

/-- The batch maker goes on, and what it sends comes to the quorum waiter. -/
def make_batch (s : Worker) (e : BatchMaker.Event) : Worker :=
  let batch_maker := s.batch_maker.step e
  let messages := batch_maker.sent.drop s.batch_maker.sent.length
  let quorum_waiter := (messages.map QuorumWaiter.Event.message).foldl
    (QuorumWaiter.step node.committee (node.committee.stake node.name)) s.quorum_waiter
  { s with batch_maker, quorum_waiter }

/-- Hash and store the batch, and deliver its digest. -/
def process (s : Worker) (own_digest : Bool) (batch : Bytes) : Worker :=
  let digest := Crypto.sha512 batch
  let message :=
    match own_digest with
    | true => .OurBatch digest node.id
    | false => .OthersBatch digest node.id
  { s with store := s.store.insert digest batch, tx_primary := s.tx_primary ++ [message] }

/-- Reply to the request (the best we can). -/
def answer (s : Worker) (digests : List Digest) (origin : PublicKey) : Worker :=
  match node.committee.worker origin node.id with
  | .ok _ =>
    { s with answers := s.answers ++ (digests.filterMap fun d => s.store[d]?).map (origin, ·) }
  | .error _ => s

/-- The handler of the messages of other workers. -/
def dispatch (s : Worker) (serialized : Bytes) : Worker :=
  match Bincode.deserialize serialized with
  | some (.Batch _) => { s with rx_batch := s.rx_batch ++ [serialized] }
  | some (.BatchRequest missing requestor) =>
    { s with rx_request := s.rx_request ++ [(missing, requestor)] }
  | none => s

/-- One event. `none` is an event that cannot happen. -/
def step (s : Worker) : Event → Option Worker
  | .batch_maker e => some (s.make_batch node e)
  | .receive =>
    some { s with
      quorum_waiter := s.quorum_waiter.step node.committee (node.committee.stake node.name) .receive }
  | .resolve i =>
    some { s with
      quorum_waiter :=
        s.quorum_waiter.step node.committee (node.committee.stake node.name) (.resolve i) }
  | .process_own => do
    let batch ← s.quorum_waiter.tx_batch[s.processed]?
    return process node { s with processed := s.processed + 1 } true (Bincode.serialize batch)
  | .dispatch serialized => some (s.dispatch serialized)
  | .process_others =>
    match s.rx_batch with
    | [] => none
    | batch :: rx_batch => some (process node { s with rx_batch } false batch)
  | .help =>
    match s.rx_request with
    | [] => none
    | (digests, origin) :: rx_request => some (answer node { s with rx_request } digests origin)
  | .synchronizer e => do
    let synchronizer ← s.synchronizer.step node s.store e
    return { s with synchronizer }

/-- The run of a worker from its start, with what is in the store then. -/
def run (store : ExtTreeMap Digest Bytes) (events : List Event) : Option Worker :=
  events.foldlM (step node) (spawn node store)

variable {node : Node} {s s' : Worker} {e : Event}

theorem run_concat {store : ExtTreeMap Digest Bytes} {events : List Event} :
    run node store (events ++ [e]) = some s' ↔
      ∃ s, run node store events = some s ∧ step node s e = some s' := by
  unfold run
  rw [List.foldlM_append]
  simp [Option.bind_eq_some_iff]

/-- What an event does. -/
inductive Change (node : Node) (s : Worker) : Event → Worker → Prop
  | make_batch {e : BatchMaker.Event} : Change node s (.batch_maker e) (s.make_batch node e)
  | receive : Change node s .receive { s with
      quorum_waiter := s.quorum_waiter.step node.committee (node.committee.stake node.name) .receive }
  | resolve {i : ℕ} : Change node s (.resolve i) { s with
      quorum_waiter :=
        s.quorum_waiter.step node.committee (node.committee.stake node.name) (.resolve i) }
  | process_own {batch : WorkerMessage} : s.quorum_waiter.tx_batch[s.processed]? = some batch →
      Change node s .process_own (process node { s with processed := s.processed + 1 } true
        (Bincode.serialize batch))
  | dispatch {serialized : Bytes} : Change node s (.dispatch serialized) (s.dispatch serialized)
  | process_others {batch : Bytes} {rx_batch : List Bytes} : s.rx_batch = batch :: rx_batch →
      Change node s .process_others (process node { s with rx_batch } false batch)
  | help {digests : List Digest} {origin : PublicKey} {rx_request : List (List Digest × PublicKey)} :
      s.rx_request = (digests, origin) :: rx_request →
      Change node s .help (answer node { s with rx_request } digests origin)
  | synchronizer {e : Synchronizer.Event} {synchronizer : Synchronizer} :
      s.synchronizer.step node s.store e = some synchronizer →
      Change node s (.synchronizer e) { s with synchronizer }

theorem change_of_step (h : step node s e = some s') : Change node s e s' := by
  cases e with
  | batch_maker e =>
    cases h
    exact .make_batch
  | receive =>
    cases h
    exact .receive
  | resolve i =>
    cases h
    exact .resolve
  | process_own =>
    simp only [step, Option.pure_def, Option.bind_eq_bind, Option.bind_eq_some_iff] at h
    obtain ⟨batch, hbatch, heq⟩ := h
    cases heq
    exact .process_own hbatch
  | dispatch serialized =>
    cases h
    exact .dispatch
  | process_others =>
    unfold step at h
    dsimp only at h
    split at h <;> cases h
    rename_i hrx
    exact .process_others hrx
  | help =>
    unfold step at h
    dsimp only at h
    split at h <;> cases h
    rename_i hrx
    exact .help hrx
  | synchronizer e =>
    simp only [step, Option.pure_def, Option.bind_eq_bind, Option.bind_eq_some_iff] at h
    obtain ⟨synchronizer, hstep, heq⟩ := h
    cases heq
    exact .synchronizer hstep

omit [Crypto] in
/-- A frame only comes to a channel. -/
theorem dispatch_eq (s : Worker) (serialized : Bytes) : ∃ rx_batch rx_request,
    s.dispatch serialized = { s with rx_batch, rx_request } := by
  unfold dispatch
  split <;> exact ⟨_, _, rfl⟩

omit [Crypto] [Bincode] in
/-- The helper only sends. -/
theorem answer_eq (node : Node) (s : Worker) (digests : List Digest) (origin : PublicKey) :
    ∃ answers, s.answer node digests origin = { s with answers } := by
  unfold answer
  split <;> exact ⟨_, rfl⟩

/-! ## The batches that are sent -/

/-- The quorum waiter gets what the batch maker sends, which are batches for the other workers. -/
structure Sends (node : Node) (s : Worker) : Prop where
  workers : s.batch_maker.workers = node.committee.others_workers node.name node.id
  sent : ∀ m ∈ s.batch_maker.sent,
    m.handlers = node.committee.others_workers node.name node.id ∧ ∃ batch, m.batch = .Batch batch
  runs : ∃ events, s.quorum_waiter =
      QuorumWaiter.run node.committee (node.committee.stake node.name) events ∧
    QuorumWaiter.queued events = s.batch_maker.sent.map (·.batch)
  tallied : QuorumWaiter.Tallied node.committee (node.committee.stake node.name)
    (node.committee.others_workers node.name node.id) s.quorum_waiter

omit [Crypto] [Bincode] in
theorem Sends.order (h : Sends node s) : s.quorum_waiter.taken.map (·.batch) ++
    s.quorum_waiter.rx_message.map (·.batch) = s.batch_maker.sent.map (·.batch) := by
  obtain ⟨events, hrun, hqueued⟩ := h.runs
  rw [hrun, ← hqueued]
  exact QuorumWaiter.order_of_run _ _ events

omit [Crypto] [Bincode] in
/-- A batch that was delivered was sent. -/
theorem Sends.mem_sent (h : Sends node s) {batch : WorkerMessage}
    (hbatch : batch ∈ s.quorum_waiter.tx_batch) : ∃ m ∈ s.batch_maker.sent, m.batch = batch := by
  obtain ⟨w, hw, heq, -⟩ := h.tallied.tx_batch batch hbatch
  have hm : batch ∈ s.batch_maker.sent.map (·.batch) := by
    rw [← h.order]
    refine List.mem_append_left _ (List.mem_map.mpr ⟨w, ?_, heq⟩)
    exact List.mem_append_left _ hw
  exact List.mem_map.mp hm

omit [Crypto] [Bincode] in
theorem sends_spawn {store : ExtTreeMap Digest Bytes} : Sends node (spawn node store) where
  workers := rfl
  sent := nofun
  runs := ⟨[], rfl, rfl⟩
  tallied := QuorumWaiter.tallied_spawn

omit [Crypto] [Bincode] in
/-- A step that leaves the two tasks as they are, or makes a step of the quorum waiter. -/
theorem Sends.same (h : Sends node s) (hmaker : s'.batch_maker = s.batch_maker)
    (hwaiter : s'.quorum_waiter = s.quorum_waiter) : Sends node s' := by
  obtain ⟨hworkers, hsent, hruns, htallied⟩ := h
  exact ⟨hmaker ▸ hworkers, hmaker ▸ hsent, by rwa [hmaker, hwaiter], hwaiter ▸ htallied⟩

omit [Crypto] [Bincode] in
theorem Sends.waits (h : Sends node s) {e : QuorumWaiter.Event}
    (hmaker : s'.batch_maker = s.batch_maker)
    (hwaiter : s'.quorum_waiter =
      s.quorum_waiter.step node.committee (node.committee.stake node.name) e)
    (hqueued : QuorumWaiter.queued [e] = []) : Sends node s' := by
  obtain ⟨hworkers, hsent, ⟨events, hrun, hevents⟩, htallied⟩ := h
  refine ⟨hmaker ▸ hworkers, hmaker ▸ hsent, ⟨events ++ [e], ?_, ?_⟩, ?_⟩
  · rw [hwaiter, hrun, QuorumWaiter.run_concat]
  · rw [QuorumWaiter.queued_append, hqueued, List.append_nil, hevents, hmaker]
  · rw [hwaiter]
    refine htallied.step fun m hm => ?_
    subst hm
    cases hqueued

omit [Crypto] [Bincode] in
theorem Sends.makes (h : Sends node s) (e : BatchMaker.Event) : Sends node (s.make_batch node e) := by
  obtain ⟨hworkers, hsent, ⟨events, hrun, hevents⟩, htallied⟩ := h
  obtain ⟨hsame, new, hnew, hall⟩ := BatchMaker.step_sent (s := s.batch_maker) e
  rw [hworkers] at hall hsame
  have hwaiter : (s.make_batch node e).quorum_waiter = (new.map QuorumWaiter.Event.message).foldl
      (QuorumWaiter.step node.committee (node.committee.stake node.name)) s.quorum_waiter := by
    unfold make_batch
    dsimp only
    rw [hnew, List.drop_left]
  refine ⟨hsame, ?_, ⟨events ++ new.map .message, ?_, ?_⟩, ?_⟩
  · change ∀ m ∈ (s.batch_maker.step e).sent, _
    rw [hnew]
    exact List.forall_mem_append.mpr ⟨hsent, hall⟩
  · rw [hwaiter, hrun]
    unfold QuorumWaiter.run
    rw [List.foldl_append]
  · have hqueued : QuorumWaiter.queued (new.map .message) = new.map (·.batch) := by
      unfold QuorumWaiter.queued
      rw [List.filterMap_map]
      change new.filterMap (some ∘ fun m => m.batch) = _
      rw [List.filterMap_eq_map]
    change _ = (s.batch_maker.step e).sent.map _
    rw [QuorumWaiter.queued_append, hqueued, hevents, hnew, List.map_append]
  · rw [hwaiter]
    clear hnew hwaiter hrun
    generalize s.quorum_waiter = q at htallied
    induction new generalizing q with
    | nil => exact htallied
    | cons m new ih =>
      rw [List.forall_mem_cons] at hall
      refine ih hall.2 _ (htallied.step ?_)
      rintro _ ⟨⟩
      exact hall.1.1

theorem Sends.step (h : Sends node s) (hchange : Change node s e s') : Sends node s' := by
  cases hchange with
  | make_batch => exact h.makes _
  | receive => exact h.waits (e := .receive) rfl rfl rfl
  | @resolve i => exact h.waits (e := .resolve i) rfl rfl rfl
  | process_own | process_others | synchronizer => exact h.same rfl rfl
  | @dispatch serialized =>
    obtain ⟨rx_batch, rx_request, heq⟩ := s.dispatch_eq serialized
    rw [heq]
    exact h.same rfl rfl
  | @help digests origin rx_request =>
    obtain ⟨answers, heq⟩ := answer_eq node { s with rx_request } digests origin
    rw [heq]
    exact h.same rfl rfl

theorem sends_of_run {store : ExtTreeMap Digest Bytes} {events : List Event}
    (hrun : run node store events = some s) : Sends node s := by
  induction events using List.reverseRecOn generalizing s with
  | nil =>
    cases hrun
    exact sends_spawn
  | append_singleton events e ih =>
    obtain ⟨before, hbefore, hstep⟩ := run_concat.mp hrun
    exact (ih hbefore).step (change_of_step hstep)

/-- The worker has the batch of the digest in its store, or on the way to it. -/
def Has (s : Worker) (d : Digest) : Prop :=
  d ∈ s.store ∨ ∃ bytes ∈ s.rx_batch, Crypto.sha512 bytes = d

/-! ## The batches that are kept -/

/-- The digests of our own batches that were reported, in order. -/
def reported_own (s : Worker) : List Digest :=
  s.tx_primary.filterMap fun
    | .OurBatch digest _ => some digest
    | .OthersBatch _ _ => none

/-- The request was received, for the digest. -/
def Asked (events : List Event) (origin : PublicKey) (digest : Digest) : Prop :=
  ∃ serialized digests, .dispatch serialized ∈ events ∧ digest ∈ digests ∧
    Bincode.deserialize serialized = some (.BatchRequest digests origin)

/-- Every value in the store is a batch, under its digest. -/
def Addressed (store : ExtTreeMap Digest Bytes) : Prop :=
  ∀ (d : Digest) (bytes : Bytes), store[d]? = some bytes → Crypto.sha512 bytes = d ∧ IsBatch bytes

/-- What the tasks around the store keep. -/
structure Kept (node : Node) (events : List Event) (s : Worker) : Prop where
  store : Addressed s.store
  rx_batch : ∀ bytes ∈ s.rx_batch, IsBatch bytes ∧ .dispatch bytes ∈ events
  rx_request : ∀ request ∈ s.rx_request, ∀ d ∈ request.1, Asked events request.2 d
  processed : s.processed ≤ s.quorum_waiter.tx_batch.length
  own : s.reported_own = (s.quorum_waiter.tx_batch.take s.processed).map fun batch =>
    Crypto.sha512 (Bincode.serialize batch)
  reported_own : ∀ d id, .OurBatch d id ∈ s.tx_primary → id = node.id ∧ d ∈ s.store
  reported_others : ∀ d id, .OthersBatch d id ∈ s.tx_primary → id = node.id ∧ d ∈ s.store ∧
    ∃ bytes, .dispatch bytes ∈ events ∧ Crypto.sha512 bytes = d
  answers : ∀ answer ∈ s.answers, IsBatch answer.2 ∧ Asked events answer.1 (Crypto.sha512 answer.2)

section

variable {events : List Event}

omit [Crypto] in
theorem Asked.concat {origin : PublicKey} {digest : Digest} (h : Asked events origin digest) :
    Asked (events ++ [e]) origin digest := by
  obtain ⟨serialized, digests, hm, hrest⟩ := h
  exact ⟨serialized, digests, List.mem_append_left _ hm, hrest⟩

theorem kept_spawn {store : ExtTreeMap Digest Bytes} (h : Addressed store) :
    Kept node [] (spawn node store) where
  store := h
  rx_batch := nofun
  rx_request := nofun
  processed := Nat.le_refl 0
  own := rfl
  reported_own := nofun
  reported_others := nofun
  answers := nofun

theorem Kept.concat (h : Kept node events s) (e : Event) : Kept node (events ++ [e]) s where
  store := h.store
  rx_batch := fun bytes hb => (h.rx_batch bytes hb).imp_right (List.mem_append_left _)
  rx_request := fun request hr d hd => (h.rx_request request hr d hd).concat
  processed := h.processed
  own := h.own
  reported_own := h.reported_own
  reported_others := by
    intro d id hm
    obtain ⟨hid, hd, bytes, hb, heq⟩ := h.reported_others d id hm
    exact ⟨hid, hd, bytes, List.mem_append_left _ hb, heq⟩
  answers := fun answer ha => (h.answers answer ha).imp_right Asked.concat

/-- The two tasks that make our own batches, and the synchronizer, keep it. -/
theorem Kept.delivers (h : Kept node events s) (batch_maker : BatchMaker)
    {quorum_waiter : QuorumWaiter} (synchronizer : Synchronizer)
    (hstays : s.quorum_waiter.tx_batch <+: quorum_waiter.tx_batch) :
    Kept node events { s with batch_maker, quorum_waiter, synchronizer } where
  store := h.store
  rx_batch := h.rx_batch
  rx_request := h.rx_request
  processed := Nat.le_trans h.processed hstays.length_le
  own := by
    obtain ⟨new, hnew⟩ := hstays
    dsimp only
    rw [← hnew, List.take_append_of_le_length h.processed]
    exact h.own
  reported_own := h.reported_own
  reported_others := h.reported_others
  answers := h.answers

omit [Crypto] [Bincode] in
theorem mem_insert_of_mem {store : ExtTreeMap Digest Bytes} {d d' : Digest} {bytes : Bytes}
    (h : d ∈ store) : d ∈ store.insert d' bytes := ExtTreeMap.mem_insert.mpr (Or.inr h)

/-- A batch that is stored under its digest keeps the store. -/
theorem Addressed.insert {store : ExtTreeMap Digest Bytes} (h : Addressed store) {batch : Bytes}
    (hbatch : IsBatch batch) : Addressed (store.insert (Crypto.sha512 batch) batch) := by
  intro d bytes hd
  rw [ExtTreeMap.getElem?_insert] at hd
  split at hd
  · rename_i heq
    cases hd
    exact ⟨Std.compare_eq_iff_eq.mp heq, hbatch⟩
  · exact h d bytes hd

theorem Kept.process_own (h : Kept node events s) {batch : WorkerMessage}
    (hnext : s.quorum_waiter.tx_batch[s.processed]? = some batch)
    (hbatch : IsBatch (Bincode.serialize batch)) :
    Kept node events (process node { s with processed := s.processed + 1 } true
      (Bincode.serialize batch)) where
  store := h.store.insert hbatch
  rx_batch := h.rx_batch
  rx_request := h.rx_request
  processed := (List.getElem?_eq_some_iff.mp hnext).1
  own := by
    have hown := h.own
    unfold Worker.reported_own at hown ⊢
    change (s.tx_primary ++ [_]).filterMap _ =
      (s.quorum_waiter.tx_batch.take (s.processed + 1)).map _
    rw [List.filterMap_append, hown, List.take_add_one, hnext, List.map_append]
    rfl
  reported_own := by
    intro d id hm
    rcases List.mem_append.mp hm with hm | hm
    · exact (h.reported_own d id hm).imp_right mem_insert_of_mem
    · cases List.mem_singleton.mp hm
      exact ⟨rfl, ExtTreeMap.mem_insert_self⟩
  reported_others := by
    intro d id hm
    rcases List.mem_append.mp hm with hm | hm
    · obtain ⟨hid, hd, hbytes⟩ := h.reported_others d id hm
      exact ⟨hid, mem_insert_of_mem hd, hbytes⟩
    · cases List.mem_singleton.mp hm
  answers := h.answers

theorem Kept.process_others (h : Kept node events s) {batch : Bytes} {rx_batch : List Bytes}
    (hnext : s.rx_batch = batch :: rx_batch) :
    Kept node events (process node { s with rx_batch } false batch) := by
  have hbatches := List.forall_mem_cons.mp (hnext ▸ h.rx_batch)
  refine ⟨h.store.insert hbatches.1.1, hbatches.2, h.rx_request, h.processed, ?_, ?_, ?_, h.answers⟩
  · have hown := h.own
    unfold Worker.reported_own at hown ⊢
    change (s.tx_primary ++ [_]).filterMap _ = _
    rw [List.filterMap_append, hown]
    exact List.append_nil _
  · intro d id hm
    rcases List.mem_append.mp hm with hm | hm
    · exact (h.reported_own d id hm).imp_right mem_insert_of_mem
    · cases List.mem_singleton.mp hm
  · intro d id hm
    rcases List.mem_append.mp hm with hm | hm
    · obtain ⟨hid, hd, hbytes⟩ := h.reported_others d id hm
      exact ⟨hid, mem_insert_of_mem hd, hbytes⟩
    · cases List.mem_singleton.mp hm
      exact ⟨rfl, ExtTreeMap.mem_insert_self, batch, hbatches.1.2, rfl⟩

/-- A frame that was received is queued for one of the two tasks, or it is ignored. -/
theorem Kept.dispatch (h : Kept node events s) {serialized : Bytes}
    (hm : .dispatch serialized ∈ events) :
    Kept node events (s.dispatch serialized) := by
  unfold Worker.dispatch
  split
  · rename_i batch heq
    refine { h with rx_batch := List.forall_mem_append.mpr ⟨h.rx_batch, ?_⟩ }
    exact List.forall_mem_singleton.mpr ⟨⟨batch, heq⟩, hm⟩
  · rename_i missing requestor heq
    refine { h with rx_request := List.forall_mem_append.mpr ⟨h.rx_request, ?_⟩ }
    exact List.forall_mem_singleton.mpr fun d hd => ⟨serialized, missing, hm, hd, heq⟩
  · exact h

/-- What the helper sends are batches from the store. -/
theorem Kept.help (h : Kept node events s) {digests : List Digest} {origin : PublicKey}
    {rx_request : List (List Digest × PublicKey)}
    (hnext : s.rx_request = (digests, origin) :: rx_request) :
    Kept node events (answer node { s with rx_request } digests origin) := by
  have hrequests := List.forall_mem_cons.mp (hnext ▸ h.rx_request)
  unfold answer
  split
  · refine { h with rx_request := hrequests.2, answers := List.forall_mem_append.mpr ⟨h.answers, ?_⟩ }
    intro x hx
    obtain ⟨bytes, hbytes, rfl⟩ := List.mem_map.mp hx
    obtain ⟨d, hd, hstored⟩ := List.mem_filterMap.mp hbytes
    obtain ⟨rfl, hbatch⟩ := h.store d bytes hstored
    exact ⟨hbatch, hrequests.1 _ hd⟩
  · exact { h with rx_request := hrequests.2 }

theorem Kept.step (h : Kept node events s)
    (hreads : ∀ batch ∈ s.quorum_waiter.tx_batch, IsBatch (Bincode.serialize batch))
    (hchange : Change node s e s') : Kept node (events ++ [e]) s' := by
  have hnext := h.concat e
  cases hchange with
  | make_batch => exact hnext.delivers _ _ (QuorumWaiter.tx_batch_prefix _ _ _ _)
  | receive =>
    exact hnext.delivers _ _
      (QuorumWaiter.tx_batch_prefix node.committee (node.committee.stake node.name) _ [.receive])
  | @resolve i =>
    exact hnext.delivers _ _
      (QuorumWaiter.tx_batch_prefix node.committee (node.committee.stake node.name) _ [.resolve i])
  | process_own hbatch => exact hnext.process_own hbatch (hreads _ (List.mem_of_getElem? hbatch))
  | dispatch => exact hnext.dispatch (List.mem_append_right _ List.mem_cons_self)
  | process_others hrx => exact hnext.process_others hrx
  | help hrx => exact hnext.help hrx
  | synchronizer => exact hnext.delivers _ _ List.prefix_rfl

theorem sent_of_change (hchange : Change node s e s') :
    s.batch_maker.sent <+: s'.batch_maker.sent := by
  cases hchange with
  | @make_batch e =>
    obtain ⟨-, new, hnew, -⟩ := BatchMaker.step_sent (s := s.batch_maker) e
    exact ⟨new, hnew.symm⟩
  | receive | resolve | process_own | process_others | synchronizer => exact List.prefix_rfl
  | @dispatch serialized =>
    obtain ⟨rx_batch, rx_request, heq⟩ := s.dispatch_eq serialized
    rw [heq]
  | @help digests origin rx_request =>
    obtain ⟨answers, heq⟩ := answer_eq node { s with rx_request } digests origin
    rw [heq]

/-- What was reported stays reported, and what is stored stays stored. -/
theorem grows_of_change (hchange : Change node s e s') :
    s.tx_primary <+: s'.tx_primary ∧ ∀ d ∈ s.store, d ∈ s'.store := by
  cases hchange with
  | make_batch | receive | resolve | synchronizer => exact ⟨List.prefix_rfl, fun _ => id⟩
  | process_own | process_others => exact ⟨List.prefix_append _ _, fun _ => mem_insert_of_mem⟩
  | @dispatch serialized =>
    obtain ⟨rx_batch, rx_request, heq⟩ := s.dispatch_eq serialized
    rw [heq]
    exact ⟨List.prefix_rfl, fun _ => id⟩
  | @help digests origin rx_request =>
    obtain ⟨answers, heq⟩ := answer_eq node { s with rx_request } digests origin
    rw [heq]
    exact ⟨List.prefix_rfl, fun _ => id⟩

theorem stored_of_run {store : ExtTreeMap Digest Bytes}
    (hrun : run node store events = some s) {d : Digest} (hd : d ∈ store) : d ∈ s.store := by
  induction events using List.reverseRecOn generalizing s with
  | nil =>
    cases hrun
    exact hd
  | append_singleton events e ih =>
    obtain ⟨before, hbefore, hstep⟩ := run_concat.mp hrun
    exact (grows_of_change (change_of_step hstep)).2 d (ih hbefore)

theorem kept_of_run {store : ExtTreeMap Digest Bytes} (hstore : Addressed store)
    (hrun : run node store events = some s)
    (hreads : ∀ m ∈ s.batch_maker.sent, Bincode.Reads m.batch) : Kept node events s := by
  induction events using List.reverseRecOn generalizing s with
  | nil =>
    cases hrun
    exact kept_spawn hstore
  | append_singleton events e ih =>
    obtain ⟨before, hbefore, hstep⟩ := run_concat.mp hrun
    have hreads' : ∀ m ∈ before.batch_maker.sent, Bincode.Reads m.batch :=
      fun m hm => hreads m ((sent_of_change (change_of_step hstep)).subset hm)
    refine (ih hbefore hreads').step (fun batch hbatch => ?_) (change_of_step hstep)
    obtain ⟨m, hm, rfl⟩ := (sends_of_run hbefore).mem_sent hbatch
    obtain ⟨batch, hbatch⟩ := ((sends_of_run hbefore).sent m hm).2
    have hread := hreads' m hm
    rw [hbatch] at hread ⊢
    exact ⟨batch, hread⟩

end

/-- For every run of a worker, from a store whose values are batches under their digests: the store
stays so, each digest that was reported to the primary has its batch in the store, our own are those
of the delivered batches, in order and once each, the others are of frames that came, and whatever
the helper sends is a batch whose digest the authority asked for. -/
theorem batches_are_kept_under_their_digests (node : Node) (store : ExtTreeMap Digest Bytes)
    (hstore : Addressed store) (events : List Event) (s : Worker)
    (hrun : run node store events = some s)
    (hreads : ∀ m ∈ s.batch_maker.sent, Bincode.Reads m.batch) :
    Addressed s.store ∧
      s.reported_own = ((s.quorum_waiter.tx_batch.take s.processed).map fun batch =>
        Crypto.sha512 (Bincode.serialize batch)) ∧
      (∀ d id, .OurBatch d id ∈ s.tx_primary → id = node.id ∧ d ∈ s.store) ∧
      (∀ d id, .OthersBatch d id ∈ s.tx_primary → id = node.id ∧ d ∈ s.store ∧
        ∃ bytes, .dispatch bytes ∈ events ∧ Crypto.sha512 bytes = d) ∧
      ∀ answer ∈ s.answers, IsBatch answer.2 ∧
        Asked events answer.1 (Crypto.sha512 answer.2) := by
  have h := kept_of_run hstore hrun hreads
  exact ⟨h.store, h.own, h.reported_own, h.reported_others, h.answers⟩

end

/-! ## A run on fixed inputs -/

section

/-- The worker of authority 1, which seals a batch for each transaction. -/
def first_worker : Node where
  name := 1
  id := 0
  committee := .four
  batch_size := 1
  gc_depth := 50
  sync_retry_delay := 5000
  sync_retry_nodes := 3

def one_batch : WorkerMessage := .Batch [[7]]

/-- The digest of the batch in the sample. -/
def one_digest : Digest := crypto.sample.sha512 one_batch.bytes

/-- Authority 2 asks for the batch. -/
def one_request : WorkerMessage := .BatchRequest [one_digest] 2

attribute [local instance] crypto.sample

@[reducible] def one_bincode : Bincode := .sample [one_batch, one_request]

attribute [local instance] one_bincode

/-- A batch is sealed, acknowledged, stored and sent to authority 2. -/
def serves : List Event :=
  [.batch_maker (.transaction [7]), .receive, .resolve 2, .resolve 0, .process_own,
    .dispatch one_request.bytes, .help]

def serves_state : Worker := (run first_worker ∅ serves).get (by decide +kernel)

theorem batches_are_kept_under_their_digests_serves :
    serves_state.answers = [(2, one_batch.bytes)] ∧ serves_state.reported_own = [one_digest] ∧
      Addressed serves_state.store ∧
        ∀ answer ∈ serves_state.answers, IsBatch answer.2 ∧
          Asked serves answer.1 (Crypto.sha512 answer.2) := by
  have hsent : serves_state.batch_maker.sent.map (·.batch) = [one_batch] := by decide +kernel
  have hreads : ∀ m ∈ serves_state.batch_maker.sent, Bincode.Reads m.batch := by
    intro m hm
    have hbatch : m.batch ∈ [one_batch] := hsent ▸ List.mem_map_of_mem hm
    rw [List.mem_singleton.mp hbatch]
    change Bincode.deserialize (Bincode.serialize one_batch) = some one_batch
    decide +kernel
  obtain ⟨hstore, -, -, -, hanswers⟩ := batches_are_kept_under_their_digests first_worker ∅
    (fun d bytes hd => by simp at hd) serves serves_state (Option.some_get _).symm hreads
  exact ⟨by decide +kernel, by decide +kernel, hstore, hanswers⟩

end

end Worker

end sailfish.worker
