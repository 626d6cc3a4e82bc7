-- The workers of the authorities that have one id, with the reliable links that their batch
-- makers send on. The other messages, and what the authorities that do not run this code
-- send, may be anything at any time.
import Mathlib
import Sailfish.Receiver
import Sailfish.Worker

open Std sailfish.crypto sailfish.config sailfish.network

namespace sailfish.network

namespace Connection

variable {s s' : Connection}

end Connection

namespace Link

variable {reply : Bytes → Option Bytes} {s s' : Link}

/-- `send` of the reliable sender. -/
def submit (s : Link) (data : Bytes) : Link :=
  let m : InnerMessage := { data, cancel_handler := s.sender.submitted.length }
  { s with
    sender := { s.sender with
      receiver := s.sender.receiver ++ [m]
      submitted := s.sender.submitted ++ [m] } }

/-- The message that a runner takes. -/
def takes (s : Link) : Event → Option InnerMessage
  | .sender _ => none
  | .dispatch _ => s.frames.head?
  | .dispatch_late i => (s.late[i]?).bind (·.head?)

end Link

end sailfish.network

namespace sailfish.worker

/-- The workers with an id, each with the parameters of its authority. -/
structure Workers where
  committee : Committee
  id : ℕ
  node : PublicKey → Node
  named : ∀ name, (node name).name = name
  of_committee : ∀ name, (node name).committee = committee
  of_id : ∀ name, (node name).id = id

namespace Workers

structure State where
  workers : PublicKey → Worker
  /-- The links from the batch maker of an authority to the worker of another. -/
  links : PublicKey → PublicKey → Link

/-- What happens to the workers: an event of one of them, of a link to a worker that runs this code,
or of the sender of a link to one that does not. -/
inductive Event
  | turn (name : PublicKey) (e : Worker.Event)
  | link (a b : PublicKey) (e : Link.Event)
  | outsider (a b : PublicKey) (e : network.Event)
deriving DecidableEq

namespace State

/-- The handler that the event resolves was notified by its link. The batch that the quorum waiter
waits for has the number of those before it. -/
def resolves (s : State) (name : PublicKey) : Worker.Event → Bool
  | .resolve i =>
    let q := (s.workers name).quorum_waiter
    (q.resolving i).any fun x =>
      (s.links name x.2).sender.notified.any (·.1 == q.finished.length)
  | _ => true

/-- The batch maker alone sends messages, and the quorum waiter drops only the handlers that are
left when it is through with a batch. -/
def allows (s : State) (a b : PublicKey) : network.Event → Bool
  | .send _ => false
  | .cancel k =>
    ((s.workers a).quorum_waiter.finished[k]?).any (·.wait_for_quorum.contains b)
  | _ => true

def permits (s : State) (a b : PublicKey) : Link.Event → Bool
  | .sender e => s.allows a b e
  | .dispatch _ | .dispatch_late _ => true

def set_worker (s : State) (name : PublicKey) (worker : Worker) : State :=
  { s with workers := Function.update s.workers name worker }

def set_link (s : State) (a b : PublicKey) (link : Link) : State :=
  { s with links := Function.update s.links a (Function.update (s.links a) b link) }

/-- What `broadcast` of the reliable sender does on the link to one of the addresses. -/
def broadcast_to [Bincode] (b : PublicKey) (messages : List QuorumWaiterMessage) (link : Link) : Link :=
  messages.foldl (fun link m =>
    if m.handlers.contains b then link.submit (Bincode.serialize m.batch) else link) link

def broadcast [Bincode] (s : State) (a : PublicKey) (messages : List QuorumWaiterMessage) : State :=
  { s with links := Function.update s.links a fun b => broadcast_to b messages (s.links a b) }

section

variable {s : State} {a b : PublicKey} {link : Link}

variable [Bincode] {messages : List QuorumWaiterMessage}

end

section

variable {s : State} {a name : PublicKey} {worker : Worker}

end

end State

section

variable [Crypto] [Bincode] (sys : Workers)

def spawn (store : PublicKey → ExtTreeMap Digest Bytes) : State where
  workers name := .spawn (sys.node name) (store name)
  links _ _ := .spawn

/-- One event. `none` is an event that cannot happen. -/
def step (s : State) : Event → Option State
  | .turn name e =>
    if s.resolves name e then do
      let worker ← Worker.step (sys.node name) (s.workers name) e
      let messages := worker.batch_maker.sent.drop (s.workers name).batch_maker.sent.length
      return (s.broadcast name messages).set_worker name worker
    else none
  | .link a b e =>
    if s.permits a b e then do
      let link ← (s.links a b).step Link.ack e
      let worker := ((s.links a b).takes e).elim (s.workers b) fun m => (s.workers b).dispatch m.data
      return (s.set_link a b link).set_worker b worker
    else none
  | .outsider a b e =>
    if s.allows a b e then do
      let sender ← (s.links a b).sender.step e
      return s.set_link a b { s.links a b with sender }
    else none

def run (store : PublicKey → ExtTreeMap Digest Bytes) (events : List Event) : Option State :=
  events.foldlM sys.step (sys.spawn store)

/-- The links to the workers that run this code behave as such. -/
def Follows (honest : Set PublicKey) (events : List Event) : Prop :=
  ∀ a b e, .outsider a b e ∈ events → b ∉ honest

variable {sys : Workers} {store : PublicKey → ExtTreeMap Digest Bytes} {events : List Event}
  {s s' : State} {e : Event}

theorem run_concat : sys.run store (events ++ [e]) = some s' ↔
    ∃ s, sys.run store events = some s ∧ sys.step s e = some s' := by
  unfold run
  rw [List.foldlM_append]
  simp [Option.bind_eq_some_iff]

/-- What an event does. -/
inductive Change (sys : Workers) (s : State) : Event → State → Prop
  | turn {name : PublicKey} {e : Worker.Event} {worker : Worker}
      {messages : List QuorumWaiterMessage} :
      s.resolves name e = true → Worker.step (sys.node name) (s.workers name) e = some worker →
      worker.batch_maker.sent = (s.workers name).batch_maker.sent ++ messages →
      Change sys s (.turn name e) ((s.broadcast name messages).set_worker name worker)
  | link {a b : PublicKey} {e : Link.Event} {link : Link} {worker : Worker} :
      (∀ data, e ≠ .sender (.send data)) → (s.links a b).step Link.ack e = some link →
      worker = (((s.links a b).takes e).elim (s.workers b) fun m => (s.workers b).dispatch m.data) →
      Change sys s (.link a b e) ((s.set_link a b link).set_worker b worker)
  | outsider {a b : PublicKey} {e : network.Event} {sender : Connection} :
      (∀ data, e ≠ .send data) → (s.links a b).sender.step e = some sender →
      Change sys s (.outsider a b e) (s.set_link a b { s.links a b with sender })

theorem change_of_step (h : sys.step s e = some s') : Change sys s e s' := by
  cases e with
  | turn name e =>
    unfold step at h
    dsimp only at h
    split at h
    · rename_i hresolves
      simp only [Option.pure_def, Option.bind_eq_bind, Option.bind_eq_some_iff] at h
      obtain ⟨worker, hstep, heq⟩ := h
      cases heq
      obtain ⟨messages, hmessages⟩ := Worker.sent_of_change (Worker.change_of_step hstep)
      rw [← hmessages, List.drop_left]
      exact .turn hresolves hstep hmessages.symm
    · cases h
  | link a b e =>
    unfold step at h
    dsimp only at h
    split at h
    · rename_i hallowed
      simp only [Option.pure_def, Option.bind_eq_bind, Option.bind_eq_some_iff] at h
      obtain ⟨link, hstep, heq⟩ := h
      cases heq
      refine .link (fun data he => ?_) hstep rfl
      subst he
      cases hallowed
    · cases h
  | outsider a b e =>
    unfold step at h
    dsimp only at h
    split at h
    · rename_i hallowed
      simp only [Option.pure_def, Option.bind_eq_bind, Option.bind_eq_some_iff] at h
      obtain ⟨sender, hstep, heq⟩ := h
      cases heq
      refine .outsider (fun data he => ?_) hstep
      subst he
      cases hallowed
    · cases h

/-! ## The worker of an authority -/

theorem workers_of_change (h : Change sys s e s') (name : PublicKey) :
    s'.workers name = s.workers name ∨
      ∃ e', Worker.step (sys.node name) (s.workers name) e' = some (s'.workers name) := by
  cases h with
  | @turn name' e worker messages _ hstep =>
    change Function.update s.workers name' worker name = _ ∨ ∃ e', _ =
      some (Function.update s.workers name' worker name)
    by_cases hname : name = name'
    · subst hname
      rw [Function.update_self]
      exact Or.inr ⟨e, hstep⟩
    · rw [Function.update_of_ne hname]
      exact Or.inl rfl
  | @link a b e link worker _ hstep hworker =>
    change Function.update s.workers b _ name = _ ∨ ∃ e', _ =
      some (Function.update s.workers b _ name)
    by_cases hname : name = b
    · subst hname
      rw [Function.update_self, hworker]
      rcases (s.links a name).takes e with _ | m
      · exact Or.inl rfl
      · exact Or.inr ⟨.dispatch m.data, rfl⟩
    · rw [Function.update_of_ne hname]
      exact Or.inl rfl
  | outsider => exact Or.inl rfl

/-- Every worker makes a run of its own. -/
theorem worker_of_run (hrun : sys.run store events = some s) (name : PublicKey) :
    ∃ own, Worker.run (sys.node name) (store name) own = some (s.workers name) := by
  induction events using List.reverseRecOn generalizing s with
  | nil =>
    cases hrun
    exact ⟨[], rfl⟩
  | append_singleton events e ih =>
    obtain ⟨before, hbefore, hstep⟩ := run_concat.mp hrun
    obtain ⟨own, hown⟩ := ih hbefore
    rcases workers_of_change (change_of_step hstep) name with heq | ⟨e', hworker⟩
    · rw [heq]
      exact ⟨own, hown⟩
    · exact ⟨own ++ [e'], Worker.run_concat.mpr ⟨_, hown, hworker⟩⟩

/-! ## What the links keep -/

/-- What the worker of `a` sends. -/
def others (sys : Workers) (a : PublicKey) : List PublicKey :=
  (sys.node a).committee.others_workers (sys.node a).name (sys.node a).id

/-- The link of each authority that acknowledged a batch was notified, for the number of the batch.
-/
def Notifies (s : State) (a b : PublicKey) (link : Link) : Prop :=
  ∀ k w, (s.workers a).quorum_waiter.taken[k]? = some w → b ∈ w.acks →
    ∃ x ∈ link.sender.notified, x.1 = k

omit [Crypto] [Bincode] in
theorem Notifies.mono {a b : PublicKey} {link link' : Link} (h : Notifies s a b link)
    (hworker : (s'.workers a).quorum_waiter = (s.workers a).quorum_waiter)
    (hlink : link.sender.notified ⊆ link'.sender.notified) : Notifies s' a b link' := by
  intro k w hw hb
  rw [hworker] at hw
  obtain ⟨x, hx, heq⟩ := h k w hw hb
  exact ⟨x, hlink hx, heq⟩

/-- The worker has bytes of a batch with the digest in its store, or on the way to it. -/
def Holds (s : Worker) (d : Digest) : Prop :=
  ∃ bytes, Crypto.sha512 bytes = d ∧ IsBatch bytes ∧ (s.store[d]? = some bytes ∨ bytes ∈ s.rx_batch)

end

section

attribute [local instance] crypto.sample Worker.one_bincode

/-- A batch of worker 1 is acknowledged by worker 2, and by authority 4, which does not run this
code. -/
def one_reported : List Event :=
  [.turn 1 (.batch_maker (.transaction [7])), .turn 1 .receive, .link 1 2 (.sender (.connect true)),
    .link 1 2 (.sender .receive), .link 1 2 (.sender (.transmit true)), .link 1 2 (.dispatch true),
    .link 1 2 (.sender (.response (some [65, 99, 107]))), .outsider 1 4 (.connect true),
    .outsider 1 4 .receive, .outsider 1 4 (.transmit true), .outsider 1 4 (.response (some [])),
    .turn 1 (.resolve 2), .turn 1 (.resolve 0), .turn 1 .process_own]

end

end Workers

end sailfish.worker
