-- The header waiter (`primary/src/header_waiter.rs`): it keeps the headers that the
-- synchronizer suspends, asks other nodes for what they miss, and gives them back to the
-- core. Its requests are kept by digest, for all the headers that wait for the digest.
import Mathlib
import Sailfish.Core
import Sailfish.Lib.Splits

open Std splits sailfish.crypto sailfish.config

namespace sailfish.primary

/-- The parents that a suspended header waits for. -/
def WaiterMessage.parents : WaiterMessage → List Digest
  | .sync_batches _ _ => []
  | .sync_parents missing _ => missing

/-- The batches that a suspended header waits for, with their workers. -/
def WaiterMessage.batches : WaiterMessage → List (Digest × ℕ)
  | .sync_batches missing _ => missing
  | .sync_parents _ _ => []

/-- What the header waiter sends over the network. -/
inductive Request
  /-- To a worker of an authority: the digests to get, and the authority to get them from. -/
  | synchronize (authority : PublicKey) (worker_id : ℕ) (digests : List Digest) (target : PublicKey)
  /-- To the primaries of some authorities. -/
  | certificates_request (addresses : List PublicKey) (digests : List Digest)
      (requestor : PublicKey)
deriving DecidableEq

/-- A future in the waiter pool. It ends when the data of its message is in the store, or when the
sender of its channel is gone. -/
structure Waiter where
  message : WaiterMessage
  handler : ℕ
deriving DecidableEq

/-- Waits for missing parent certificates and batches' digests. -/
structure HeaderWaiter where
  store : Store
  /-- The current consensus round (used for cleanup). -/
  consensus_round : ℕ
  /-- The certificates for which we sent a sync request, with the round of the header and the time
  of the request. -/
  parent_requests : ExtTreeMap Digest (ℕ × ℕ)
  /-- The batches for which we sent a sync request. -/
  batch_requests : ExtTreeMap Digest ℕ
  /-- The headers that wait, with their rounds and the channels that cancel them. -/
  pending : ExtTreeMap Digest (ℕ × ℕ)
  waiting : List Waiter
  /-- The number of channels made so far. -/
  channels : ℕ
  /-- The headers sent back to the core. -/
  tx_core : List Header
  /-- Everything sent over the network so far. -/
  sent : List Request
deriving DecidableEq

namespace HeaderWaiter

def spawn (store : Store) : HeaderWaiter where
  store := store
  consensus_round := 0
  parent_requests := ∅
  batch_requests := ∅
  pending := ∅
  waiting := []
  channels := 0
  tx_core := []
  sent := []

/-- `m.entry(key(x)).or_insert_with(..)` for every element: the map, and the elements whose keys
were not in it. -/
def or_insert {α β : Type} (key : α → Digest) (value : β) :
    List α → ExtTreeMap Digest β → ExtTreeMap Digest β × List α
  | [], m => (m, [])
  | x :: missing, m =>
    if key x ∈ m then or_insert key value missing m
    else
      let (m, requires_sync) := or_insert key value missing (m.insert (key x) value)
      (m, x :: requires_sync)

/-- Add the header to the waiter pool. -/
def suspend (s : HeaderWaiter) (message : WaiterMessage) : HeaderWaiter :=
  { s with
    pending := s.pending.insert message.header.id (message.header.round, s.channels)
    waiting := s.waiting ++ [{ message, handler := s.channels }]
    channels := s.channels + 1 }

section

variable (node : Node) (sync_retry_delay : ℕ)

/-- The request to each worker of the author whose batches are required. -/
def synchronize (author : PublicKey) (requires_sync : List (Digest × ℕ)) : List Request :=
  (requires_sync.map (·.2)).dedup.map fun worker_id =>
    let digests := (requires_sync.filter (·.2 = worker_id)).map (·.1)
    .synchronize author worker_id digests author

/-- The message of the synchronizer, when the header does not wait already. A worker or an author
that is not in the committee is a panic. -/
def sync (s : HeaderWaiter) (now : ℕ) : WaiterMessage → Option HeaderWaiter
  | .sync_batches missing header =>
    let (batch_requests, requires_sync) :=
      or_insert (·.1) header.round missing s.batch_requests
    if requires_sync.all fun batch => (node.committee.worker header.author batch.2).toBool then
      some { s with batch_requests, sent := s.sent ++ synchronize header.author requires_sync }
    else none
  | .sync_parents missing header =>
    let (parent_requests, requires_sync) := or_insert id (header.round, now) missing s.parent_requests
    if requires_sync.isEmpty then some { s with parent_requests }
    else
      match node.committee.primary header.author with
      | .ok address =>
        let request := .certificates_request [address] requires_sync node.name
        some { s with parent_requests, sent := s.sent ++ [request] }
      | .error _ => none

/-- The sender of the channel of the waiter is still in `pending`. -/
def is_pending (s : HeaderWaiter) (w : Waiter) : Bool :=
  (s.pending[w.message.header.id]?).any (·.2 == w.handler)

/-- A waiter delivers its header. -/
def deliver (s : HeaderWaiter) (i : ℕ) (header : Header) : HeaderWaiter :=
  { s with
    waiting := s.waiting.eraseIdx i
    pending := s.pending.erase header.id
    batch_requests := s.batch_requests.filter fun x _ => !header.payload.contains x
    parent_requests := s.parent_requests.filter fun x _ => !header.parents.contains x
    tx_core := s.tx_core ++ [header] }

/-- The timer triggers. The addresses are some of the other primaries. -/
def retry (s : HeaderWaiter) (now : ℕ) (addresses : List PublicKey) : HeaderWaiter :=
  let retry := (s.parent_requests.toList.filter fun request =>
    request.2.2 + sync_retry_delay < now).map (·.1)
  { s with sent := s.sent ++ [.certificates_request addresses retry node.name] }

/-- Cleanup internal state. The header of a handler that goes is cancelled. -/
def cleanup (s : HeaderWaiter) : HeaderWaiter :=
  let round := s.consensus_round
  if round > node.gc_depth then
    let gc_round := round - node.gc_depth
    { s with
      pending := s.pending.filter fun _ entry => entry.1 > gc_round
      batch_requests := s.batch_requests.filter fun _ r => r > gc_round
      parent_requests := s.parent_requests.filter fun _ entry => entry.1 > gc_round }
  else s

/-- What happens to the header waiter: a message of the synchronizer, a waiter that delivers its
header or finds that it was cancelled, the timer, and what other tasks write. -/
inductive Event
  | message (message : WaiterMessage) (now : ℕ)
  | delivered (i : ℕ)
  | cancelled (i : ℕ)
  | timer (now : ℕ) (addresses : List PublicKey)
  | record (digest : Digest) (record : Record)
  | payload (digest : Digest) (worker_id : ℕ)
  | committed (round : ℕ)
deriving DecidableEq

/-- One event, up to the cleanup, and whether the cleanup follows. What cannot happen changes
nothing, and `none` is a panic. -/
def turn (s : HeaderWaiter) : Event → Option (HeaderWaiter × Bool)
  | .message message now =>
    -- Ensure we sync only once per header.
    if message.header.id ∈ s.pending then some (s, false)
    else ((s.suspend message).sync node now message).map (·, true)
  | .delivered i =>
    match s.waiting[i]? with
    | some w =>
      if w.message.ready s.store then some (s.deliver i w.message.header, true) else some (s, false)
    | none => some (s, false)
  | .cancelled i =>
    match s.waiting[i]? with
    | some w =>
      if s.is_pending w then some (s, false)
      else some ({ s with waiting := s.waiting.eraseIdx i }, true)
    | none => some (s, false)
  | .timer now addresses => some (s.retry node sync_retry_delay now addresses, true)
  | .record digest record => some ({ s with store := s.store.write digest record }, false)
  | .payload digest worker_id =>
    some ({ s with store := { s.store with batches := (digest, worker_id) :: s.store.batches } },
      false)
  | .committed round =>
    some (if round > s.consensus_round then { s with consensus_round := round } else s, false)

def step (s : HeaderWaiter) (e : Event) : Option HeaderWaiter :=
  (s.turn node sync_retry_delay e).map fun (s, cleans) => if cleans then s.cleanup node else s

def run (store : Store) (events : List Event) : Option HeaderWaiter :=
  events.foldlM (step node sync_retry_delay) (spawn store)

theorem run_concat {store : Store} {events : List Event} {e : Event} {s' : HeaderWaiter} :
    run node sync_retry_delay store (events ++ [e]) = some s' ↔
      ∃ s, run node sync_retry_delay store events = some s ∧
        s.step node sync_retry_delay e = some s' := by
  unfold run
  rw [List.foldlM_append]
  simp [Option.bind_eq_some_iff]

end

/-! ## The cleanup -/

section

variable {node : Node} {s : HeaderWaiter}

/-- The cleanup keeps what belongs to the round. -/
def survives (node : Node) (s : HeaderWaiter) (round : ℕ) : Bool :=
  s.consensus_round ≤ node.gc_depth || s.consensus_round - node.gc_depth < round

theorem cleanup_eq : s.cleanup node = { s with
    pending := s.pending.filter fun _ entry => s.survives node entry.1
    batch_requests := s.batch_requests.filter fun _ r => s.survives node r
    parent_requests := s.parent_requests.filter fun _ entry => s.survives node entry.1 } := by
  have hfilter : ∀ {β : Type} (m : ExtTreeMap Digest β), (m.filter fun _ _ => true) = m := by
    intro β m
    ext d x
    simp
  unfold cleanup survives
  by_cases h : s.consensus_round ≤ node.gc_depth
  · simp [h, hfilter, Nat.not_lt_of_le h]
  · simp [h, Nat.lt_of_not_le h]

theorem cleanup_store : (s.cleanup node).store = s.store := by rw [cleanup_eq]

theorem cleanup_sent : (s.cleanup node).sent = s.sent := by rw [cleanup_eq]

theorem cleanup_waiting : (s.cleanup node).waiting = s.waiting := by rw [cleanup_eq]

theorem cleanup_channels : (s.cleanup node).channels = s.channels := by rw [cleanup_eq]

theorem cleanup_pending {d : Digest} {entry : ℕ × ℕ} : (s.cleanup node).pending[d]? = some entry ↔
    s.pending[d]? = some entry ∧ s.survives node entry.1 = true := by
  rw [cleanup_eq, ExtTreeMap.getElem?_filter', Option.filter_eq_some_iff]

theorem cleanup_parent_requests {d : Digest} {entry : ℕ × ℕ} :
    (s.cleanup node).parent_requests[d]? = some entry ↔
      s.parent_requests[d]? = some entry ∧ s.survives node entry.1 = true := by
  rw [cleanup_eq, ExtTreeMap.getElem?_filter', Option.filter_eq_some_iff]

end

/-! ## The requests -/

section

variable {α β : Type} {key : α → Digest} {value : β} {m : ExtTreeMap Digest β} {missing : List α}

theorem getElem?_or_insert {d : Digest} : (or_insert key value missing m).1[d]? =
    if d ∈ m then m[d]? else if d ∈ missing.map key then some value else none := by
  induction missing generalizing m with
  | nil =>
    rw [or_insert]
    split
    · rfl
    · simp [*]
  | cons x missing ih =>
    rw [or_insert]
    by_cases hx : key x ∈ m
    · rw [if_pos hx, ih]
      by_cases hd : d ∈ m
      · rw [if_pos hd, if_pos hd]
      · have hne : d ≠ key x := fun heq => hd (heq ▸ hx)
        simp [hd, hne]
    · rw [if_neg hx]
      dsimp only
      rw [ih, ExtTreeMap.getElem?_insert]
      by_cases hd : key x = d
      · subst hd
        simp [hx]
      · simp [ExtTreeMap.mem_insert, hd, Ne.symm hd]

theorem mem_or_insert {d : Digest} :
    d ∈ (or_insert key value missing m).1 ↔ d ∈ m ∨ d ∈ missing.map key := by
  rw [← ExtTreeMap.isSome_getElem?_iff_mem, getElem?_or_insert]
  by_cases hd : d ∈ m
  · simp [hd]
  · by_cases hm : d ∈ missing.map key <;> simp [hd, hm]

/-- Of the elements with a key, only the first one is required, if the key was not there. -/
theorem mem_requires_sync {x : α} (hx : x ∈ (or_insert key value missing m).2) :
    x ∈ missing ∧ key x ∉ m := by
  induction missing generalizing m with
  | nil => cases hx
  | cons y missing ih =>
    rw [or_insert] at hx
    by_cases hy : key y ∈ m
    · rw [if_pos hy] at hx
      exact (ih hx).imp_left (List.mem_cons_of_mem _)
    · rw [if_neg hy] at hx
      rcases List.mem_cons.mp hx with rfl | hx
      · exact ⟨List.mem_cons_self, hy⟩
      · obtain ⟨hmem, hnot⟩ := ih hx
        rw [ExtTreeMap.mem_insert, not_or] at hnot
        exact ⟨List.mem_cons_of_mem _ hmem, hnot.2⟩

/-- Elements with different keys are all required, but for those whose keys were there. -/
theorem mem_requires_sync_iff (hkey : ∀ x ∈ missing, ∀ y ∈ missing, key x = key y → x = y) {x : α} :
    x ∈ (or_insert key value missing m).2 ↔ x ∈ missing ∧ key x ∉ m := by
  refine ⟨mem_requires_sync, ?_⟩
  rintro ⟨hx, hm⟩
  induction missing generalizing m with
  | nil => cases hx
  | cons y missing ih =>
    have hrest := fun z hz z' hz' =>
      hkey z (List.mem_cons_of_mem y hz) z' (List.mem_cons_of_mem y hz')
    rw [or_insert]
    by_cases hy : key y ∈ m
    · rw [if_pos hy]
      rcases List.mem_cons.mp hx with rfl | hx
      · exact absurd hy hm
      · exact ih hrest hx hm
    · rw [if_neg hy]
      by_cases heq : key y = key x
      · rw [hkey y List.mem_cons_self x hx heq]
        exact List.mem_cons_self
      · rcases List.mem_cons.mp hx with rfl | hx
        · exact absurd rfl heq
        · refine List.mem_cons_of_mem _ (ih hrest hx ?_)
          rw [ExtTreeMap.mem_insert, not_or]
          exact ⟨fun h => heq (compare_eq_iff_eq.mp h), hm⟩

end

end HeaderWaiter

end sailfish.primary
