-- The synchronizer of a worker (`worker/src/synchronizer.rs`): it asks other workers for the
-- batches that its primary misses, and forgets those that the primary no longer needs. A
-- command is handled in one step: a batch that is stored meanwhile comes before or after it.
import Mathlib
import Sailfish.BatchMaker
import Sailfish.Config

open Std sailfish.crypto sailfish.config

namespace sailfish.config

/-- The workers of the other authorities with an id. Their addresses are known by their keys. -/
def Committee.others_workers (c : Committee) (myself : PublicKey) (id : ℕ) : List PublicKey :=
  (c.keys.filter (· ≠ myself)).filter fun name => (c.worker name id).toBool

end sailfish.config

namespace sailfish.worker

abbrev Bytes := List UInt8

/-- The messages sent by the primary to its workers. -/
inductive PrimaryWorkerMessage
  /-- The primary indicates that the worker need to sync the target missing batches. -/
  | Synchronize (digests : List Digest) (target : PublicKey)
  /-- The primary indicates a round update. -/
  | Cleanup (round : ℕ)
deriving DecidableEq

/-- What the tasks of a worker know of it, of its committee and of the parameters. -/
structure Node where
  name : PublicKey
  /-- The id of this worker. -/
  id : ℕ
  committee : Committee
  batch_size : ℕ
  gc_depth : ℕ
  sync_retry_delay : ℕ
  sync_retry_nodes : ℕ

/-- What `pending` keeps of a request: the round of the primary, the channel that cancels the
waiter, and the time. -/
structure Pending where
  round : ℕ
  handler : ℕ
  timestamp : ℕ
deriving DecidableEq

/-- A future in the pool, for a batch. It ends when the batch is in the store, or when the sender of
its channel is gone. -/
structure Waiter where
  digest : Digest
  handler : ℕ
deriving DecidableEq

/-- The `Synchronizer` is responsible to keep the worker in sync with the others. -/
structure Synchronizer where
  /-- Loosely keep track of the primary's round number (only used for cleanup). -/
  round : ℕ
  /-- The digests (of batches) that are waiting to be processed by the primary. -/
  pending : ExtTreeMap Digest Pending
  waiting : List Waiter
  /-- The number of channels made so far. -/
  channels : ℕ
  /-- Everything sent over the network so far. -/
  sent : List (PublicKey × WorkerMessage)
deriving DecidableEq

namespace Synchronizer

def spawn : Synchronizer := { round := 0, pending := ∅, waiting := [], channels := 0, sent := [] }

/-- Add the digest to the waiter. -/
def suspend (s : Synchronizer) (digest : Digest) (now : ℕ) : Synchronizer :=
  { s with
    pending := s.pending.insert digest { round := s.round, handler := s.channels, timestamp := now }
    waiting := s.waiting ++ [{ digest, handler := s.channels }]
    channels := s.channels + 1 }

section

variable (node : Node) (store : ExtTreeMap Digest Bytes)

/-- The loop over the digests of a command, with those that have to be requested. -/
def request (now : ℕ) : List Digest → Synchronizer → Synchronizer × List Digest
  | [], s => (s, [])
  | digest :: digests, s =>
    -- Ensure we do not send twice the same sync request.
    if digest ∈ s.pending then request now digests s
    else
      let (s, missing) := request now digests (s.suspend digest now)
      -- Check if we received the batch in the meantime.
      (s, if digest ∈ store then missing else digest :: missing)

/-- Send sync request to a single node. It may be empty. -/
def synchronize (s : Synchronizer) (digests : List Digest) (target : PublicKey) (now : ℕ) :
    Synchronizer :=
  let (s, missing) := request store now digests s
  match node.committee.worker target node.id with
  | .ok _ => { s with sent := s.sent ++ [(target, .BatchRequest missing node.name)] }
  | .error _ => s

/-- Cleanup internal state. The waiter of a handler that goes is cancelled. -/
def cleanup (s : Synchronizer) (round : ℕ) : Synchronizer :=
  let s := { s with round }
  if round < node.gc_depth then s
  else
    let gc_round := round - node.gc_depth
    { s with pending := s.pending.filter fun _ request => request.round > gc_round }

def receive (s : Synchronizer) (now : ℕ) : PrimaryWorkerMessage → Synchronizer
  | .Synchronize digests target => s.synchronize node store digests target now
  | .Cleanup round => s.cleanup node round

/-- The sender of the channel of the waiter is still in `pending`. -/
def is_pending (s : Synchronizer) (w : Waiter) : Bool :=
  (s.pending[w.digest]?).any (·.handler == w.handler)

/-- The digests of the requests that are older than the delay. -/
def overdue (s : Synchronizer) (now : ℕ) : List Digest :=
  (s.pending.toList.filter fun request => request.2.timestamp + node.sync_retry_delay < now).map (·.1)

/-- `lucky_broadcast` shuffles the addresses of the others and takes the first ones. -/
def is_lucky (addresses : List PublicKey) : Bool :=
  let others := node.committee.others_workers node.name node.id
  addresses.length == min node.sync_retry_nodes others.length && addresses.isSubperm others

/-- The timer triggers. -/
def retry (s : Synchronizer) (now : ℕ) (addresses : List PublicKey) : Synchronizer :=
  let retry := s.overdue node now
  if retry.isEmpty then s
  else { s with sent := s.sent ++ addresses.map (·, .BatchRequest retry node.name) }

/-- What the main loop waits for. -/
inductive Event
  | message (message : PrimaryWorkerMessage) (now : ℕ)
  /-- A waiter ends with its batch in the store. -/
  | delivered (i : ℕ)
  /-- A waiter ends because it was canceled. -/
  | canceled (i : ℕ)
  | timer (now : ℕ) (addresses : List PublicKey)
deriving DecidableEq

/-- One turn of the loop. `none` is an event that cannot happen. -/
def step (s : Synchronizer) : Event → Option Synchronizer
  | .message message now => some (s.receive node store now message)
  | .delivered i => do
    let w ← s.waiting[i]?
    if w.digest ∈ store then
      some { s with waiting := s.waiting.eraseIdx i, pending := s.pending.erase w.digest }
    else none
  | .canceled i => do
    let w ← s.waiting[i]?
    if s.is_pending w then none else some { s with waiting := s.waiting.eraseIdx i }
  | .timer now addresses => if is_lucky node addresses then some (s.retry node now addresses) else none

end

/-! ## What is awaited -/

section

variable {node : Node} {store : ExtTreeMap Digest Bytes} {s s' : Synchronizer} {now : ℕ}
  {digests : List Digest} {digest d : Digest} {w : Waiter}

/-- The batch was requested, and a waiter that nobody canceled waits for it. -/
def Awaits (s : Synchronizer) (d : Digest) (x : Pending) : Prop :=
  s.pending[d]? = some x ∧ { digest := d, handler := x.handler } ∈ s.waiting

/-- Every pending request has its waiter. -/
def Live (s : Synchronizer) : Prop :=
  ∀ (d : Digest) (x : Pending), s.pending[d]? = some x → s.Awaits d x

theorem live_spawn : Live spawn := by
  intro d x hx
  simp [spawn] at hx

theorem Live.suspend (h : Live s) : Live (s.suspend digest now) := by
  intro d x hx
  refine ⟨hx, ?_⟩
  unfold Synchronizer.suspend at hx ⊢
  dsimp only at hx ⊢
  rw [ExtTreeMap.getElem?_insert] at hx
  split at hx
  · rename_i heq
    cases hx
    rw [Std.compare_eq_iff_eq] at heq
    simp [heq]
  · exact List.mem_append_left _ (h d x hx).2

/-- What the loop over the digests of a command does. -/
structure Requested (store : ExtTreeMap Digest Bytes) (s s' : Synchronizer)
    (digests missing : List Digest) : Prop where
  live : Live s → Live s'
  round : s'.round = s.round
  sent : s'.sent = s.sent
  /-- A request that was pending stays as it is. -/
  kept : ∀ (d : Digest) (x : Pending), s.pending[d]? = some x → s'.pending[d]? = some x
  pending : ∀ d ∈ digests, d ∈ s'.pending
  asked : ∀ d ∈ digests, d ∈ s.pending ∨ d ∈ store ∨ d ∈ missing
  wanted : ∀ d ∈ missing, d ∈ digests ∧ d ∉ store ∧ d ∉ s.pending

theorem suspend_kept {x : Pending} (hnew : digest ∉ s.pending) (hx : s.pending[d]? = some x) :
    (s.suspend digest now).pending[d]? = some x := by
  unfold suspend
  dsimp only
  rw [ExtTreeMap.getElem?_insert, if_neg]
  · exact hx
  · rw [Std.compare_eq_iff_eq]
    rintro rfl
    rw [ExtTreeMap.getElem?_eq_none hnew] at hx
    cases hx

theorem mem_suspend : d ∈ (s.suspend digest now).pending ↔ digest = d ∨ d ∈ s.pending := by
  unfold suspend
  simp [ExtTreeMap.mem_insert]

theorem requested_of_request (store : ExtTreeMap Digest Bytes) (now : ℕ) (digests : List Digest)
    (s : Synchronizer) :
    Requested store s (request store now digests s).1 digests (request store now digests s).2 := by
  induction digests generalizing s with
  | nil => exact ⟨id, rfl, rfl, fun _ _ h => h, nofun, nofun, nofun⟩
  | cons digest digests ih =>
    rw [request]
    by_cases hpending : digest ∈ s.pending
    · rw [if_pos hpending]
      obtain ⟨hlive, hround, hsent, hkept, hall, hmissing, hwanted⟩ := ih s
      refine ⟨hlive, hround, hsent, hkept, List.forall_mem_cons.mpr ⟨?_, hall⟩,
        List.forall_mem_cons.mpr ⟨Or.inl hpending, hmissing⟩, fun d hd => ?_⟩
      · obtain ⟨x, hx⟩ := Option.isSome_iff_exists.mp
          (ExtTreeMap.mem_iff_isSome_getElem?.mp hpending)
        exact ExtTreeMap.mem_iff_isSome_getElem?.mpr (by rw [hkept digest x hx]; rfl)
      · obtain ⟨hd, hnot⟩ := hwanted d hd
        exact ⟨List.mem_cons_of_mem _ hd, hnot⟩
    rw [if_neg hpending]
    obtain ⟨hlive, hround, hsent, hkept, hall, hmissing, hwanted⟩ := ih (s.suspend digest now)
    refine ⟨fun h => hlive h.suspend, hround, hsent, fun d x hx => hkept d x (suspend_kept hpending hx),
      List.forall_mem_cons.mpr ⟨?_, hall⟩, List.forall_mem_cons.mpr ⟨?_, fun d hd => ?_⟩, ?_⟩
    · have hself : digest ∈ (s.suspend digest now).pending := mem_suspend.mpr (Or.inl rfl)
      obtain ⟨x, hx⟩ := Option.isSome_iff_exists.mp (ExtTreeMap.mem_iff_isSome_getElem?.mp hself)
      exact ExtTreeMap.mem_iff_isSome_getElem?.mpr (by rw [hkept digest x hx]; rfl)
    · by_cases hstored : digest ∈ store
      · exact Or.inr (Or.inl hstored)
      · simp [hstored]
    · have hin : ∀ {l : List Digest}, d ∈ l → d ∈ if digest ∈ store then l else digest :: l := by
        intro l hl
        split
        · exact hl
        · exact List.mem_cons_of_mem _ hl
      rcases hmissing d hd with hd | hd | hd
      · rcases mem_suspend.mp hd with rfl | hd
        · by_cases hstored : digest ∈ store
          · exact Or.inr (Or.inl hstored)
          · simp [hstored]
        · exact Or.inl hd
      · exact Or.inr (Or.inl hd)
      · exact Or.inr (Or.inr (hin hd))
    · have hrest : ∀ d ∈ (request store now digests (s.suspend digest now)).2,
          d ∈ digest :: digests ∧ d ∉ store ∧ d ∉ s.pending := by
        intro d hd
        obtain ⟨hd, hstored, hnot⟩ := hwanted d hd
        exact ⟨List.mem_cons_of_mem _ hd, hstored, fun h => hnot (mem_suspend.mpr (Or.inr h))⟩
      dsimp only
      split
      · exact hrest
      · rename_i hstored
        exact List.forall_mem_cons.mpr ⟨⟨List.mem_cons_self, hstored, hpending⟩, hrest⟩

/-! ## The turns -/

theorem is_pending_of_awaits {x : Pending} (h : s.Awaits d x) :
    s.is_pending { digest := d, handler := x.handler } = true := by
  unfold is_pending
  simp [h.1]

/-- A waiter that ends is no other waiter. -/
theorem mem_eraseIdx {i : ℕ} {w w' : Waiter} (hw : s.waiting[i]? = some w) (hw' : w' ∈ s.waiting)
    (hne : w' ≠ w) : w' ∈ s.waiting.eraseIdx i := by
  obtain ⟨j, hj⟩ := List.mem_iff_getElem?.mp hw'
  rw [List.mem_eraseIdx_iff_getElem?]
  refine ⟨j, ?_, hj⟩
  rintro rfl
  rw [hw] at hj
  cases hj
  exact hne rfl

/-- The request is so old that the cleanup drops it. -/
def Collects (node : Node) (e : Event) (x : Pending) : Prop :=
  ∃ round now, e = .message (.Cleanup round) now ∧ node.gc_depth ≤ round ∧
    x.round ≤ round - node.gc_depth

/-- How a turn changes what is awaited: requests are made, some are collected, a waiter ends, or
nothing changes. -/
theorem awaits_of_step {e : Event} (hlive : Live s) (hstep : s.step node store e = some s') :
    Live s' ∧ ∀ (d : Digest) (x : Pending), s.pending[d]? = some x →
      s'.pending[d]? = some x ∨ d ∈ store ∨ Collects node e x := by
  cases e with
  | message message now =>
    cases hstep
    cases message with
    | Synchronize digests target =>
      obtain ⟨hlive', -, -, hkept, -⟩ := requested_of_request store now digests s
      unfold receive synchronize
      dsimp only
      split <;> exact ⟨hlive' hlive, fun d x hx => Or.inl (hkept d x hx)⟩
    | Cleanup round =>
      unfold receive cleanup
      dsimp only
      split
      · exact ⟨hlive, fun d x hx => Or.inl hx⟩
      rename_i hdepth
      have hfilter : ∀ (d : Digest) (x : Pending),
          (s.pending.filter fun _ request => request.round > round - node.gc_depth)[d]? = some x ↔
            s.pending[d]? = some x ∧ round - node.gc_depth < x.round := by
        intro d x
        rw [ExtTreeMap.getElem?_filter', Option.filter_eq_some_iff, decide_eq_true_eq]
      refine ⟨fun d x hx => ⟨hx, (hlive d x ((hfilter d x).mp hx).1).2⟩, fun d x hx => ?_⟩
      by_cases hround : x.round ≤ round - node.gc_depth
      · exact Or.inr (Or.inr ⟨round, now, rfl, Nat.le_of_not_lt hdepth, hround⟩)
      · exact Or.inl ((hfilter d x).mpr ⟨hx, Nat.lt_of_not_le hround⟩)
  | delivered i =>
    simp only [step, Option.bind_eq_bind, Option.bind_eq_some_iff] at hstep
    obtain ⟨w, hw, hstep⟩ := hstep
    split at hstep <;> cases hstep
    rename_i hstored
    have herase : ∀ (d : Digest) (x : Pending), w.digest ≠ d →
        ((s.pending.erase w.digest)[d]? = some x ↔ s.pending[d]? = some x) := by
      intro d x hne
      rw [ExtTreeMap.getElem?_erase, if_neg]
      rwa [Std.compare_eq_iff_eq]
    constructor
    · intro d x hx
      by_cases heq : w.digest = d
      · subst heq
        simp at hx
      · refine ⟨hx, mem_eraseIdx hw (hlive d x ((herase d x heq).mp hx)).2 ?_⟩
        rintro rfl
        exact heq rfl
    · intro d x hx
      by_cases heq : w.digest = d
      · exact Or.inr (Or.inl (heq ▸ hstored))
      · exact Or.inl ((herase d x heq).mpr hx)
  | canceled i =>
    simp only [step, Option.bind_eq_bind, Option.bind_eq_some_iff] at hstep
    obtain ⟨w, hw, hstep⟩ := hstep
    split at hstep <;> cases hstep
    rename_i hgone
    refine ⟨fun d x hx => ⟨hx, mem_eraseIdx hw (hlive d x hx).2 ?_⟩, fun d x hx => Or.inl hx⟩
    rintro rfl
    exact hgone (is_pending_of_awaits (hlive d x hx))
  | timer now addresses =>
    unfold step at hstep
    dsimp only at hstep
    split at hstep <;> cases hstep
    unfold retry
    dsimp only
    split <;> exact ⟨hlive, fun d x hx => Or.inl hx⟩

theorem length_of_timer {addresses : List PublicKey}
    (hstep : s.step node store (.timer now addresses) = some s') : addresses.length =
      min node.sync_retry_nodes (node.committee.others_workers node.name node.id).length := by
  unfold step at hstep
  dsimp only at hstep
  split at hstep
  · rename_i hlucky
    exact beq_iff_eq.mp (Bool.and_eq_true_iff.mp hlucky).1
  · cases hstep

/-- The timer asks the lucky ones for each batch whose request is older than the delay. -/
theorem asks_of_timer {addresses : List PublicKey} {x : Pending}
    (hstep : s.step node store (.timer now addresses) = some s') (hx : s.pending[d]? = some x)
    (hdelay : x.timestamp + node.sync_retry_delay < now) {name : PublicKey} (hname : name ∈ addresses) :
    ∃ digests, d ∈ digests ∧
      (name, .BatchRequest digests node.name) ∈ s'.sent.drop s.sent.length := by
  have hd : d ∈ s.overdue node now := by
    refine List.mem_map.mpr ⟨(d, x), List.mem_filter.mpr ⟨?_, by simpa using hdelay⟩, rfl⟩
    exact ExtTreeMap.mem_toList_iff_getElem?_eq_some.mpr hx
  unfold step at hstep
  dsimp only at hstep
  split at hstep <;> cases hstep
  unfold retry
  dsimp only
  rw [if_neg (by simpa using List.ne_nil_of_mem hd), List.drop_left]
  exact ⟨_, hd, List.mem_map_of_mem hname⟩

/-- A waiter whose batch is in the store can end, and then nothing is pending for the batch. -/
theorem delivers_of_awaits (node : Node) {x : Pending} (hx : s.Awaits d x) (hd : d ∈ store) :
    ∃ i s', s.step node store (.delivered i) = some s' ∧ d ∉ s'.pending := by
  obtain ⟨i, hi⟩ := List.mem_iff_getElem?.mp hx.2
  refine ⟨i, { s with waiting := s.waiting.eraseIdx i, pending := s.pending.erase d }, ?_, ?_⟩
  · unfold step
    simp [hi, hd]
  · simp

/-- A command makes every batch that it names pending, and asks its target for those that were not
stored or pending. -/
theorem pending_of_synchronize (node : Node) (store : ExtTreeMap Digest Bytes) (s : Synchronizer)
    (digests : List Digest) (target : PublicKey) (now : ℕ) :
    (∀ d ∈ digests, d ∈ (s.synchronize node store digests target now).pending) ∧
      ((node.committee.worker target node.id).toBool = true → ∃ missing,
        (s.synchronize node store digests target now).sent =
            s.sent ++ [(target, .BatchRequest missing node.name)] ∧
          ∀ d, d ∈ missing ↔ d ∈ digests ∧ d ∉ store ∧ d ∉ s.pending) := by
  obtain ⟨-, -, hsent, -, hpending, hasked, hwanted⟩ := requested_of_request store now digests s
  unfold synchronize
  dsimp only
  split
  · refine ⟨hpending, fun _ => ⟨_, by rw [hsent], fun d => ⟨hwanted d, ?_⟩⟩⟩
    rintro ⟨hd, hstored, hnew⟩
    exact ((hasked d hd).resolve_left hnew).resolve_left hstored
  · rename_i hunknown
    refine ⟨hpending, fun hknown => ?_⟩
    rw [hunknown] at hknown
    cases hknown

end

end Synchronizer

end sailfish.worker
