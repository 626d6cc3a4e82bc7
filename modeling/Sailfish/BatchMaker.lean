-- The batch maker of a worker (`worker/src/batch_maker.rs`), without the benchmark
-- feature: it collects the transactions of clients into batches, and seals a batch that
-- is large enough or that the timer finds. The sizes are those of what is in memory, so
-- they fit `usize`. The timer may trigger at any time.
import Mathlib
import Sailfish.Crypto

open sailfish.crypto

namespace sailfish.worker

abbrev Transaction := List UInt8

abbrev Batch := List Transaction

/-- The message exchanged between workers, before it is serialized. -/
inductive WorkerMessage
  | Batch (batch : Batch)
  | BatchRequest (digests : List Digest) (origin : PublicKey)
deriving DecidableEq

/-- A batch, with the workers that were sent it. The handlers of the network are known by the
workers. -/
structure QuorumWaiterMessage where
  batch : WorkerMessage
  handlers : List PublicKey
deriving DecidableEq

/-- Assemble clients transactions into batches. -/
structure BatchMaker where
  /-- The preferred batch size (in bytes). -/
  batch_size : ℕ
  /-- The other workers that share our worker id. -/
  workers : List PublicKey
  /-- Holds the current batch. -/
  current_batch : Batch
  /-- Holds the size of the current batch (in bytes). -/
  current_batch_size : ℕ
  /-- What was sent to `tx_message`. -/
  sent : List QuorumWaiterMessage
deriving DecidableEq

namespace BatchMaker

def spawn (batch_size : ℕ) (workers : List PublicKey) : BatchMaker :=
  { batch_size, workers, current_batch := [], current_batch_size := 0, sent := [] }

/-- Seal and broadcast the current batch (`seal`, a keyword here). -/
def seal_batch (s : BatchMaker) : BatchMaker :=
  let message := { batch := .Batch s.current_batch, handlers := s.workers }
  { s with current_batch_size := 0, current_batch := [], sent := s.sent ++ [message] }

/-- What the loop waits for. -/
inductive Event
  | transaction (transaction : Transaction)
  | timer
deriving DecidableEq

/-- Assemble client transactions into batches of preset size. If the timer triggers, seal the batch
even if it contains few transactions. -/
def step (s : BatchMaker) : Event → BatchMaker
  | .transaction transaction =>
    let s := { s with
      current_batch_size := s.current_batch_size + transaction.length
      current_batch := s.current_batch ++ [transaction] }
    if s.current_batch_size ≥ s.batch_size then s.seal_batch else s
  | .timer => if s.current_batch.isEmpty then s else s.seal_batch

def run (batch_size : ℕ) (workers : List PublicKey) (events : List Event) : BatchMaker :=
  events.foldl step (spawn batch_size workers)

theorem run_concat (batch_size : ℕ) (workers : List PublicKey) (events : List Event) (e : Event) :
    run batch_size workers (events ++ [e]) = (run batch_size workers events).step e := by
  unfold run
  rw [List.foldl_append]
  rfl

/-! ## What is received and what is sealed -/

/-- The transactions that were received, in order. -/
def received (events : List Event) : List Transaction :=
  events.filterMap fun
    | .transaction transaction => some transaction
    | .timer => none

theorem received_append (l l' : List Event) : received (l ++ l') = received l ++ received l' :=
  List.filterMap_append

/-- The batches that were sealed, in order. -/
def sealed (s : BatchMaker) : List Batch :=
  s.sent.filterMap fun message =>
    match message.batch with
    | .Batch batch => some batch
    | .BatchRequest _ _ => none

/-- The size of a batch (in bytes). -/
def bytes (batch : Batch) : ℕ := (batch.map List.length).sum

variable {s : BatchMaker}

@[simp] theorem bytes_append (l l' : Batch) : bytes (l ++ l') = bytes l + bytes l' := by
  simp [bytes]

@[simp] theorem seal_batch_sealed : s.seal_batch.sealed = s.sealed ++ [s.current_batch] := by
  simp [sealed, seal_batch, List.filterMap_append]

/-- A batch that may be sealed: it is not empty, and was not full before its last transaction. -/
structure Sealable (batch_size : ℕ) (batch : Batch) : Prop where
  nonempty : batch ≠ []
  small : bytes batch.dropLast < batch_size

/-- What holds between two turns of the loop. -/
structure Assembled (batch_size : ℕ) (transactions : List Transaction) (s : BatchMaker) : Prop where
  limit : s.batch_size = batch_size
  order : s.sealed.flatten ++ s.current_batch = transactions
  size : s.current_batch_size = bytes s.current_batch
  open_batch : s.current_batch_size < batch_size
  sealable : ∀ batch ∈ s.sealed, Sealable batch_size batch

variable {batch_size : ℕ} {transactions : List Transaction}

/-- Sealing a batch that may be sealed keeps the order, and begins an empty batch. -/
theorem assembled_seal (hpos : 0 < batch_size) (hsize : s.batch_size = batch_size)
    (horder : s.sealed.flatten ++ s.current_batch = transactions)
    (hsealable : ∀ batch ∈ s.sealed, Sealable batch_size batch)
    (hnow : Sealable batch_size s.current_batch) :
    Assembled batch_size transactions s.seal_batch where
  limit := hsize
  order := by
    have hopen : s.seal_batch.current_batch = [] := rfl
    simpa [hopen] using horder
  size := rfl
  open_batch := hpos
  sealable := by
    rw [seal_batch_sealed]
    intro batch hm
    rcases List.mem_append.mp hm with hm | hm
    · exact hsealable batch hm
    · rw [List.mem_singleton.mp hm]
      exact hnow

theorem Assembled.step (hpos : 0 < batch_size) (h : Assembled batch_size transactions s) (e : Event) :
    Assembled batch_size (transactions ++ received [e]) (s.step e) := by
  cases e with
  | transaction t =>
    have horder : s.sealed.flatten ++ (s.current_batch ++ [t]) = transactions ++ [t] := by
      rw [← List.append_assoc, h.order]
    have hsize : s.current_batch_size + t.length = bytes (s.current_batch ++ [t]) := by
      rw [bytes_append, h.size]
      simp [bytes]
    unfold BatchMaker.step
    dsimp only
    split
    · -- the batch was not full before this transaction
      have hsmall := h.open_batch
      rw [h.size] at hsmall
      exact assembled_seal hpos h.limit horder h.sealable ⟨by simp, by simpa using hsmall⟩
    · rename_i hfull
      rw [h.limit] at hfull
      exact ⟨h.limit, horder, hsize, Nat.lt_of_not_ge hfull, h.sealable⟩
  | timer =>
    have hreceived : transactions ++ received [.timer] = transactions := List.append_nil _
    rw [hreceived]
    unfold BatchMaker.step
    dsimp only
    split
    · exact h
    · rename_i hne
      refine assembled_seal hpos h.limit h.order h.sealable ⟨by simpa using hne, ?_⟩
      have hsmall := h.open_batch
      rw [h.size] at hsmall
      apply Nat.lt_of_le_of_lt _ hsmall
      exact ((List.dropLast_sublist _).map List.length).sum_le_sum fun _ _ => Nat.zero_le _

/-- For every batch size from 1 on and every order of transactions and timers: the sealed batches
and then the current one hold the transactions in the order they came in, the size is the one of the
current batch and is below the batch size, no sealed batch is empty, and none was full before its
last transaction. -/
theorem transactions_are_kept_in_order (batch_size : ℕ) (hpos : 0 < batch_size)
    (workers : List PublicKey) (events : List Event) :
    let s := run batch_size workers events
    s.sealed.flatten ++ s.current_batch = received events ∧
      s.current_batch_size = bytes s.current_batch ∧ s.current_batch_size < batch_size ∧
      ∀ batch ∈ s.sealed, batch ≠ [] ∧ bytes batch.dropLast < batch_size := by
  suffices h : Assembled batch_size (received events) (run batch_size workers events) from
    ⟨h.order, h.size, h.open_batch, fun b hb => ⟨(h.sealable b hb).nonempty, (h.sealable b hb).small⟩⟩
  induction events using List.reverseRecOn with
  | nil => exact ⟨rfl, rfl, rfl, hpos, nofun⟩
  | append_singleton events e ih =>
    rw [run_concat, received_append]
    exact ih.step hpos e

/-- An empty transaction, a large one, and a small one that the timer finds. -/
def three_transactions : List Event :=
  [.transaction [], .timer, .transaction [1, 2, 3], .timer, .transaction [4], .timer]

theorem transactions_are_kept_in_order_three :
    (run 2 [] three_transactions).sealed = [[[]], [[1, 2, 3]], [[4]]] ∧
      (run 2 [] three_transactions).sealed.flatten ++ (run 2 [] three_transactions).current_batch =
        received three_transactions :=
  ⟨by decide +kernel, (transactions_are_kept_in_order 2 (by decide) [] three_transactions).1⟩

end BatchMaker

end sailfish.worker
