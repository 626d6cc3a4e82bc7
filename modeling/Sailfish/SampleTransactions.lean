-- The batch maker of a worker (`worker/src/batch_maker.rs`) with the benchmark feature, and
-- its law: when the sealing of a batch completes. The search for sample transactions reads
-- the first byte of each transaction of the batch, and a transaction may have none.
import Mathlib
import Sailfish.BatchMaker

open sailfish.crypto

namespace sailfish.worker.BatchMaker

/-- What the feature logs of a batch. Its digest is known by the batch. -/
inductive LogEntry
  | contains_sample_tx (batch : WorkerMessage) (id : ℕ)
  | contains_bytes (batch : WorkerMessage) (size : ℕ)
deriving DecidableEq

/-- The batch maker with the feature. -/
structure Benchmark where
  maker : BatchMaker
  logged : List LogEntry
deriving DecidableEq

/-- `bytes[start..stop]`. `none` is a panic: the index is out of bounds. -/
def slice (bytes : List UInt8) (start stop : ℕ) : Option (List UInt8) :=
  if start ≤ stop ∧ stop ≤ bytes.length then some ((bytes.take stop).drop start) else none

/-- Look for sample txs (they all start with 0) and gather their txs id (the next 8 bytes). -/
def tx_ids : Batch → Option (List (List UInt8))
  | [] => some []
  | tx :: batch => do
    if (← tx[0]?) == 0 && tx.length > 8 then
      return (← slice tx 1 9) :: (← tx_ids batch)
    else tx_ids batch

namespace Benchmark

def spawn (batch_size : ℕ) (workers : List PublicKey) : Benchmark :=
  { maker := .spawn batch_size workers, logged := [] }

/-- Seal and broadcast the current batch (`seal`, a keyword here). -/
def seal_batch (s : Benchmark) : Option Benchmark := do
  let size := s.maker.current_batch_size
  let tx_ids ← tx_ids s.maker.current_batch
  let message := WorkerMessage.Batch s.maker.current_batch
  return {
    maker := s.maker.seal_batch
    logged := s.logged ++ tx_ids.map (fun id => .contains_sample_tx message (from_be_bytes id)) ++
      [.contains_bytes message size] }

def step (s : Benchmark) : Event → Option Benchmark
  | .transaction transaction =>
    let s := { s with maker := { s.maker with
      current_batch_size := s.maker.current_batch_size + transaction.length
      current_batch := s.maker.current_batch ++ [transaction] } }
    if s.maker.current_batch_size ≥ s.maker.batch_size then s.seal_batch else some s
  | .timer => if s.maker.current_batch.isEmpty then some s else s.seal_batch

/-- The run on what the `TxReceiverHandler` forwards, every frame as it is, and on the timer. `none`
is a panic. -/
def run (batch_size : ℕ) (workers : List PublicKey) (events : List Event) : Option Benchmark :=
  events.foldlM step (spawn batch_size workers)

variable {batch_size : ℕ} {workers : List PublicKey} {s s' : Benchmark} {events : List Event}

/-- The search finds its bytes in all transactions but an empty one. -/
theorem tx_ids_isSome {batch : Batch} : (tx_ids batch).isSome = true ↔ [] ∉ batch := by
  induction batch with
  | nil => simp [tx_ids]
  | cons tx batch ih =>
    rcases tx with _ | ⟨first, rest⟩
    · simp [tx_ids]
    · have hids : (tx_ids ((first :: rest) :: batch)).isSome = (tx_ids batch).isSome := by
        rw [tx_ids]
        simp only [List.getElem?_cons_zero, Option.bind_eq_bind, Option.bind_some]
        split
        · rename_i hsample
          simp only [Bool.and_eq_true, decide_eq_true_eq] at hsample
          rw [slice, if_pos ⟨by decide, hsample.2⟩, Option.bind_some]
          rcases tx_ids batch with _ | ids <;> rfl
        · rfl
      rw [hids, ih]
      simp

theorem seal_batch_isSome : s.seal_batch.isSome = true ↔ [] ∉ s.maker.current_batch := by
  rw [← tx_ids_isSome]
  unfold seal_batch
  rcases tx_ids s.maker.current_batch with _ | ids
  · exact Iff.rfl
  · exact Iff.rfl

/-- Apart from the log, the feature leaves the batch maker as it is. -/
theorem seal_batch_maker (h : s.seal_batch = some s') : s'.maker = s.maker.seal_batch := by
  unfold seal_batch at h
  obtain ⟨ids, -, h⟩ := Option.bind_eq_some_iff.mp h
  cases h
  rfl

theorem step_maker {e : Event} (h : s.step e = some s') : s'.maker = s.maker.step e := by
  cases e with
  | transaction transaction =>
    unfold step at h
    unfold BatchMaker.step
    dsimp only at h ⊢
    split at h
    · rename_i hfull
      rw [if_pos hfull]
      exact seal_batch_maker h
    · rename_i hopen
      rw [if_neg hopen]
      cases h
      rfl
  | timer =>
    unfold step at h
    unfold BatchMaker.step
    dsimp only at h ⊢
    split at h
    · rename_i hempty
      rw [if_pos hempty]
      cases h
      rfl
    · rename_i hne
      rw [if_neg hne]
      exact seal_batch_maker h

theorem run_append {rest : List Event} : run batch_size workers (events ++ rest) =
    (run batch_size workers events).bind fun s => rest.foldlM step s := by
  unfold run
  exact List.foldlM_append

theorem run_concat {e : Event} : run batch_size workers (events ++ [e]) =
    (run batch_size workers events).bind (·.step e) := by
  rw [run_append]
  congr 1
  funext s
  exact bind_pure _

/-- A run with the feature, up to the log, is one without it. -/
theorem run_maker (h : run batch_size workers events = some s) :
    s.maker = BatchMaker.run batch_size workers events := by
  induction events using List.reverseRecOn generalizing s with
  | nil =>
    cases h
    rfl
  | append_singleton events e ih =>
    rw [Benchmark.run_concat] at h
    obtain ⟨before, hbefore, hstep⟩ := Option.bind_eq_some_iff.mp h
    rw [step_maker hstep, ih hbefore, BatchMaker.run_concat]

end Benchmark

/-- What the current batch holds was received. -/
theorem mem_received_of_mem_current_batch {batch_size : ℕ} {workers : List PublicKey}
    {events : List Event} {transaction : Transaction}
    (h : transaction ∈ (run batch_size workers events).current_batch) :
    transaction ∈ received events := by
  induction events using List.reverseRecOn with
  | nil => cases h
  | append_singleton events e ih =>
    rw [received_append, List.mem_append]
    rw [run_concat] at h
    cases e with
    | transaction t =>
      unfold BatchMaker.step at h
      dsimp only at h
      split at h
      · cases h
      · rcases List.mem_append.mp h with h | h
        · exact Or.inl (ih h)
        · exact Or.inr h
    | timer =>
      unfold BatchMaker.step at h
      dsimp only at h
      split at h
      · exact Or.inl (ih h)
      · cases h

namespace Benchmark

variable {batch_size : ℕ} {workers : List PublicKey} {s s' : Benchmark} {events : List Event}

/-- A step completes when neither the current batch nor the event has an empty transaction. -/
theorem step_isSome {e : Event} (h : [] ∉ s.maker.current_batch) (he : [] ∉ received [e]) :
    (s.step e).isSome = true := by
  cases e with
  | transaction transaction =>
    change [] ∉ [transaction] at he
    unfold step
    dsimp only
    split
    · rw [seal_batch_isSome, List.mem_append, not_or]
      exact ⟨h, he⟩
    · rfl
  | timer =>
    unfold step
    dsimp only
    split
    · rfl
    · exact seal_batch_isSome.mpr h

theorem run_isSome (h : [] ∉ received events) : (run batch_size workers events).isSome = true := by
  induction events using List.reverseRecOn with
  | nil => rfl
  | append_singleton events e ih =>
    rw [received_append, List.mem_append, not_or] at h
    obtain ⟨s, hs⟩ := Option.isSome_iff_exists.mp (ih h.1)
    rw [Benchmark.run_concat, hs, Option.bind_some]
    refine step_isSome ?_ h.2
    rw [run_maker hs]
    exact fun hm => h.1 (mem_received_of_mem_current_batch hm)

/-- An empty transaction, and then the timer: the batch is sealed with it, at once or then. -/
theorem steps_of_empty : [.transaction [], .timer].foldlM step s = none := by
  have hseal : ∀ s : Benchmark, [] ∈ s.maker.current_batch → s.seal_batch = none := by
    intro s hm
    rw [← Option.not_isSome_iff_eq_none, seal_batch_isSome]
    exact not_not_intro hm
  rw [List.foldlM_cons]
  unfold step
  dsimp only
  split
  · -- the batch is full
    rw [hseal _ (List.mem_append_right _ List.mem_cons_self)]
    rfl
  · refine Option.bind_eq_none_iff.mpr fun s' hs' => ?_
    cases hs'
    simp [hseal]

/-- For every batch size and every sequence of frames: the sealing completes in all interleavings
with the timer if and only if no frame is empty. -/
theorem sealing_completes_iff (batch_size : ℕ) (workers : List PublicKey)
    (frames : List Transaction) :
    (∀ events, received events = frames → (run batch_size workers events).isSome = true) ↔
      [] ∉ frames := by
  constructor
  · intro h hm
    obtain ⟨before, rest, rfl⟩ := List.append_of_mem hm
    have hreceived : ∀ l : List Transaction, received (l.map .transaction) = l := by
      intro l
      unfold received
      rw [List.filterMap_map]
      exact List.filterMap_some
    have hsome := h (before.map .transaction ++ ([.transaction [], .timer] ++
      rest.map .transaction)) (by
        rw [received_append, received_append, hreceived, hreceived]
        rfl)
    rw [run_append] at hsome
    rcases hrun : run batch_size workers (before.map .transaction) with _ | s
    · rw [hrun] at hsome
      cases hsome
    · rw [hrun, Option.bind_some, List.foldlM_append, steps_of_empty] at hsome
      cases hsome
  · rintro h events rfl
    exact run_isSome h

/-- A client sends a frame of no bytes, and the timer triggers. -/
theorem empty_transaction_is_not_sealed :
    (run 500 [] [.transaction [], .timer]).isSome = false := by
  decide +kernel

end Benchmark

end sailfish.worker.BatchMaker
