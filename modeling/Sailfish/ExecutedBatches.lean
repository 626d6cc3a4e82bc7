-- The law of executed batches: the driver compares the transactions of a payload with
-- the ones of the batch as two sets, so it records every payload with the same set, in
-- whatever order and however often it holds them.
import Mathlib
import Sailfish.StateTransition

namespace sailfish.state_transition

/-- `tx.lower()` on each of the transactions. -/
def lower (txs : List String) : List String := txs.map String.toLower

/-- The payload of one of the attempts at the batch, the last one, is submitted, and its block hash
becomes the one of the batch. -/
def Records (batch : Batch) (o : Responses) (payload : Payload) : Prop :=
  ∃ k block_number saved, 1 ≤ k ∧ k ≤ RETRY_LIMIT ∧
    (∀ j, 1 ≤ j → j < k → attempt batch.transactions (o.attempt j) = .retry) ∧
    (o.attempt k).payload = .returns (some payload) ∧
    attempt batch.transactions (o.attempt k) = .included payload.blockHash block_number saved ∧
    process batch o = some (.included payload.blockHash block_number saved)

/-- The batch has no block yet, and the payload has its transactions, as a set, and a number. -/
def Recordable (batch : Batch) (payload : Payload) : Prop :=
  truthy batch.blockhash = false ∧ payload.blockNumber.isSome = true ∧
    ∀ tx, tx ∈ lower payload.transactions ↔ tx ∈ lower batch.transactions

theorem all_txs_exactly_match_iff {payload : Payload} {batch_txs : List String} :
    all_txs_exactly_match payload batch_txs = true ↔
      ∀ tx, tx ∈ lower payload.transactions ↔ tx ∈ lower batch_txs := by
  unfold all_txs_exactly_match
  simp only [Bool.and_eq_true, List.all_eq_true, List.contains_iff_mem]
  constructor
  · rintro ⟨h, h'⟩ tx
    exact ⟨h tx, h' tx⟩
  · intro h
    exact ⟨fun tx => (h tx).mp, fun tx => (h tx).mpr⟩

/-- An attempt that gives the batch a block submits a payload that matches, with a number. -/
theorem attempt_included {batch_txs : List String} {o : Attempt} {block_hash : Option String}
    {block_number : ℤ} {saved : Bool}
    (h : attempt batch_txs o = .included block_hash block_number saved) :
    ∃ payload, o.payload = .returns (some payload) ∧ payload.blockHash = block_hash ∧
      payload.blockNumber = some block_number ∧
      all_txs_exactly_match payload batch_txs = true := by
  unfold attempt at h
  split at h
  · cases h
  · cases h
  · split at h
    · split at h
      · cases h
      · cases h
      · cases h
      · rename_i payload hpayload
        split at h
        · rename_i hmatch
          unfold submit at h
          split at h
          · cases h
          · cases h
          · split at h
            · split at h
              · cases h
              · cases h
              · cases h
              · rename_i hnumber _
                cases h
                exact ⟨payload, hpayload, rfl, hnumber, hmatch⟩
            · cases h
        · cases h
    · cases h

/-- The driver records a payload only for a batch without a block, when the sets match. -/
theorem Records.recordable {batch : Batch} {o : Responses} {payload : Payload}
    (h : Records batch o payload) : Recordable batch payload := by
  obtain ⟨k, block_number, saved, -, -, -, hpayload, hattempt, hprocess⟩ := h
  obtain ⟨payload', hpayload', -, hnumber, hmatch⟩ := attempt_included hattempt
  rw [hpayload] at hpayload'
  cases hpayload'
  exact ⟨process_eq_some hprocess, by rw [hnumber]; rfl, all_txs_exactly_match_iff.mp hmatch⟩

/-- The attempts end with the first one that does not retry. -/
theorem attempts_included {batch_txs : List String} {o : ℕ → Attempt} {left : ℕ}
    {block_hash : Option String} {block_number : ℤ} {saved : Bool}
    (h : attempts batch_txs o left = .included block_hash block_number saved) :
    ∃ k, RETRY_LIMIT + 1 - left ≤ k ∧ k ≤ RETRY_LIMIT ∧
      (∀ j, RETRY_LIMIT + 1 - left ≤ j → j < k → attempt batch_txs (o j) = .retry) ∧
      attempt batch_txs (o k) = .included block_hash block_number saved := by
  induction left with
  | zero => cases h
  | succ left ih =>
    unfold attempts at h
    rw [Nat.add_sub_add_right]
    split at h
    · rename_i hretry
      obtain ⟨k, hk, hlimit, hbefore, hattempt⟩ := ih h
      refine ⟨k, by omega, hlimit, fun j h1 h2 => ?_, hattempt⟩
      by_cases hj : j = RETRY_LIMIT - left
      · rw [hj]
        exact hretry
      · exact hbefore j (by omega) h2
    · exact ⟨RETRY_LIMIT - left, Nat.le_refl _, Nat.sub_le _ _, fun j h1 h2 => by omega, h⟩

/-- Every block that the driver gives a batch is the one of a payload that it records. -/
theorem exists_records {batch : Batch} {o : Responses} {block_hash : Option String}
    {block_number : ℤ} {saved : Bool}
    (h : process batch o = some (.included block_hash block_number saved)) :
    ∃ payload, payload.blockHash = block_hash ∧ Records batch o payload := by
  have hattempts : attempts batch.transactions o.attempt RETRY_LIMIT =
      .included block_hash block_number saved := by
    unfold process at h
    split at h
    · cases h
    · split at h
      · split at h
        · cases h
        · exact Option.some.inj h
      · cases h
  obtain ⟨k, hk, hlimit, hbefore, hattempt⟩ := attempts_included hattempts
  rw [Nat.add_sub_cancel_left] at hk hbefore
  obtain ⟨payload, hpayload, rfl, -⟩ := attempt_included hattempt
  exact ⟨payload, rfl, k, block_number, saved, hk, hlimit, hbefore, hpayload, hattempt, h⟩

/-- The driver writes the block hash of the payload into the batch that it is at. -/
theorem Records.step {s : Driver} {batch : Batch} {o : Responses} {payload : Payload}
    (h : Records batch o payload) (hrunning : s.running = true)
    (hbatch : s.batches[s.next]? = some batch) :
    ((step s (.batch o)).batches[s.next]?).map Batch.blockhash = some payload.blockHash := by
  obtain ⟨k, block_number, saved, -, -, -, -, -, hprocess⟩ := h
  have hlt : s.next < s.batches.length := (List.getElem?_eq_some_iff.mp hbatch).1
  unfold state_transition.step
  rw [hrunning, hbatch]
  dsimp only
  rw [hprocess]
  cases saved <;> simp [hlt]

/-- A client that answers every attempt with the payload, and takes it. -/
def takes (payload : Payload) : Responses where
  sent := fun _ => .returns ()
  latest := .block (some "0x01") (some 7)
  latest_again := .raises
  attempt := fun _ =>
    { forkchoice := .returns (some "0x02")
      payload := .returns (some payload)
      status := .returns (some "VALID")
      final_forkchoice := .returns ()
      saved := true }

theorem records_takes {batch : Batch} {payload : Payload} (h : Recordable batch payload) :
    Records batch (takes payload) payload := by
  obtain ⟨hblock, hnumber, hmatch⟩ := h
  obtain ⟨block_number, hnumber⟩ := Option.isSome_iff_exists.mp hnumber
  have hattempt : ∀ j, attempt batch.transactions ((takes payload).attempt j) =
      .included payload.blockHash block_number true := by
    intro j
    simp [attempt, takes, truthy, all_txs_exactly_match_iff.mpr hmatch, submit, hnumber]
  refine ⟨1, block_number, true, Nat.le_refl 1, by decide, fun j h1 h2 => by omega, rfl,
    hattempt 1, ?_⟩
  have hsends : sends batch.transactions (takes payload) = true := by
    simp [sends, takes]
  have hhead : head (takes payload) = some ("0x01", 17) := by
    simp [head, get_latest_block_info, takes]
  have hfirst : attempts batch.transactions (takes payload).attempt RETRY_LIMIT =
      .included payload.blockHash block_number true := by
    unfold RETRY_LIMIT attempts
    rw [hattempt]
  unfold process
  rw [hblock, hsends, hhead, hfirst]
  rfl

/-- What the driver records for a batch has the transactions of the batch, in order and as often,
just when the payload is not one with the same set only. So two nodes that record a payload for the
batch have the same transactions in the same order just when no two payloads have the same set
only. -/
theorem recorded_transactions_are_the_batch_iff (batch : Batch) (payload : Payload) :
    ((∀ o, Records batch o payload → lower payload.transactions = lower batch.transactions) ↔
      (Recordable batch payload → lower payload.transactions = lower batch.transactions)) ∧
    ∀ payload', (∀ o o', Records batch o payload → Records batch o' payload' →
        lower payload.transactions = lower payload'.transactions) ↔
      (Recordable batch payload → Recordable batch payload' →
        lower payload.transactions = lower payload'.transactions) := by
  refine ⟨⟨?_, ?_⟩, fun payload' => ⟨?_, ?_⟩⟩
  · exact fun h hrec => h _ (records_takes hrec)
  · exact fun h o hrec => h hrec.recordable
  · exact fun h hrec hrec' => h _ _ (records_takes hrec) (records_takes hrec')
  · exact fun h o o' hrec hrec' => h hrec.recordable hrec'.recordable

/-- A batch of two transactions. -/
def ordered_batch : Batch :=
  { transactions := ["0xaa", "0xbb"], blockhash := none, blocknumber := -1 }

/-- A payload with the transactions of the batch in the opposite order. -/
def swapped_payload : Payload :=
  { transactions := ["0xbb", "0xaa"], blockHash := some "0x03", blockNumber := some 1 }

/-- The driver records the payload with the transactions in the opposite order. -/
theorem swapped_transactions_are_recorded :
    ¬ ∀ (batch : Batch) (payload : Payload) (o : Responses), Records batch o payload →
      lower payload.transactions = lower batch.transactions := by
  intro h
  have hrec : Recordable ordered_batch swapped_payload := by
    refine ⟨by decide +kernel, rfl, ?_⟩
    rw [← all_txs_exactly_match_iff]
    decide +kernel
  exact absurd (h _ _ _ (records_takes hrec)) (by decide +kernel)

end sailfish.state_transition
