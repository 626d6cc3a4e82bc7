-- The driver of the state transition (`nm_state_transition_with_retry3.py`): it goes
-- through the batches of a file in their order, and has an execution client make a block
-- of each. What the client answers is the input. The log file is only ever written.
import Mathlib
import Sailfish.Lib.Splits

open splits

namespace sailfish.state_transition

def RETRY_LIMIT : ℕ := 15

/-- A record of the batch file. -/
structure Batch where
  transactions : List String
  blockhash : Option String
  blocknumber : ℤ
deriving DecidableEq

/-- The truth value of a string that may be `None`. -/
def truthy : Option String → Bool
  | some s => s != ""
  | none => false

/-! ## What the execution client answers -/

/-- What becomes of an RPC call: a result, an exception that the driver catches, or one that ends
the driver (a signal, or no new token after the exception). -/
inductive Outcome (α : Type)
  | returns (a : α)
  | raises
  | stops
deriving DecidableEq

/-- The answer to `eth_getBlockByNumber`: the latest block with its timestamp, where it is a number,
the status 401, or any other exception. -/
inductive BlockResponse
  | block (hash : Option String) (timestamp : Option ℕ)
  | unauthorized
  | raises
deriving DecidableEq

/-- The execution payload, with its block number, where it is one. -/
structure Payload where
  transactions : List String
  blockHash : Option String
  blockNumber : Option ℤ
deriving DecidableEq

/-- What happens in one attempt: the payload id, the payload (`none` is a null result), the status
of the payload, the confirmation of the new head, and whether the file is saved. -/
structure Attempt where
  forkchoice : Outcome (Option String)
  payload : Outcome (Option Payload)
  status : Outcome (Option String)
  final_forkchoice : Outcome Unit
  saved : Bool

/-- What happens while the driver is at one batch. -/
structure Responses where
  sent : ℕ → Outcome Unit
  latest : BlockResponse
  latest_again : BlockResponse
  attempt : ℕ → Attempt

/-! ## The driver at one batch -/

/-- The transactions are hex strings. -/
def all_txs_exactly_match (payload : Payload) (batch_txs : List String) : Bool :=
  let included := payload.transactions.map String.toLower
  let batch := batch_txs.map String.toLower
  included.all batch.contains && batch.all included.contains

/-- The latest block, with a new token after a status 401. `none` is an exception. -/
def get_latest_block_info (o : Responses) : Option (Option String × Option ℕ) :=
  match o.latest with
  | .block hash timestamp => some (hash, timestamp)
  | .raises => none
  | .unauthorized =>
    match o.latest_again with
    | .block hash timestamp => some (hash, timestamp)
    | .raises => none
    | .unauthorized => some (none, none)

/-- The head and the timestamp of the new block. Without them the driver exits. -/
def head (o : Responses) : Option (String × ℕ) :=
  match get_latest_block_info o with
  | some (some hash, some timestamp) => if hash != "" then some (hash, timestamp + 10) else none
  | _ => none

/-- How the driver is done with one attempt at a batch, or with all of them. -/
inductive Result
  | retry
  | abort
  | stop
  | included (block_hash : Option String) (block_number : ℤ) (saved : Bool)
deriving DecidableEq

/-- The payload matches: submit it, and then make its block the head. -/
def submit (payload : Payload) (o : Attempt) : Result :=
  match o.status with
  | .stops => .stop
  | .raises => .retry
  | .returns status =>
    if status = some "VALID" ∨ status = some "ACCEPTED" then
      match payload.blockNumber, o.final_forkchoice with
      | none, _ => .stop
      | some _, .stops => .stop
      | some _, .raises => .retry
      | some block_number, .returns () => .included payload.blockHash block_number o.saved
    else .abort

def attempt (batch_txs : List String) (o : Attempt) : Result :=
  match o.forkchoice with
  | .stops => .stop
  | .raises => .retry
  | .returns payload_id =>
    if truthy payload_id then
      match o.payload with
      | .stops | .returns none => .stop
      | .raises => .retry
      | .returns (some payload) =>
        if all_txs_exactly_match payload batch_txs then submit payload o else .retry
    else .retry

/-- The loop over the attempts, with the number of those that are left. -/
def attempts (batch_txs : List String) (o : ℕ → Attempt) : ℕ → Result
  | 0 => .retry
  | left + 1 =>
    match attempt batch_txs (o (RETRY_LIMIT - left)) with
    | .retry => attempts batch_txs o left
    | result => result

/-- The exceptions while the transactions are sent are caught, but for those that end the driver. -/
def sends (batch_txs : List String) (o : Responses) : Bool :=
  (List.range batch_txs.length).all fun i => o.sent i != .stops

/-- A batch that has a block is passed over. -/
def process (batch : Batch) (o : Responses) : Option Result :=
  if truthy batch.blockhash then none
  else if sends batch.transactions o then
    match head o with
    | none => some .stop
    | some _ => some (attempts batch.transactions o.attempt RETRY_LIMIT)
  else some .stop

/-! ## The runs of the driver -/

/-- The file and the driver, with the batch that it is at. -/
structure Driver where
  batch_file : List Batch
  batches : List Batch
  next : ℕ
  running : Bool
deriving DecidableEq

/-- The driver is started, or goes on with the next batch of its loop. -/
inductive Event
  | start
  | batch (o : Responses)

def step (s : Driver) : Event → Driver
  | .start => { s with batches := s.batch_file, next := 0, running := true }
  | .batch o =>
    match s.running, s.batches[s.next]? with
    | true, some batch =>
      match process batch o with
      | none | some .retry | some .abort => { s with next := s.next + 1 }
      | some .stop => { s with running := false }
      | some (.included block_hash block_number saved) =>
        let batches := s.batches.set s.next
          { batch with blockhash := block_hash, blocknumber := block_number }
        if saved then { s with batch_file := batches, batches, next := s.next + 1 }
        else { s with batches, running := false }
    | _, _ => s

/-- Any number of runs of the driver on a batch file. -/
def run (batch_file : List Batch) (events : List Event) : Driver :=
  events.foldl step { batch_file, batches := batch_file, next := 0, running := false }

theorem run_concat (batch_file : List Batch) (events : List Event) (e : Event) :
    run batch_file (events ++ [e]) = step (run batch_file events) e := by
  unfold run
  rw [List.foldl_append]
  rfl

/-! ## The batches with a block -/

/-- The blockhash of the batch is set. -/
def has_block (batches : List Batch) (i : ℕ) : Bool := (batches[i]?).any fun b => truthy b.blockhash

/-- No batch has a block before every batch with a smaller index has one. -/
def InOrder (batches : List Batch) : Prop :=
  ∀ i j, i < j → has_block batches j = true → has_block batches i = true

theorem has_block_set {batches : List Batch} {i j : ℕ} {batch : Batch} (hj : j < batches.length) :
    has_block (batches.set j batch) i =
      if i = j then truthy batch.blockhash else has_block batches i := by
  unfold has_block
  rw [List.getElem?_set]
  by_cases h : j = i
  · subst h
    simp [hj]
  · simp [h, Ne.symm h]

theorem InOrder.congr {batches batches' : List Batch} (h : InOrder batches)
    (heq : ∀ i, has_block batches' i = has_block batches i) : InOrder batches' := by
  intro i j hij hj
  rw [heq] at hj ⊢
  exact h i j hij hj

/-- The attempts at a batch end without a block, and the driver goes on. -/
def Result.failed : Result → Bool
  | .retry | .abort => true
  | .included block_hash _ saved => saved && !truthy block_hash
  | .stop => false

/-- The attempts at a batch end with a block. -/
def Result.succeeded : Result → Bool
  | .included block_hash _ _ => truthy block_hash
  | .retry | .abort | .stop => false

namespace Driver

/-- How the driver is done with the batch that it is at, if it makes attempts at one. -/
def result (s : Driver) (o : Responses) : Option Result :=
  match s.running, s.batches[s.next]? with
  | true, some batch => process batch o
  | _, _ => none

/-- The driver leaves the batch without a block, and goes on. -/
def Fails (s : Driver) (o : Responses) : Prop := (s.result o).any Result.failed = true

/-- The driver gives the batch a block. -/
def Succeeds (s : Driver) (o : Responses) : Prop := (s.result o).any Result.succeeded = true

end Driver

variable {s : Driver} {o : Responses}

theorem process_eq_some {batch : Batch} {r : Result} (h : process batch o = some r) :
    truthy batch.blockhash = false := by
  unfold process at h
  split at h
  · cases h
  · rename_i hno
    exact Bool.eq_false_iff.mpr hno

theorem process_eq_none {batch : Batch} (h : process batch o = none) :
    truthy batch.blockhash = true := by
  unfold process at h
  split at h
  · assumption
  · split at h
    · split at h <;> cases h
    · cases h

/-- What the driver does at a batch: nothing that shows, or it passes a batch that has a block, or
one that it leaves without a block, or it gives the batch a block. -/
inductive Turn (s : Driver) (o : Responses) (s' : Driver) : Prop
  | rest : ¬ s.Fails o → ¬ s.Succeeds o → s'.next = s.next →
      (∀ i, has_block s'.batches i = has_block s.batches i) → Turn s o s'
  | pass : ¬ s.Fails o → ¬ s.Succeeds o → s'.next = s.next + 1 →
      has_block s.batches s.next = true →
      (∀ i, has_block s'.batches i = has_block s.batches i) → Turn s o s'
  | fail : s.Fails o → ¬ s.Succeeds o → s'.next = s.next + 1 →
      has_block s.batches s.next = false → s.next < s.batches.length →
      (∀ i, has_block s'.batches i = has_block s.batches i) → Turn s o s'
  | succeed : ¬ s.Fails o → s.Succeeds o → s'.next = s.next ∨ s'.next = s.next + 1 →
      (∀ i, has_block s'.batches i = (decide (i = s.next) || has_block s.batches i)) → Turn s o s'

theorem fails_iff {r : Option Result} (h : s.result o = r) :
    s.Fails o ↔ r.any Result.failed = true := by
  unfold Driver.Fails
  rw [h]

theorem succeeds_iff {r : Option Result} (h : s.result o = r) :
    s.Succeeds o ↔ r.any Result.succeeded = true := by
  unfold Driver.Succeeds
  rw [h]

/-- The batch gets the block hash of a payload, which may be empty, and the file may not be
saved. -/
theorem turn_included {s' : Driver} {block_hash : Option String} {block_number : ℤ} {saved : Bool}
    (hresult : s.result o = some (.included block_hash block_number saved))
    (hlt : s.next < s.batches.length) (hno : has_block s.batches s.next = false)
    (hnext : s'.next = if saved then s.next + 1 else s.next)
    (hblocks : ∀ i, has_block s'.batches i =
      if i = s.next then truthy block_hash else has_block s.batches i) : Turn s o s' := by
  have hfails := fails_iff hresult
  have hsucceeds := succeeds_iff hresult
  simp only [Option.any_some, Result.failed, Result.succeeded] at hfails hsucceeds
  cases hhash : truthy block_hash with
  | true =>
    rw [hhash] at hfails hsucceeds
    refine .succeed (by simp [hfails]) (by simp [hsucceeds]) ?_ fun i => ?_
    · rw [hnext]
      cases saved
      · exact Or.inl rfl
      · exact Or.inr rfl
    · rw [hblocks, hhash]
      by_cases hi : i = s.next <;> simp [hi]
  | false =>
    rw [hhash] at hfails hsucceeds
    have hsame : ∀ i, has_block s'.batches i = has_block s.batches i := by
      intro i
      rw [hblocks, hhash]
      split
      · rename_i hi
        rw [hi, hno]
      · rfl
    cases saved with
    | true => exact .fail (by simp [hfails]) (by simp [hsucceeds]) hnext hno hlt hsame
    | false => exact .rest (by simp [hfails]) (by simp [hsucceeds]) hnext hsame

theorem step_turn (s : Driver) (o : Responses) : Turn s o (step s (.batch o)) := by
  unfold step
  dsimp only
  split
  · rename_i batch hrunning hbatch
    have hresult : s.result o = process batch o := by
      unfold Driver.result
      rw [hrunning, hbatch]
    have hlt : s.next < s.batches.length := (List.getElem?_eq_some_iff.mp hbatch).1
    have hblock : has_block s.batches s.next = truthy batch.blockhash := by
      simp [has_block, hbatch]
    have hempty : ∀ r, process batch o = some r → has_block s.batches s.next = false :=
      fun r hr => hblock.trans (process_eq_some hr)
    split
    · rename_i hskip
      rw [hskip] at hresult
      exact .pass (mt (fails_iff hresult).mp nofun) (mt (succeeds_iff hresult).mp nofun) rfl
        (hblock.trans (process_eq_none hskip)) fun _ => rfl
    · rename_i hretry
      rw [hretry] at hresult
      exact .fail ((fails_iff hresult).mpr rfl) (mt (succeeds_iff hresult).mp nofun) rfl
        (hempty _ hretry) hlt fun _ => rfl
    · rename_i habort
      rw [habort] at hresult
      exact .fail ((fails_iff hresult).mpr rfl) (mt (succeeds_iff hresult).mp nofun) rfl
        (hempty _ habort) hlt fun _ => rfl
    · rename_i hstop
      rw [hstop] at hresult
      exact .rest (mt (fails_iff hresult).mp nofun) (mt (succeeds_iff hresult).mp nofun) rfl
        fun _ => rfl
    · rename_i block_hash block_number saved hincluded
      refine turn_included (hresult.trans hincluded) hlt (hempty _ hincluded) ?_ fun i => ?_
      · cases saved <;> rfl
      · cases saved <;> exact has_block_set hlt
  · rename_i hidle
    have hresult : s.result o = none := by
      unfold Driver.result
      split
      · exact absurd ‹_› (hidle _ ‹_›)
      · rfl
    exact .rest (mt (fails_iff hresult).mp nofun) (mt (succeeds_iff hresult).mp nofun) rfl
      fun _ => rfl

/-- What a run saves is what it has. -/
theorem step_file (s : Driver) (e : Event) :
    (step s e).batch_file = s.batch_file ∨ (step s e).batch_file = (step s e).batches := by
  cases e with
  | start => exact Or.inl rfl
  | batch o =>
    unfold step
    dsimp only
    split
    · split
      · exact Or.inl rfl
      · exact Or.inl rfl
      · exact Or.inl rfl
      · exact Or.inl rfl
      · split
        · exact Or.inr rfl
        · exact Or.inl rfl
    · exact Or.inl rfl

/-! ## The order of the blocks -/

/-- Since it was last started, the driver has left a batch without a block. -/
def LeftBehind (batch_file : List Batch) (events : List Event) : Prop :=
  ∃ earlier o later, events = earlier ++ .batch o :: later ∧ .start ∉ later ∧
    (run batch_file earlier).Fails o

theorem leftBehind_iff_since {batch_file : List Batch} {events : List Event} :
    LeftBehind batch_file events ↔
      Since (fun pre e => ∃ o, e = .batch o ∧ (run batch_file pre).Fails o) (· = .start) events := by
  constructor
  · rintro ⟨earlier, o, later, heq, hstart, hfails⟩
    exact ⟨earlier, .batch o, later, heq, fun e he h => hstart (h ▸ he), o, rfl, hfails⟩
  · rintro ⟨earlier, _, later, heq, hstart, o, rfl, hfails⟩
    exact ⟨earlier, o, later, heq, fun h => hstart _ h rfl, hfails⟩

theorem not_leftBehind_nil {batch_file : List Batch} : ¬ LeftBehind batch_file [] := by
  rw [leftBehind_iff_since]
  exact not_since_nil

theorem not_leftBehind_start {batch_file : List Batch} {events : List Event} :
    ¬ LeftBehind batch_file (events ++ [.start]) := by
  rw [leftBehind_iff_since, since_concat]
  simp

theorem leftBehind_batch {batch_file : List Batch} {events : List Event} {o : Responses} :
    LeftBehind batch_file (events ++ [.batch o]) ↔
      LeftBehind batch_file events ∨ (run batch_file events).Fails o := by
  rw [leftBehind_iff_since, leftBehind_iff_since, since_concat]
  simp

/-- The driver has left a batch behind exactly when one before the next has no block. -/
theorem leftBehind_iff {batch_file : List Batch} {events : List Event} :
    LeftBehind batch_file events ↔
      ∃ i < (run batch_file events).next, has_block (run batch_file events).batches i = false := by
  induction events using List.reverseRecOn with
  | nil =>
    constructor
    · exact fun h => absurd h not_leftBehind_nil
    · rintro ⟨i, hi, -⟩
      exact absurd hi (Nat.not_lt_zero i)
  | append_singleton events e ih =>
    rw [run_concat]
    cases e with
    | start =>
      constructor
      · exact fun h => absurd h not_leftBehind_start
      · rintro ⟨i, hi, -⟩
        exact absurd hi (Nat.not_lt_zero i)
    | batch o =>
      rw [leftBehind_batch, ih]
      cases step_turn (run batch_file events) o with
      | rest hfails _ hnext hblocks => simp [hfails, hnext, hblocks]
      | pass hfails _ hnext hhas hblocks =>
        simp only [hfails, or_false, hnext, hblocks]
        constructor
        · rintro ⟨i, hi, hno⟩
          exact ⟨i, Nat.lt_succ_of_lt hi, hno⟩
        · rintro ⟨i, hi, hno⟩
          rcases Nat.lt_succ_iff_lt_or_eq.mp hi with hi | rfl
          · exact ⟨i, hi, hno⟩
          · rw [hhas] at hno
            cases hno
      | fail hfails _ hnext hno _ hblocks =>
        simp only [hfails, or_true, hnext, hblocks, true_iff]
        exact ⟨_, Nat.lt_succ_self _, hno⟩
      | succeed hfails _ hnext hblocks =>
        simp only [hfails, or_false, hblocks, Bool.or_eq_false_iff, decide_eq_false_iff_not]
        constructor
        · rintro ⟨i, hi, hno⟩
          exact ⟨i, by omega, Nat.ne_of_lt hi, hno⟩
        · rintro ⟨i, hi, hne, hno⟩
          exact ⟨i, by omega, hno⟩

/-- The order is kept by a turn that gives no batch a block after one was left behind. -/
theorem inOrder_step {batch_file : List Batch} {events : List Event} {e : Event}
    (hfile : InOrder (run batch_file events).batch_file)
    (horder : InOrder (run batch_file events).batches)
    (h : ∀ o, e = .batch o → LeftBehind batch_file events → ¬ (run batch_file events).Succeeds o) :
    InOrder (run batch_file (events ++ [e])).batches := by
  rw [run_concat]
  cases e with
  | start => exact hfile
  | batch o =>
    cases step_turn (run batch_file events) o with
    | rest _ _ _ hblocks => exact horder.congr hblocks
    | pass _ _ _ _ hblocks => exact horder.congr hblocks
    | fail _ _ _ _ _ hblocks => exact horder.congr hblocks
    | succeed _ hsucceeds _ hblocks =>
      have hnone : ∀ i < (run batch_file events).next,
          has_block (run batch_file events).batches i = true := by
        intro i hi
        by_contra hno
        exact h o rfl (leftBehind_iff.mpr ⟨i, hi, Bool.eq_false_iff.mpr hno⟩) hsucceeds
      intro i j hij hj
      rw [hblocks, Bool.or_eq_true, decide_eq_true_iff] at hj ⊢
      rcases hj with rfl | hj
      · exact Or.inr (hnone i hij)
      · exact Or.inr (horder i j hij hj)

/-- For every batch file and any number of runs of the driver: the blocks are in order at every
point, in the file and in the driver, exactly when they are in order in the file at the start and no
run gives a batch a block once it has left a batch without one. -/
theorem blocks_are_in_order_iff (batch_file : List Batch) (events : List Event) :
    (∀ pre, pre <+: events → InOrder (run batch_file pre).batches ∧
      InOrder (run batch_file pre).batch_file) ↔
    InOrder batch_file ∧ Each (fun pre e => ∀ o, e = .batch o → LeftBehind batch_file pre →
      ¬ (run batch_file pre).Succeeds o) events := by
  constructor
  · refine fun hall => ⟨(hall [] List.nil_prefix).2, ?_⟩
    rintro pre e post heq o rfl hleft hsucceeds
    obtain ⟨i, hi, hno⟩ := leftBehind_iff.mp hleft
    have hprefix : pre ++ [.batch o] <+: events := ⟨post, by simp [heq]⟩
    have horder := (hall _ hprefix).1
    rw [run_concat] at horder
    cases step_turn (run batch_file pre) o with
    | rest _ hnot | pass _ hnot | fail _ hnot => exact hnot hsucceeds
    | succeed _ _ _ hblocks =>
      have hi' := horder i _ hi (by rw [hblocks]; simp)
      rw [hblocks, hno, Bool.or_false, decide_eq_true_iff] at hi'
      omega
  · rintro ⟨hfile, h⟩ pre hprefix
    induction pre using List.reverseRecOn with
    | nil => exact ⟨hfile, hfile⟩
    | append_singleton pre e ih =>
      obtain ⟨post, rfl⟩ := hprefix
      obtain ⟨horder, hsaved⟩ := ih ⟨e :: post, by simp⟩
      have hnew := inOrder_step hsaved horder (h pre e post (by simp))
      refine ⟨hnew, ?_⟩
      rw [run_concat] at hnew ⊢
      rcases step_file (run batch_file pre) e with hsame | hsame
      · rw [hsame]
        exact hsaved
      · rw [hsame]
        exact hnew

/-! ## A batch without a block -/

/-- Two batches of one transaction each, as the extractor writes them. -/
def two_batches : List Batch :=
  [{ transactions := ["0xaa"], blockhash := none, blocknumber := -1 },
    { transactions := ["0xbb"], blockhash := none, blocknumber := -1 }]

theorem two_batches_in_order : InOrder two_batches := by
  intro i j hij hj
  match j with
  | 0 => cases hij
  | 1 => cases hj
  | j + 2 => cases hj

/-- The client answers every attempt with a payload of the transaction, and with the status. -/
def answers (tx block_hash status : String) : Responses where
  sent := fun _ => .returns ()
  latest := .block (some "0x01") (some 7)
  latest_again := .raises
  attempt := fun _ =>
    { forkchoice := .returns (some "0x02")
      payload := .returns (some
        { transactions := [tx], blockHash := some block_hash, blockNumber := some 1 })
      status := .returns (some status)
      final_forkchoice := .returns ()
      saved := true }

def first_invalid : List Event :=
  [.start, .batch (answers "0xaa" "0x03" "INVALID"), .batch (answers "0xbb" "0x04" "VALID")]

def both_valid : List Event :=
  [.start, .batch (answers "0xaa" "0x03" "VALID"), .batch (answers "0xbb" "0x04" "VALID")]

theorem blocks_are_in_order_iff_valid :
    InOrder two_batches ∧ (run two_batches both_valid).batch_file.map Batch.blockhash =
        [some "0x03", some "0x04"] ∧
      ∀ pre, pre <+: both_valid → InOrder (run two_batches pre).batches ∧
        InOrder (run two_batches pre).batch_file := by
  refine ⟨two_batches_in_order, by decide +kernel,
    (blocks_are_in_order_iff two_batches both_valid).mpr ⟨two_batches_in_order, ?_⟩⟩
  refine Each.concat (Each.concat (Each.concat (l := []) each_nil ?_) ?_) ?_
  · rintro o ⟨⟩
  · intro o _ hleft
    obtain ⟨i, hi, -⟩ := leftBehind_iff.mp hleft
    exact absurd hi (Nat.not_lt_zero i)
  · intro o _ hleft
    obtain ⟨i, hi, hno⟩ := leftBehind_iff.mp hleft
    have hnext : (run two_batches [.start, .batch (answers "0xaa" "0x03" "VALID")]).next = 1 := by
      decide +kernel
    have hhas : has_block (run two_batches [.start, .batch (answers "0xaa" "0x03" "VALID")]).batches
        0 = true := by decide +kernel
    rw [List.nil_append, List.singleton_append, hnext, Nat.lt_one_iff] at hi
    rw [hi, List.nil_append, List.singleton_append, hhas] at hno
    cases hno

/-- The status of the first batch is invalid, and the driver goes on to the second one. -/
theorem second_batch_gets_a_block_first :
    InOrder two_batches ∧
      (run two_batches first_invalid).batch_file.map Batch.blockhash = [none, some "0x04"] ∧
      ¬ InOrder (run two_batches first_invalid).batch_file := by
  refine ⟨two_batches_in_order, by decide +kernel, fun h => ?_⟩
  have hfirst := h 0 1 Nat.zero_lt_one (by decide +kernel)
  have hnone : has_block (run two_batches first_invalid).batch_file 0 = false := by decide +kernel
  rw [hnone] at hfirst
  cases hfirst

end sailfish.state_transition
