-- The batch file, which the extractor and the driver share. Each of them has a copy of
-- the whole file, and writes the whole copy back: a write brings back what the copy had
-- when it was loaded.
import Mathlib
import Sailfish.Lib.Splits
import Sailfish.Extractor

open Std splits

namespace sailfish.batch_file

open extractor (Extractor Run Record Records load_existing_output fetch)
open state_transition (Responses process)

/-! ## The driver on the file -/

/-- What the driver reads of a record. -/
def batch_of (record : Record) : state_transition.Batch where
  transactions := record.transactions
  blockhash := record.blockhash
  blocknumber := record.blocknumber

/-- The copy of the driver, and the keys that its loop has not come to. -/
structure Driver where
  batches : Records
  todo : List ℕ

/-- The driver starts with `load_json`, and goes through the keys in their order. -/
def load_json (file : Option Records) : Driver :=
  let batches := load_existing_output file
  { batches, todo := batches.keys }

/-- The driver at the next key: the file and the driver after it. `save_json` takes effect at once,
or not at all. -/
def Driver.turn (d : Driver) (file : Option Records) (o : Responses) :
    Option Records × Option Driver :=
  match d.todo with
  | [] => (file, none)
  | key :: rest =>
    match d.batches[key]? with
    | none => (file, none)
    | some record =>
      match process (batch_of record) o with
      | none | some .retry | some .abort => (file, some { d with todo := rest })
      | some .stop => (file, none)
      | some (.included block_hash block_number saved) =>
        let batches := d.batches.insert key
          { record with blockhash := block_hash, blocknumber := block_number }
        if saved then (some batches, some { batches, todo := rest }) else (file, none)

/-! ## The two programs on one file -/

/-- The extractor with its output, which is the batch file, and the driver. -/
structure Shared where
  extractor : Extractor
  driver : Option Driver

/-- A step of the extractor; or the driver is started, goes on with its next key, or ends. -/
inductive Event
  | extractor (e : extractor.Event)
  | load
  | batch (o : Responses)
  | exit

def step (max_retries : ℤ) (s : Shared) : Event → Shared
  | .extractor e => { s with extractor := extractor.step max_retries s.extractor e }
  | .load => { s with driver := some (load_json s.extractor.output) }
  | .batch o =>
    match s.driver with
    | some d =>
      let (file, driver) := d.turn s.extractor.output o
      { extractor := { s.extractor with output := file }, driver }
    | none => s
  | .exit => { s with driver := none }

/-- Any interleaving of the two programs, from no file. -/
def run (max_retries : ℤ) (events : List Event) : Shared :=
  events.foldl (step max_retries) { extractor := { output := none, run := none }, driver := none }

theorem run_concat (max_retries : ℤ) (events : List Event) (e : Event) :
    run max_retries (events ++ [e]) = step max_retries (run max_retries events) e := by
  unfold run
  rw [List.foldl_append]
  rfl

/-- The batches in the file. -/
def Shared.file (s : Shared) : Records := load_existing_output s.extractor.output

/-- The blockhash of the batch is not null. -/
def NonNull (batches : Records) (i : ℕ) : Prop :=
  ∃ record, batches[i]? = some record ∧ record.blockhash ≠ none

/-- No index disappears, and no blockhash becomes null. -/
structure Keeps (before after : Records) : Prop where
  index : ∀ i ∈ before, i ∈ after
  blockhash : ∀ i, NonNull before i → NonNull after i

theorem Keeps.refl (batches : Records) : Keeps batches batches := ⟨fun _ => id, fun _ => id⟩

theorem Keeps.of_eq {a b : Records} (h : b = a) : Keeps a b := h ▸ Keeps.refl a

theorem Keeps.trans {a b c : Records} (h : Keeps a b) (h' : Keeps b c) : Keeps a c :=
  ⟨fun i hi => h'.index i (h.index i hi), fun i hi => h'.blockhash i (h.blockhash i hi)⟩

theorem NonNull.mem {batches : Records} {i : ℕ} (h : NonNull batches i) : i ∈ batches := by
  obtain ⟨record, hi, -⟩ := h
  rw [ExtTreeMap.mem_iff_isSome_getElem?, hi]
  rfl

theorem nonNull_insert {batches : Records} {i j : ℕ} {record : Record} :
    NonNull (batches.insert j record) i ↔
      if i = j then record.blockhash ≠ none else NonNull batches i := by
  unfold NonNull
  rw [ExtTreeMap.getElem?_insert]
  by_cases h : i = j
  · subst h
    simp
  · simp [h, Ne.symm h]

theorem nonNull_iff_of_getElem? {batches : Records} {i : ℕ} {record : Record}
    (h : batches[i]? = some record) : NonNull batches i ↔ record.blockhash ≠ none := by
  unfold NonNull
  simp [h]

/-- A record takes the place of another one. -/
theorem mem_insert_iff_of_getElem? {batches : Records} {i : ℕ} {record record' : Record}
    (h : batches[i]? = some record) (j : ℕ) : j ∈ batches.insert i record' ↔ j ∈ batches := by
  rw [ExtTreeMap.mem_insert, Std.compare_eq_iff_eq]
  refine or_iff_right_of_imp ?_
  rintro rfl
  rw [ExtTreeMap.mem_iff_isSome_getElem?, h]
  rfl

/-! ## When the programs write the file -/

/-- The turn adds a batch: the next one is not in the copy, and its transactions are found. -/
def adds (r : Run) (run_sailfish_cli : String → Option (List String)) : Bool :=
  match r.todo with
  | [] => false
  | (cert, digest) :: _ =>
    !r.has_processed cert digest && (fetch run_sailfish_cli cert digest).isSome

/-- The turn is the last one: the loops are at their end, or the attempts at a batch are. -/
def exits (max_retries : ℤ) (r : Run) (run_sailfish_cli : String → Option (List String)) : Bool :=
  match r.todo with
  | [] => true
  | (cert, digest) :: _ =>
    !r.has_processed cert digest && (fetch run_sailfish_cli cert digest).isNone &&
      decide (max_retries ≠ -1 ∧ (r.attempt + 1 : ℕ) ≥ max_retries)

/-- The extractor adds a batch, and writes a snapshot. -/
def Adds (x : Extractor) (e : extractor.Event) : Prop :=
  ∃ r cli, x.run = some r ∧ e = .turn cli ∧ adds r cli = true

/-- The extractor exits with a snapshot. -/
def Exits (max_retries : ℤ) (x : Extractor) (e : extractor.Event) : Prop :=
  ∃ r, x.run = some r ∧ (e = .stop ∨ ∃ cli, e = .turn cli ∧ exits max_retries r cli = true)

/-- The driver writes the block hash of a payload into its copy of the batch, and saves the copy. -/
def Driver.Saves (d : Driver) (o : Responses) (key : ℕ) (record : Record)
    (block_hash : Option String) : Prop :=
  ∃ rest block_number, d.todo = key :: rest ∧ d.batches[key]? = some record ∧
    process (batch_of record) o = some (.included block_hash block_number true)

theorem Driver.Saves.unique {d : Driver} {o : Responses} {key key' : ℕ} {record record' : Record}
    {block_hash block_hash' : Option String} (h : d.Saves o key record block_hash)
    (h' : d.Saves o key' record' block_hash') :
    key' = key ∧ record' = record ∧ block_hash' = block_hash := by
  obtain ⟨rest, n, htodo, hrecord, hprocess⟩ := h
  obtain ⟨rest', n', htodo', hrecord', hprocess'⟩ := h'
  rw [htodo] at htodo'
  cases htodo'
  rw [hrecord] at hrecord'
  cases hrecord'
  rw [hprocess] at hprocess'
  cases hprocess'
  exact ⟨rfl, rfl, rfl⟩

/-- How the extractor moves: it starts with a copy of the file, adds a batch, exits with a
snapshot, or leaves the file alone. -/
inductive Moves (max_retries : ℤ) (x : Extractor) (e : extractor.Event) (x' : Extractor) : Prop
  | start (input : List extractor.Cert) : e = .start input → x'.output = x.output →
      x'.run = some (extractor.start input x.output) → Moves max_retries x e x'
  | add (r r' : Run) (record : Record) : x.run = some r → Adds x e → record.blockhash = none →
      x'.output = some r'.out_records → x'.run = some r' →
      r'.out_records = r.out_records.insert r.next_index record →
      r'.next_index = r.next_index + 1 → Moves max_retries x e x'
  | exit (r : Run) : x.run = some r → ¬ Adds x e → Exits max_retries x e →
      x'.output = some r.out_records → x'.run = none → Moves max_retries x e x'
  | rest : ¬ Adds x e → ¬ Exits max_retries x e → (∀ input, e ≠ .start input) →
      x'.output = x.output →
      (∀ r', x'.run = some r' → ∃ r, x.run = some r ∧ r'.out_records = r.out_records ∧
        r'.next_index = r.next_index) → Moves max_retries x e x'

theorem not_adds_of_ne {x : Extractor} {e : extractor.Event} (he : ∀ cli, e ≠ .turn cli) :
    ¬ Adds x e := by
  rintro ⟨r, cli, -, rfl, -⟩
  exact he cli rfl

theorem adds_turn_iff {x : Extractor} {r : Run} (hr : x.run = some r)
    {cli : String → Option (List String)} : Adds x (.turn cli) ↔ adds r cli = true := by
  constructor
  · rintro ⟨r', _, hr', ⟨⟩, h⟩
    rw [hr] at hr'
    cases hr'
    exact h
  · intro h
    exact ⟨r, cli, hr, rfl, h⟩

theorem exits_turn_iff {max_retries : ℤ} {x : Extractor} {r : Run} (hr : x.run = some r)
    {cli : String → Option (List String)} :
    Exits max_retries x (.turn cli) ↔ exits max_retries r cli = true := by
  constructor
  · rintro ⟨r', hr', h | ⟨_, heq, h⟩⟩
    · cases h
    · cases heq
      rw [hr] at hr'
      cases hr'
      exact h
  · intro h
    exact ⟨r, hr, Or.inr ⟨cli, rfl, h⟩⟩

/-- Without a run, nothing happens but a start. -/
theorem moves_idle (max_retries : ℤ) {x : Extractor} (hr : x.run = none) {e : extractor.Event}
    (he : ∀ input, e ≠ .start input) : Moves max_retries x e x := by
  refine .rest ?_ ?_ he rfl (fun r' h => ?_)
  · rintro ⟨r, _, h, -⟩
    rw [hr] at h
    cases h
  · rintro ⟨r, h, -⟩
    rw [hr] at h
    cases h
  · rw [hr] at h
    cases h

theorem turn_moves (max_retries : ℤ) {x : Extractor} {r : Run} (hr : x.run = some r)
    (cli : String → Option (List String)) :
    Moves max_retries x (.turn cli) (r.turn x.output max_retries cli) := by
  have hadds : Adds x (.turn cli) ↔ adds r cli = true := adds_turn_iff hr
  have hexits : Exits max_retries x (.turn cli) ↔ exits max_retries r cli = true :=
    exits_turn_iff hr
  unfold adds at hadds
  unfold exits at hexits
  unfold Run.turn
  split
  · rename_i htodo
    rw [htodo] at hadds hexits
    exact .exit r hr (mt hadds.mp nofun) (hexits.mpr rfl) rfl rfl
  · rename_i cert digest rest htodo
    rw [htodo] at hadds hexits
    dsimp only at hadds hexits
    by_cases hold : r.has_processed cert digest = true
    · rw [hold] at hadds hexits
      rw [if_pos hold]
      refine .rest (mt hadds.mp nofun) (mt hexits.mp nofun) (fun _ => nofun) rfl ?_
      rintro _ ⟨⟩
      exact ⟨r, hr, rfl, rfl⟩
    · rw [if_neg hold]
      rw [Bool.not_eq_true] at hold
      rw [hold] at hadds hexits
      rcases htxs : fetch cli cert digest with _ | txs
      · rw [htxs] at hadds hexits
        dsimp only
        by_cases hlast : max_retries ≠ -1 ∧ (r.attempt + 1 : ℕ) ≥ max_retries
        · rw [if_pos hlast]
          exact .exit r hr (mt hadds.mp nofun) (hexits.mpr (by simpa using hlast)) rfl rfl
        · rw [if_neg hlast]
          refine .rest (mt hadds.mp nofun) (mt hexits.mp (by simpa using hlast)) (fun _ => nofun)
            rfl ?_
          rintro _ ⟨⟩
          exact ⟨r, hr, rfl, rfl⟩
      · rw [htxs] at hadds
        exact .add r _ (extractor.record cert digest txs) hr (hadds.mpr rfl) rfl rfl rfl rfl rfl

theorem extractor_moves (max_retries : ℤ) (x : Extractor) (e : extractor.Event) :
    Moves max_retries x e (extractor.step max_retries x e) := by
  unfold extractor.step
  cases e with
  | start input => exact .start input rfl rfl rfl
  | kill =>
    refine .rest (not_adds_of_ne fun _ => nofun) ?_ (fun _ => nofun) rfl (fun _ => nofun)
    rintro ⟨r, -, h | ⟨cli, h, -⟩⟩ <;> cases h
  | stop =>
    rcases hr : x.run with _ | r
    · exact moves_idle max_retries hr fun _ => nofun
    · exact .exit r hr (not_adds_of_ne fun _ => nofun) ⟨r, hr, Or.inl rfl⟩ rfl rfl
  | turn cli =>
    rcases hr : x.run with _ | r
    · exact moves_idle max_retries hr fun _ => nofun
    · exact turn_moves max_retries hr cli

/-- The driver saves its copy with one more block hash, or leaves the file and its copy alone. -/
theorem Driver.turn_cases (d : Driver) (file : Option Records) (o : Responses) :
    (∃ key record block_hash record' d', d.Saves o key record block_hash ∧
      record'.blockhash = block_hash ∧ d'.batches = d.batches.insert key record' ∧
      d.turn file o = (some d'.batches, some d')) ∨
    (∀ key record block_hash, ¬ d.Saves o key record block_hash) ∧ (d.turn file o).1 = file ∧
      ∀ d', (d.turn file o).2 = some d' → d'.batches = d.batches := by
  unfold Driver.turn
  split
  · rename_i htodo
    refine Or.inr ⟨?_, rfl, fun _ h => nomatch h⟩
    rintro key record block_hash ⟨rest, n, heq, -⟩
    rw [htodo] at heq
    cases heq
  · rename_i key rest htodo
    split
    · rename_i hnone
      refine Or.inr ⟨?_, rfl, fun _ h => nomatch h⟩
      rintro key' record block_hash ⟨rest', n, heq, hrecord, -⟩
      rw [htodo] at heq
      cases heq
      rw [hnone] at hrecord
      cases hrecord
    · rename_i record hrecord
      -- the driver saves just when the batch is included and the file is saved
      have hsaves : ∀ key' record' block_hash, d.Saves o key' record' block_hash →
          ∃ n, process (batch_of record) o = some (.included block_hash n true) := by
        rintro key' record' block_hash ⟨rest', n, heq, hrecord', hprocess⟩
        rw [htodo] at heq
        cases heq
        rw [hrecord] at hrecord'
        cases hrecord'
        exact ⟨n, hprocess⟩
      have hrest : ∀ result, process (batch_of record) o = result →
          (∀ block_hash n, result ≠ some (.included block_hash n true)) →
          ∀ key' record' block_hash, ¬ d.Saves o key' record' block_hash := by
        intro result hresult hne key' record' block_hash h
        obtain ⟨n, hprocess⟩ := hsaves _ _ _ h
        exact hne _ _ (hresult.symm.trans hprocess)
      split
      · rename_i hprocess
        exact Or.inr ⟨hrest _ hprocess fun _ _ => nofun, rfl, fun _ h => by cases h; rfl⟩
      · rename_i hprocess
        exact Or.inr ⟨hrest _ hprocess fun _ _ => nofun, rfl, fun _ h => by cases h; rfl⟩
      · rename_i hprocess
        exact Or.inr ⟨hrest _ hprocess fun _ _ => nofun, rfl, fun _ h => by cases h; rfl⟩
      · rename_i hprocess
        exact Or.inr ⟨hrest _ hprocess fun _ _ => nofun, rfl, fun _ h => nomatch h⟩
      · rename_i block_hash n saved hprocess
        cases saved with
        | true =>
          let record' : Record := { record with blockhash := block_hash, blocknumber := n }
          exact Or.inl ⟨key, record, block_hash, record',
            { batches := d.batches.insert key record', todo := rest },
            ⟨rest, n, htodo, hrecord, hprocess⟩, rfl, rfl, rfl⟩
        | false =>
          exact Or.inr ⟨hrest _ hprocess fun _ _ => nofun, rfl, fun _ h => nomatch h⟩

/-! ## The copies since they were loaded -/

/-- The extractor added a batch since the driver loaded the file. -/
def AddedSinceLoad (max_retries : ℤ) (events : List Event) : Prop :=
  Since (fun pre e => ∃ x, e = .extractor x ∧ Adds (run max_retries pre).extractor x) (· = .load)
    events

/-- The driver gives a batch without a blockhash one. -/
def Marks (s : Shared) (o : Responses) : Prop :=
  ∃ d key record block_hash, s.driver = some d ∧ d.Saves o key record block_hash ∧
    record.blockhash = none ∧ block_hash ≠ none

/-- The driver recorded a blockhash since the extractor loaded the file. -/
def RecordedSinceStart (max_retries : ℤ) (events : List Event) : Prop :=
  Since (fun pre e => ∃ o, e = .batch o ∧ Marks (run max_retries pre) o)
    (fun e => ∃ input, e = .extractor (.start input)) events

/-- No write brings back an old copy: neither one of the extractor, once the driver recorded a
blockhash, nor one of the driver, once the extractor added a batch. The driver also must not replace
a blockhash that is an empty string by null. -/
structure Safe (max_retries : ℤ) (pre : List Event) (e : Event) : Prop where
  extractor : ∀ x, e = .extractor x → (Adds (run max_retries pre).extractor x ∨
    Exits max_retries (run max_retries pre).extractor x) → ¬ RecordedSinceStart max_retries pre
  driver : ∀ o d key record block_hash, e = .batch o → (run max_retries pre).driver = some d →
    d.Saves o key record block_hash → ¬ AddedSinceLoad max_retries pre ∧
      (record.blockhash ≠ none → block_hash ≠ none)

/-- The copy of the extractor, as long as no write lost anything. -/
structure ExtractorCopy (file : Records) (recorded : Prop) (r : Run) : Prop where
  index : ∀ i, i ∈ r.out_records ↔ i ∈ file
  blockhash : ∀ i, NonNull r.out_records i → NonNull file i
  next_index : ∀ i ∈ r.out_records, i < r.next_index
  recorded : recorded ↔ ∃ i, NonNull file i ∧ ¬ NonNull r.out_records i

/-- The copy of the driver, as long as no write lost anything. -/
structure DriverCopy (file : Records) (added : Prop) (d : Driver) : Prop where
  index : ∀ i ∈ d.batches, i ∈ file
  blockhash : ∀ i, NonNull d.batches i ↔ NonNull file i
  added : added ↔ ∃ i ∈ file, i ∉ d.batches

section

variable {file file' : Records} {recorded added : Prop} {r : Run} {d : Driver}

/-- The extractor has just loaded the file, or written it. -/
theorem ExtractorCopy.own (hfile : r.out_records = file)
    (hnext : ∀ i ∈ r.out_records, i < r.next_index) (hno : ¬ recorded) :
    ExtractorCopy file recorded r := by
  subst hfile
  exact ⟨fun _ => Iff.rfl, fun _ => id, hnext, iff_of_false hno fun ⟨_, hi, hnot⟩ => hnot hi⟩

theorem ExtractorCopy.congr (h : ExtractorCopy file recorded r) {r' : Run}
    (hout : r'.out_records = r.out_records) (hnext : r'.next_index = r.next_index)
    {recorded' : Prop} (hrecorded : recorded' ↔ recorded) : ExtractorCopy file recorded' r' := by
  rw [propext hrecorded]
  refine ⟨?_, ?_, ?_, ?_⟩ <;> rw [hout]
  · exact h.index
  · exact h.blockhash
  · rw [hnext]
    exact h.next_index
  · exact h.recorded

/-- What the extractor writes, with a new batch or without, keeps what the file has just when no
blockhash was recorded since it loaded the file. -/
theorem ExtractorCopy.keeps_iff (h : ExtractorCopy file recorded r)
    (hindex : ∀ i ∈ r.out_records, i ∈ file')
    (hblockhash : ∀ i, NonNull file' i ↔ NonNull r.out_records i) :
    Keeps file file' ↔ ¬ recorded := by
  rw [h.recorded]
  constructor
  · rintro hkeeps ⟨i, hi, hno⟩
    exact hno ((hblockhash i).mp (hkeeps.blockhash i hi))
  · intro hno
    refine ⟨fun i hi => hindex i ((h.index i).mpr hi), fun i hi => ?_⟩
    by_contra hc
    exact hno ⟨i, hi, fun hr => hc ((hblockhash i).mpr hr)⟩

theorem ExtractorCopy.nonNull_add (h : ExtractorCopy file recorded r) {record : Record}
    (hrecord : record.blockhash = none) (i : ℕ) :
    NonNull (r.out_records.insert r.next_index record) i ↔ NonNull r.out_records i := by
  rw [nonNull_insert]
  by_cases hi : i = r.next_index
  · subst hi
    rw [if_pos rfl]
    refine iff_of_false (fun hne => hne hrecord) fun hnon => ?_
    exact absurd (h.next_index _ hnon.mem) (Nat.lt_irrefl _)
  · rw [if_neg hi]

theorem DriverCopy.congr (h : DriverCopy file added d) {d' : Driver}
    (hbatches : d'.batches = d.batches) {added' : Prop} (hadded : added' ↔ added) :
    DriverCopy file added' d' := by
  rw [propext hadded]
  refine ⟨?_, ?_, ?_⟩ <;> rw [hbatches]
  · exact h.index
  · exact h.blockhash
  · exact h.added

/-- What the driver saves keeps what the file has just when no batch was added since it loaded the
file, and no blockhash becomes null. -/
theorem DriverCopy.keeps_iff (h : DriverCopy file added d) {key : ℕ} {record record' : Record}
    (hrecord : d.batches[key]? = some record) :
    Keeps file (d.batches.insert key record') ↔
      ¬ added ∧ (record.blockhash ≠ none → record'.blockhash ≠ none) := by
  have hindex : ∀ i, i ∈ d.batches.insert key record' ↔ i ∈ d.batches :=
    mem_insert_iff_of_getElem? hrecord
  have hhas := nonNull_iff_of_getElem? hrecord
  rw [h.added]
  constructor
  · intro hkeeps
    constructor
    · rintro ⟨i, hi, hno⟩
      exact hno ((hindex i).mp (hkeeps.index i hi))
    · intro hold
      have hnew := hkeeps.blockhash key ((h.blockhash key).mp (hhas.mpr hold))
      rwa [nonNull_insert, if_pos rfl] at hnew
  · rintro ⟨hno, hhash⟩
    constructor
    · intro i hi
      rw [hindex]
      by_contra hc
      exact hno ⟨i, hi, hc⟩
    · intro i hi
      rw [← h.blockhash] at hi
      rw [nonNull_insert]
      by_cases hik : i = key
      · subst hik
        rw [if_pos rfl]
        exact hhash (hhas.mp hi)
      · rw [if_neg hik]
        exact hi

/-- What the driver saves has a new blockhash just when the batch had none and gets one. -/
theorem DriverCopy.new_blockhash_iff (h : DriverCopy file added d) {key : ℕ}
    {record record' : Record} (hrecord : d.batches[key]? = some record) :
    (∃ i, NonNull (d.batches.insert key record') i ∧ ¬ NonNull file i) ↔
      record.blockhash = none ∧ record'.blockhash ≠ none := by
  have hhas := nonNull_iff_of_getElem? hrecord
  constructor
  · rintro ⟨i, hi, hno⟩
    rw [nonNull_insert] at hi
    rw [← h.blockhash] at hno
    by_cases hik : i = key
    · subst hik
      rw [if_pos rfl] at hi
      exact ⟨by_contra fun hne => hno (hhas.mpr hne), hi⟩
    · rw [if_neg hik] at hi
      exact absurd hi hno
  · rintro ⟨hnone, hhash⟩
    refine ⟨key, ?_, fun hold => ?_⟩
    · rw [nonNull_insert, if_pos rfl]
      exact hhash
    · exact hhas.mp ((h.blockhash key).mpr hold) hnone

/-- A write that keeps what the file has, and adds no blockhash, leaves the copy of the driver one
of the file. -/
theorem DriverCopy.of_keeps (h : DriverCopy file added d) (hkeeps : Keeps file file')
    (hblockhash : ∀ i, NonNull file' i → NonNull file i) {added' : Prop}
    (hadded : added' ↔ added ∨ ∃ i ∈ file', i ∉ file) : DriverCopy file' added' d where
  index := fun i hi => hkeeps.index i (h.index i hi)
  blockhash := fun i => (h.blockhash i).trans ⟨hkeeps.blockhash i, hblockhash i⟩
  added := by
    rw [hadded, h.added]
    constructor
    · rintro (⟨i, hi, hno⟩ | ⟨i, hi, hno⟩)
      · exact ⟨i, hkeeps.index i hi, hno⟩
      · exact ⟨i, hi, fun hd => hno (h.index i hd)⟩
    · rintro ⟨i, hi, hno⟩
      by_cases hfile : i ∈ file
      · exact Or.inl ⟨i, hfile, hno⟩
      · exact Or.inr ⟨i, hi, hfile⟩

/-- A write that keeps what the file has, and adds no index, leaves the copy of the extractor one of
the file. -/
theorem ExtractorCopy.of_keeps (h : ExtractorCopy file recorded r) (hkeeps : Keeps file file')
    (hindex : ∀ i ∈ file', i ∈ file) {recorded' : Prop}
    (hrecorded : recorded' ↔ recorded ∨ ∃ i, NonNull file' i ∧ ¬ NonNull file i) :
    ExtractorCopy file' recorded' r where
  index := fun i => (h.index i).trans ⟨hkeeps.index i, hindex i⟩
  blockhash := fun i hi => hkeeps.blockhash i (h.blockhash i hi)
  next_index := h.next_index
  recorded := by
    rw [hrecorded, h.recorded]
    constructor
    · rintro (⟨i, hi, hno⟩ | ⟨i, hi, hno⟩)
      · exact ⟨i, hkeeps.blockhash i hi, hno⟩
      · exact ⟨i, hi, fun hr => hno (h.blockhash i hr)⟩
    · rintro ⟨i, hi, hno⟩
      by_cases hfile : NonNull file i
      · exact Or.inl ⟨i, hfile, hno⟩
      · exact Or.inr ⟨i, hi, hfile⟩

end

/-- The two copies, as long as no write lost anything. -/
structure Copies (max_retries : ℤ) (events : List Event) : Prop where
  run : ∀ r, (run max_retries events).extractor.run = some r →
    ExtractorCopy (batch_file.run max_retries events).file (RecordedSinceStart max_retries events) r
  driver : ∀ d, (batch_file.run max_retries events).driver = some d →
    DriverCopy (batch_file.run max_retries events).file (AddedSinceLoad max_retries events) d

variable {max_retries : ℤ} {events : List Event}

theorem addedSinceLoad_concat {e : Event} : AddedSinceLoad max_retries (events ++ [e]) ↔
    AddedSinceLoad max_retries events ∧ e ≠ .load ∨
      ∃ x, e = .extractor x ∧ Adds (run max_retries events).extractor x := since_concat

theorem recordedSinceStart_concat {e : Event} : RecordedSinceStart max_retries (events ++ [e]) ↔
    RecordedSinceStart max_retries events ∧ (¬ ∃ input, e = .extractor (.start input)) ∨
      ∃ o, e = .batch o ∧ Marks (run max_retries events) o := since_concat

theorem start_copy (input : List extractor.Cert) (output : Option Records) {recorded : Prop}
    (hno : ¬ recorded) :
    ExtractorCopy (load_existing_output output) recorded (extractor.start input output) := by
  refine .own rfl ?_ hno
  intro i hi
  have hkey : i ∈ (load_existing_output output).keys := ExtTreeMap.mem_keys.mpr hi
  unfold extractor.start
  dsimp only
  split
  · rename_i k hk
    exact Nat.lt_succ_of_le ((List.max?_eq_some_iff.mp hk).2 i hkey)
  · rename_i hnone
    rw [List.max?_eq_none_iff.mp hnone] at hkey
    cases hkey

/-! ## A step of the extractor -/

theorem safe_extractor_iff {x : extractor.Event} : Safe max_retries events (.extractor x) ↔
    (Adds (run max_retries events).extractor x ∨
      Exits max_retries (run max_retries events).extractor x →
        ¬ RecordedSinceStart max_retries events) := by
  constructor
  · exact fun h => h.extractor x rfl
  · refine fun h => ⟨?_, fun _ _ _ _ _ => nofun⟩
    rintro _ ⟨⟩
    exact h

/-- The copy of the driver after a step of the extractor. -/
theorem driver_copy_of_extractor (h : Copies max_retries events) {x : extractor.Event}
    {file' : Records} (hfile : (run max_retries (events ++ [Event.extractor x])).file = file')
    (hkeeps : Keeps (run max_retries events).file file')
    (hblockhash : ∀ i, NonNull file' i → NonNull (run max_retries events).file i)
    (hadds : Adds (run max_retries events).extractor x ↔
      ∃ i ∈ file', i ∉ (run max_retries events).file) {d : Driver}
    (hd : (run max_retries (events ++ [Event.extractor x])).driver = some d) :
    DriverCopy (run max_retries (events ++ [Event.extractor x])).file
      (AddedSinceLoad max_retries (events ++ [Event.extractor x])) d := by
  rw [run_concat] at hd
  rw [hfile]
  refine (h.driver d hd).of_keeps hkeeps hblockhash ?_
  rw [← hadds, addedSinceLoad_concat]
  simp

/-- The step keeps what the file has just when it is safe, and then the copies stay copies. -/
structure StepLaw (max_retries : ℤ) (events : List Event) (e : Event) : Prop where
  keeps : Keeps (run max_retries events).file (run max_retries (events ++ [e])).file ↔
    Safe max_retries events e
  copies : Safe max_retries events e → Copies max_retries (events ++ [e])

theorem recordedSinceStart_extractor {x : extractor.Event} :
    RecordedSinceStart max_retries (events ++ [Event.extractor x]) ↔
      RecordedSinceStart max_retries events ∧ ∀ input, x ≠ .start input := by
  simp [recordedSinceStart_concat]

/-- The extractor starts. -/
theorem start_law (h : Copies max_retries events) (input : List extractor.Cert) :
    StepLaw max_retries events (.extractor (.start input)) := by
  have hno : ¬ Adds (run max_retries events).extractor (.start input) :=
    not_adds_of_ne fun _ => nofun
  have hno' : ¬ Exits max_retries (run max_retries events).extractor (.start input) := by
    rintro ⟨r, -, h | ⟨cli, h, -⟩⟩ <;> cases h
  have hfile : (run max_retries (events ++ [Event.extractor (.start input)])).file =
      (run max_retries events).file := by
    rw [run_concat]
    rfl
  refine ⟨iff_of_true (Keeps.of_eq hfile) ?_, fun _ => ⟨fun r hr => ?_, fun d hd => ?_⟩⟩
  · rw [safe_extractor_iff]
    rintro (hadds | hexits)
    · exact absurd hadds hno
    · exact absurd hexits hno'
  · rw [run_concat] at hr
    cases hr
    rw [hfile]
    exact start_copy input _ fun hrec => (recordedSinceStart_extractor.mp hrec).2 input rfl
  · refine driver_copy_of_extractor h hfile (Keeps.refl _) (fun _ => id) (iff_of_false hno ?_) hd
    rintro ⟨i, hi, hnot⟩
    exact hnot hi

/-- The extractor adds a batch. -/
theorem add_law (h : Copies max_retries events) {x : extractor.Event} {r r' : Run}
    {record : Record} (hr : (run max_retries events).extractor.run = some r)
    (hadds : Adds (run max_retries events).extractor x) (hrecord : record.blockhash = none)
    (hfile : (run max_retries (events ++ [Event.extractor x])).file = r'.out_records)
    (hrun : (run max_retries (events ++ [Event.extractor x])).extractor.run = some r')
    (hout : r'.out_records = r.out_records.insert r.next_index record)
    (hnext : r'.next_index = r.next_index + 1) : StepLaw max_retries events (.extractor x) := by
  have hcopy := h.run r hr
  have hnon := hcopy.nonNull_add hrecord
  rw [← hout] at hnon
  have hindex : ∀ i, i ∈ r'.out_records ↔ i = r.next_index ∨ i ∈ r.out_records := by
    intro i
    rw [hout, ExtTreeMap.mem_insert, Std.compare_eq_iff_eq]
    exact or_congr_left eq_comm
  have hkeeps : Keeps (run max_retries events).file r'.out_records ↔
      ¬ RecordedSinceStart max_retries events :=
    hcopy.keeps_iff (fun i hi => (hindex i).mpr (Or.inr hi)) hnon
  have hsafe : Safe max_retries events (.extractor x) ↔
      ¬ RecordedSinceStart max_retries events := by
    simp [safe_extractor_iff, hadds]
  constructor
  · rw [hfile, hkeeps, hsafe]
  · intro hs
    have hno := hsafe.mp hs
    refine ⟨fun r'' hr'' => ?_, fun d hd => ?_⟩
    · rw [hrun] at hr''
      cases hr''
      refine .own hfile.symm (fun i hi => ?_) fun hrec =>
        hno (recordedSinceStart_extractor.mp hrec).1
      rw [hnext]
      rcases (hindex i).mp hi with rfl | hi
      · exact Nat.lt_succ_self _
      · exact Nat.lt_succ_of_lt (hcopy.next_index i hi)
    · refine driver_copy_of_extractor h hfile (hkeeps.mpr hno) (fun i hi => ?_)
        (iff_of_true hadds ⟨r.next_index, (hindex _).mpr (Or.inl rfl), fun hold => ?_⟩) hd
      · exact hcopy.blockhash i ((hnon i).mp hi)
      · exact absurd (hcopy.next_index _ ((hcopy.index _).mpr hold)) (Nat.lt_irrefl _)

/-- The extractor exits with a snapshot. -/
theorem exit_law (h : Copies max_retries events) {x : extractor.Event} {r : Run}
    (hr : (run max_retries events).extractor.run = some r)
    (hno : ¬ Adds (run max_retries events).extractor x)
    (hexits : Exits max_retries (run max_retries events).extractor x)
    (hfile : (run max_retries (events ++ [Event.extractor x])).file = r.out_records)
    (hrun : (run max_retries (events ++ [Event.extractor x])).extractor.run = none) :
    StepLaw max_retries events (.extractor x) := by
  have hcopy := h.run r hr
  have hkeeps : Keeps (run max_retries events).file r.out_records ↔
      ¬ RecordedSinceStart max_retries events := hcopy.keeps_iff (fun _ => id) fun _ => Iff.rfl
  have hsafe : Safe max_retries events (.extractor x) ↔
      ¬ RecordedSinceStart max_retries events := by
    simp [safe_extractor_iff, hexits]
  constructor
  · rw [hfile, hkeeps, hsafe]
  · refine fun hs => ⟨fun r' hr' => ?_, fun d hd => ?_⟩
    · rw [hrun] at hr'
      cases hr'
    · refine driver_copy_of_extractor h hfile (hkeeps.mpr (hsafe.mp hs)) hcopy.blockhash
        (iff_of_false hno ?_) hd
      rintro ⟨i, hi, hold⟩
      exact hold ((hcopy.index i).mp hi)

/-- The extractor leaves the file alone. -/
theorem rest_law (h : Copies max_retries events) {x : extractor.Event}
    (hno : ¬ Adds (run max_retries events).extractor x)
    (hno' : ¬ Exits max_retries (run max_retries events).extractor x)
    (hstart : ∀ input, x ≠ .start input)
    (hfile : (run max_retries (events ++ [Event.extractor x])).file = (run max_retries events).file)
    (hrun : ∀ r', (run max_retries (events ++ [Event.extractor x])).extractor.run = some r' →
      ∃ r, (run max_retries events).extractor.run = some r ∧ r'.out_records = r.out_records ∧
        r'.next_index = r.next_index) : StepLaw max_retries events (.extractor x) := by
  refine ⟨iff_of_true (Keeps.of_eq hfile) ?_, fun _ => ⟨fun r' hr' => ?_, fun d hd => ?_⟩⟩
  · rw [safe_extractor_iff]
    rintro (hadds | hexits)
    · exact absurd hadds hno
    · exact absurd hexits hno'
  · obtain ⟨r, hr, hout, hnext⟩ := hrun r' hr'
    rw [hfile]
    exact (h.run r hr).congr hout hnext (recordedSinceStart_extractor.trans (and_iff_left hstart))
  · refine driver_copy_of_extractor h hfile (Keeps.refl _) (fun _ => id) (iff_of_false hno ?_) hd
    rintro ⟨i, hi, hold⟩
    exact hold hi

theorem extractor_law (h : Copies max_retries events) (x : extractor.Event) :
    StepLaw max_retries events (.extractor x) := by
  have hmoves := extractor_moves max_retries (run max_retries events).extractor x
  have hextractor : (run max_retries (events ++ [Event.extractor x])).extractor =
      extractor.step max_retries (run max_retries events).extractor x := by
    rw [run_concat]
    rfl
  rw [← hextractor] at hmoves
  have hfile : ∀ output,
      (run max_retries (events ++ [Event.extractor x])).extractor.output = output →
      (run max_retries (events ++ [Event.extractor x])).file = load_existing_output output := by
    rintro _ rfl
    rfl
  cases hmoves with
  | start input hx =>
    subst hx
    exact start_law h input
  | add r r' record hr hadds hrecord houtput hrun hout hnext =>
    exact add_law h hr hadds hrecord (hfile _ houtput) hrun hout hnext
  | exit r hr hno hexits houtput hrun => exact exit_law h hr hno hexits (hfile _ houtput) hrun
  | rest hno hno' hstart houtput hrun =>
    exact rest_law h hno hno' hstart (hfile _ houtput) hrun

/-! ## A step of the driver -/

theorem safe_batch_iff {o : Responses} : Safe max_retries events (.batch o) ↔
    ∀ d key record block_hash, (run max_retries events).driver = some d →
      d.Saves o key record block_hash → ¬ AddedSinceLoad max_retries events ∧
        (record.blockhash ≠ none → block_hash ≠ none) := by
  constructor
  · exact fun h d key record block_hash => h.driver o d key record block_hash rfl
  · refine fun h => ⟨fun _ => nofun, ?_⟩
    rintro _ d key record block_hash ⟨⟩
    exact h d key record block_hash

theorem safe_load : Safe max_retries events .load := ⟨fun _ => nofun, fun _ _ _ _ _ => nofun⟩

theorem safe_exit : Safe max_retries events .exit := ⟨fun _ => nofun, fun _ _ _ _ _ => nofun⟩

theorem marks_iff {o : Responses} {d : Driver} {key : ℕ} {record : Record}
    {block_hash : Option String} (hd : (run max_retries events).driver = some d)
    (hsaves : d.Saves o key record block_hash) :
    Marks (run max_retries events) o ↔ record.blockhash = none ∧ block_hash ≠ none := by
  constructor
  · rintro ⟨d', key', record', block_hash', hd', hsaves', h⟩
    rw [hd] at hd'
    cases hd'
    obtain ⟨rfl, rfl, rfl⟩ := hsaves.unique hsaves'
    exact h
  · exact fun h => ⟨d, key, record, block_hash, hd, hsaves, h⟩

/-- A step that leaves the extractor and the file alone, and records no blockhash. -/
theorem extractor_copy_of_same (h : Copies max_retries events) {e : Event}
    (hsame : (run max_retries (events ++ [e])).extractor =
      (run max_retries events).extractor)
    (hstart : ∀ input, e ≠ .extractor (.start input))
    (hmarks : ∀ o, e = .batch o → ¬ Marks (run max_retries events) o) {r : Run}
    (hr : (run max_retries (events ++ [e])).extractor.run = some r) :
    ExtractorCopy (run max_retries (events ++ [e])).file
      (RecordedSinceStart max_retries (events ++ [e])) r := by
  have hrecorded : RecordedSinceStart max_retries (events ++ [e]) ↔
      RecordedSinceStart max_retries events := by
    rw [recordedSinceStart_concat]
    constructor
    · rintro (⟨h, -⟩ | ⟨o, he, hm⟩)
      · exact h
      · exact absurd hm (hmarks o he)
    · exact fun h => Or.inl ⟨h, fun ⟨input, he⟩ => hstart input he⟩
  unfold Shared.file
  rw [hsame] at hr ⊢
  exact (h.run r hr).congr rfl rfl hrecorded

theorem load_copies (h : Copies max_retries events) :
    Copies max_retries (events ++ [Event.load]) where
  run := by
    intro r hr
    refine extractor_copy_of_same h ?_ (by simp) (by simp) hr
    rw [run_concat]
    rfl
  driver := by
    intro d hd
    have hno : ¬ AddedSinceLoad max_retries (events ++ [Event.load]) := by
      rw [addedSinceLoad_concat]
      simp
    rw [run_concat] at hd ⊢
    cases hd
    exact ⟨fun _ => id, fun _ => Iff.rfl, iff_of_false hno fun ⟨_, hi, hnot⟩ => hnot hi⟩

theorem exit_copies (h : Copies max_retries events) :
    Copies max_retries (events ++ [Event.exit]) where
  run := by
    intro r hr
    refine extractor_copy_of_same h ?_ (by simp) (by simp) hr
    rw [run_concat]
    rfl
  driver := by
    intro d hd
    rw [run_concat] at hd
    cases hd

/-- The driver saves its copy with a block hash. -/
theorem save_law (h : Copies max_retries events) {o : Responses} {d d' : Driver} {key : ℕ}
    {record record' : Record} {block_hash : Option String}
    (hd : (run max_retries events).driver = some d) (hsaves : d.Saves o key record block_hash)
    (hhash : record'.blockhash = block_hash) (hbatches : d'.batches = d.batches.insert key record')
    (hrun : run max_retries (events ++ [Event.batch o]) =
      { extractor := { (run max_retries events).extractor with output := some d'.batches },
        driver := some d' }) : StepLaw max_retries events (.batch o) := by
  subst hhash
  have hcopy := h.driver d hd
  obtain ⟨rest, n, -, hrecord, -⟩ := id hsaves
  have hfile : (run max_retries (events ++ [Event.batch o])).file =
      d.batches.insert key record' := by
    rw [hrun, ← hbatches]
    rfl
  have hsafe : Safe max_retries events (.batch o) ↔ ¬ AddedSinceLoad max_retries events ∧
      (record.blockhash ≠ none → record'.blockhash ≠ none) := by
    rw [safe_batch_iff]
    constructor
    · exact fun hall => hall d key record _ hd hsaves
    · intro hone d'' key' record'' block_hash' hd'' hsaves'
      rw [hd] at hd''
      cases hd''
      obtain ⟨rfl, rfl, rfl⟩ := hsaves.unique hsaves'
      exact hone
  have hkeeps : Keeps (run max_retries events).file
      (run max_retries (events ++ [Event.batch o])).file ↔ Safe max_retries events (.batch o) := by
    rw [hfile, hsafe]
    exact hcopy.keeps_iff hrecord
  refine ⟨hkeeps, fun hs => ⟨fun r hr => ?_, fun d'' hd'' => ?_⟩⟩
  · rw [hrun] at hr
    refine (h.run r hr).of_keeps (hkeeps.mpr hs) (fun i hi => ?_) ?_
    · rw [hfile, mem_insert_iff_of_getElem? hrecord] at hi
      exact hcopy.index i hi
    · rw [hfile, hcopy.new_blockhash_iff hrecord, ← marks_iff hd hsaves, recordedSinceStart_concat]
      simp
  · have hno : ¬ AddedSinceLoad max_retries (events ++ [Event.batch o]) := by
      simp [addedSinceLoad_concat, (hsafe.mp hs).1]
    rw [hrun] at hd''
    cases hd''
    rw [hfile, ← hbatches]
    exact ⟨fun _ => id, fun _ => Iff.rfl, iff_of_false hno fun ⟨_, hi, hnot⟩ => hnot hi⟩

theorem batch_law (h : Copies max_retries events) (o : Responses) :
    StepLaw max_retries events (.batch o) := by
  have hrun := run_concat max_retries events (.batch o)
  unfold step at hrun
  rcases hd : (run max_retries events).driver with _ | d
  · rw [hd] at hrun
    dsimp only at hrun
    have hsafe : Safe max_retries events (.batch o) := by
      rw [safe_batch_iff, hd]
      exact fun _ _ _ _ => nofun
    refine ⟨iff_of_true (Keeps.of_eq (by rw [hrun])) hsafe,
      fun _ => ⟨fun r hr => ?_, fun d hd' => ?_⟩⟩
    · refine extractor_copy_of_same h (by rw [hrun]) (by simp) ?_ hr
      rintro o' - ⟨d, _, _, _, hd', -⟩
      rw [hd] at hd'
      cases hd'
    · rw [hrun, hd] at hd'
      cases hd'
  · rw [hd] at hrun
    dsimp only at hrun
    rcases d.turn_cases (run max_retries events).extractor.output o with
      ⟨key, record, block_hash, record', d', hsaves, hhash, hbatches, hturn⟩ | ⟨hno, hfile, hrest⟩
    · rw [hturn] at hrun
      exact save_law h hd hsaves hhash hbatches hrun
    · rw [hfile] at hrun
      have hsafe : Safe max_retries events (.batch o) := by
        rw [safe_batch_iff, hd]
        rintro _ key record block_hash ⟨⟩ hsaves
        exact absurd hsaves (hno key record block_hash)
      have hadded : AddedSinceLoad max_retries (events ++ [Event.batch o]) ↔
          AddedSinceLoad max_retries events := by
        simp [addedSinceLoad_concat]
      refine ⟨iff_of_true (Keeps.of_eq (by rw [hrun]; rfl)) hsafe,
        fun _ => ⟨fun r hr => ?_, fun d' hd' => ?_⟩⟩
      · refine extractor_copy_of_same h (by rw [hrun]) (by simp) ?_ hr
        rintro o' ho ⟨d', key, record, block_hash, hd', hsaves, -⟩
        cases ho
        rw [hd] at hd'
        cases hd'
        exact hno key record block_hash hsaves
      · rw [hrun] at hd'
        have hcopy := h.driver d hd
        have hsame := hrest d' hd'
        rw [hrun]
        exact hcopy.congr hsame hadded

/-! ## Whole runs -/

theorem step_law (h : Copies max_retries events) (e : Event) :
    StepLaw max_retries events e := by
  cases e with
  | extractor x => exact extractor_law h x
  | batch o => exact batch_law h o
  | load =>
    refine ⟨iff_of_true (Keeps.of_eq ?_) safe_load, fun _ => load_copies h⟩
    rw [run_concat]
    rfl
  | exit =>
    refine ⟨iff_of_true (Keeps.of_eq ?_) safe_exit, fun _ => exit_copies h⟩
    rw [run_concat]
    rfl

theorem copies_of_safe (h : Each (Safe max_retries) events) : Copies max_retries events := by
  induction events using List.reverseRecOn with
  | nil => exact ⟨fun _ => nofun, fun _ => nofun⟩
  | append_singleton events e ih => exact (step_law (ih h.of_append) e).copies h.last

theorem keeps_of_safe {later : List Event} (h : Each (Safe max_retries) (events ++ later)) :
    Keeps (run max_retries events).file (run max_retries (events ++ later)).file := by
  induction later using List.reverseRecOn with
  | nil =>
    rw [List.append_nil]
    exact Keeps.refl _
  | append_singleton later e ih =>
    rw [← List.append_assoc] at h ⊢
    exact (ih h.of_append).trans ((step_law (copies_of_safe h.of_append) e).keeps.mpr h.last)

theorem safe_of_keeps (h : ∀ pre e, pre ++ [e] <+: events →
    Keeps (run max_retries pre).file (run max_retries (pre ++ [e])).file) :
    Each (Safe max_retries) events := by
  induction events using List.reverseRecOn with
  | nil => exact each_nil
  | append_singleton events e ih =>
    have hsafe := ih fun pre e' hpre => h pre e' (hpre.trans (List.prefix_append _ _))
    have hkeeps := h events e (List.prefix_refl _)
    exact hsafe.concat ((step_law (copies_of_safe hsafe) e).keeps.mp hkeeps)

/-- For every interleaving of the extractor and the driver: no index disappears from the file, and
no blockhash in it becomes null, exactly when no write brings back an old copy. -/
theorem updates_are_kept_iff (max_retries : ℤ) (events : List Event) :
    (∀ pre later, pre ++ later <+: events →
      Keeps (run max_retries pre).file (run max_retries (pre ++ later)).file) ↔
    Each (Safe max_retries) events := by
  constructor
  · exact fun h => safe_of_keeps fun pre e => h pre [e]
  · rintro h pre later ⟨rest, rfl⟩
    exact keeps_of_safe h.of_append

/-! ## Two updates that are lost -/

instance (batches : Records) (i : ℕ) : Decidable (NonNull batches i) :=
  decidable_of_iff ((batches[i]?).any fun record => record.blockhash.isSome) <| by
    unfold NonNull
    rw [Option.any_eq_true]
    simp only [Option.isSome_iff_ne_none]

/-- The driver loads the first batch. The extractor adds a second one, the driver saves the first
one with its block, and the extractor comes to its end. -/
def interleaved : List Event :=
  [.extractor (.start [extractor.first_cert]), .extractor (.turn fun _ => none), .load,
    .extractor (.turn fun _ => some ["bb"]),
    .batch (state_transition.answers "0xaa" "0x03" "VALID"), .extractor (.turn fun _ => none)]

/-- The save of the driver loses the second batch, and the last snapshot loses the block of the
first one. -/
theorem updates_are_lost :
    (1 ∈ (run 3 (interleaved.take 4)).file ∧ 1 ∉ (run 3 (interleaved.take 5)).file) ∧
      NonNull (run 3 (interleaved.take 5)).file 0 ∧ 0 ∈ (run 3 interleaved).file ∧
        ¬ NonNull (run 3 interleaved).file 0 := by
  decide +kernel

end sailfish.batch_file
