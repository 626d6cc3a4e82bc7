-- The command that prints a batch of a digest (`sailfish_batch_cli/src/main.rs`, with
-- `--json`): it looks the digest up in the databases of the workers, one after the other.
-- The listing is left out, and so is a database that does not open.
import Mathlib
import Sailfish.BatchMaker

namespace sailfish.batch_cli

open worker (Batch Transaction WorkerMessage)

/-! ## The crates -/

/-- What the command takes from the crates `hex`, `base64` and `bincode`. -/
structure Crates where
  hex_encode : List UInt8 → String
  hex_decode : String → Option (List UInt8)
  decode_base64 : String → Option (List UInt8)
  deserialize : List UInt8 → Option WorkerMessage

def hex_digits : List Char := "0123456789abcdef".toList

/-- What the documentation of the crate `hex` says: a byte is written with two digits in lower case,
and a text is read when all of it is digits, of either case. -/
structure Crates.LawfulHex (crates : Crates) : Prop where
  decode_encode : ∀ bytes, crates.hex_decode (crates.hex_encode bytes) = some bytes
  digits_of_encode : ∀ bytes, ∀ c ∈ (crates.hex_encode bytes).toList, c ∈ hex_digits
  length_encode : ∀ bytes, (crates.hex_encode bytes).toList.length = 2 * bytes.length
  digits_of_decode : ∀ text bytes, crates.hex_decode text = some bytes →
    ∀ c ∈ text.toList, c.toLower ∈ hex_digits

/-! ## The command -/

/-- The values of a database, by their keys. -/
abbrev Db := List UInt8 → Option (List UInt8)

/-- What the command prints: a batch in JSON, or a text, which is no JSON. -/
inductive Output
  | json (digest : String) (txns : List String)
  | text (message : String)
deriving DecidableEq

variable (crates : Crates)

def decode_key_input (key_input : String) : Option (List UInt8) :=
  match crates.hex_decode key_input with
  | some key_bytes => some key_bytes
  | none => crates.decode_base64 key_input

/-- `none` is the answer `false`. -/
def print_batch_from_db (key_bytes : List UInt8) (db : Db) : Option Output :=
  match db key_bytes with
  | some value =>
    match crates.deserialize value with
    | some (.Batch txs) => some (.json (crates.hex_encode key_bytes) (txs.map crates.hex_encode))
    | some (.BatchRequest _ _) | none => none
  | none => none

def print_batch_from_dbs (dbs : List Db) (key_input : String) : Output :=
  match decode_key_input crates key_input with
  | none => .text "Invalid digest: must be hex or base64"
  | some key_bytes =>
    match dbs.findSome? (print_batch_from_db crates key_bytes) with
    | some output => output
    | none => .text "Batch not found in provided databases"

/-- The database has the batch under the key. -/
def Has (db : Db) (key_bytes : List UInt8) (txs : Batch) : Prop :=
  ∃ value, db key_bytes = some value ∧ crates.deserialize value = some (.Batch txs)

/-- The batch of the digest is in one of the databases, and no database has another one for it. -/
def Stored (dbs : List Db) (digest : String) (txs : Batch) : Prop :=
  ∃ key_bytes, decode_key_input crates digest = some key_bytes ∧
    (∃ db ∈ dbs, Has crates db key_bytes txs) ∧
    ∀ db ∈ dbs, ∀ txs', Has crates db key_bytes txs' → txs' = txs

variable {crates}

theorem print_batch_from_db_eq_some {key_bytes : List UInt8} {db : Db} {output : Output} :
    print_batch_from_db crates key_bytes db = some output ↔ ∃ txs, Has crates db key_bytes txs ∧
      output = .json (crates.hex_encode key_bytes) (txs.map crates.hex_encode) := by
  unfold print_batch_from_db Has
  rcases db key_bytes with _ | value
  · simp
  · dsimp only
    rcases hvalue : crates.deserialize value with _ | txs | _
    · simp [hvalue]
    · simp [hvalue, eq_comm]
    · simp [hvalue]

/-- A batch that is in a database is printed, the empty one included. -/
theorem print_of_stored {dbs : List Db} {digest : String} {txs : Batch}
    (h : Stored crates dbs digest txs) :
    ∃ text, print_batch_from_dbs crates dbs digest = .json text (txs.map crates.hex_encode) := by
  obtain ⟨key_bytes, hkey, ⟨db, hdb, hhas⟩, honly⟩ := h
  refine ⟨crates.hex_encode key_bytes, ?_⟩
  have hsome : print_batch_from_db crates key_bytes db =
      some (.json (crates.hex_encode key_bytes) (txs.map crates.hex_encode)) :=
    print_batch_from_db_eq_some.mpr ⟨txs, hhas, rfl⟩
  unfold print_batch_from_dbs
  rw [hkey]
  dsimp only
  rcases hfind : dbs.findSome? (print_batch_from_db crates key_bytes) with _ | output
  · have hnone := List.findSome?_eq_none_iff.mp hfind db hdb
    rw [hsome] at hnone
    cases hnone
  · obtain ⟨db', hdb', hprint⟩ := List.exists_of_findSome?_eq_some hfind
    obtain ⟨txs', hhas', rfl⟩ := print_batch_from_db_eq_some.mp hprint
    rw [honly db' hdb' txs' hhas']

/-! ## Hex, for runs on fixed inputs -/

namespace hex

def digit (n : ℕ) : Char := hex_digits.getD n '0'

/-- The digits of a byte. -/
def byte (b : UInt8) : List Char := [digit (b.toNat / 16), digit (b.toNat % 16)]

def encode (bytes : List UInt8) : String := .ofList (bytes.flatMap byte)

/-- The value of a digit, of either case. -/
def value (c : Char) : Option ℕ := hex_digits.idxOf? c.toLower

def decode_chars : List Char → Option (List UInt8)
  | [] => some []
  | [_] => none
  | high :: low :: rest => do
    return .ofNat (16 * (← value high) + (← value low)) :: (← decode_chars rest)

def decode (text : String) : Option (List UInt8) := decode_chars text.toList

theorem digit_mem {n : ℕ} (h : n < 16) : digit n ∈ hex_digits := by
  unfold digit
  rw [List.getD_eq_getElem _ _ h]
  exact List.getElem_mem h

theorem value_digit {n : ℕ} (h : n < 16) : value (digit n) = some n := by
  have hall : ∀ n < 16, value (digit n) = some n := by decide
  exact hall n h

theorem decode_chars_byte (b : UInt8) (text : List Char) :
    decode_chars (byte b ++ text) = (decode_chars text).map (b :: ·) := by
  have hb := b.toNat_lt
  unfold byte
  rw [List.cons_append, List.cons_append, List.nil_append, decode_chars, value_digit (by omega),
    value_digit (by omega)]
  simp only [Option.bind_eq_bind, Option.bind_some]
  rw [show 16 * (b.toNat / 16) + b.toNat % 16 = b.toNat by omega, UInt8.ofNat_toNat]
  rcases decode_chars text with _ | bytes <;> rfl

theorem decode_encode (bytes : List UInt8) : decode (encode bytes) = some bytes := by
  unfold decode encode
  rw [String.toList_ofList]
  induction bytes with
  | nil => rfl
  | cons b bytes ih =>
    rw [List.flatMap_cons, decode_chars_byte, ih]
    rfl

theorem mem_of_value {c : Char} {n : ℕ} (h : value c = some n) : c.toLower ∈ hex_digits := by
  obtain ⟨hlt, heq, -⟩ := List.idxOf?_eq_some_iff.mp h
  rw [← heq]
  exact List.getElem_mem hlt

/-- Every character of a text that is decoded is a digit. -/
theorem mem_of_decode_chars {text : List Char} {bytes : List UInt8} {c : Char}
    (h : decode_chars text = some bytes) (hc : c ∈ text) : c.toLower ∈ hex_digits := by
  fun_induction decode_chars text generalizing bytes with
  | case1 => cases hc
  | case2 => cases h
  | case3 high low rest ih =>
    obtain ⟨n, hhigh, h⟩ := Option.bind_eq_some_iff.mp h
    obtain ⟨m, hlow, h⟩ := Option.bind_eq_some_iff.mp h
    obtain ⟨bytes, hrest, -⟩ := Option.bind_eq_some_iff.mp h
    rcases List.mem_cons.mp hc with rfl | hc
    · exact mem_of_value hhigh
    · rcases List.mem_cons.mp hc with rfl | hc
      · exact mem_of_value hlow
      · exact ih hrest hc

theorem lawful (decode_base64 : String → Option (List UInt8))
    (deserialize : List UInt8 → Option WorkerMessage) :
    Crates.LawfulHex { hex_encode := encode, hex_decode := decode, decode_base64, deserialize } where
  decode_encode := decode_encode
  digits_of_encode := by
    intro bytes c h
    unfold encode at h
    rw [String.toList_ofList, List.mem_flatMap] at h
    obtain ⟨b, -, hc⟩ := h
    have hlt := b.toNat_lt
    rcases List.mem_pair.mp hc with rfl | rfl
    · exact digit_mem (by omega)
    · exact digit_mem (by omega)
  length_encode := by
    intro bytes
    unfold encode
    rw [String.toList_ofList, List.length_flatMap]
    simp [byte, Nat.mul_comm]
  digits_of_decode := fun _ _ h _ hc => mem_of_decode_chars h hc

end hex

end sailfish.batch_cli
