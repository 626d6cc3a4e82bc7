-- The texts of keys (`crypto/src/lib.rs`) and their law: which texts `decode_base64` takes. It
-- keeps the first bytes of a text that has too many, and panics on one that has too few.
import Mathlib
import Sailfish.Lib.Base64
import Sailfish.SignedMessages

open sailfish.primary

namespace sailfish.crypto

/-- `base64::DecodeError`. -/
inductive DecodeError
  | InvalidByte (index : ℕ) (byte : UInt8)
  | InvalidLength
  | InvalidLastSymbol (index : ℕ) (byte : UInt8)
deriving DecidableEq

/-- The bytes of a key pair. -/
structure SecretKey where
  bytes : Vector UInt8 64

/-- `PublicKey(array)`. -/
def PublicKey.of_array (array : Vector UInt8 32) : PublicKey :=
  BitVec.ofNat 256 (from_be_bytes array.toList)

/-- `bytes[..n]`. `none` is a panic: the range is out of bounds. -/
def slice_to (bytes : List UInt8) (n : ℕ) : Option (List UInt8) :=
  if n ≤ bytes.length then some (bytes.take n) else none

/-- `slice.try_into()`, of an array of `n` bytes. -/
def try_into (n : ℕ) (slice : List UInt8) : Option (Vector UInt8 n) :=
  if h : slice.length = n then some ⟨slice.toArray, h⟩ else none

section

-- `base64::encode` and `base64::decode`.
variable (encode : List UInt8 → String) (decode : String → Except DecodeError (List UInt8))

def PublicKey.encode_base64 (key : PublicKey) : String := encode (as_ref key)

def SecretKey.encode_base64 (key : SecretKey) : String := encode key.bytes.toList

/-- What the two functions `decode_base64` share. `none` is a panic. -/
def decode_array (n : ℕ) (s : String) : Option (Except DecodeError (Vector UInt8 n)) :=
  match decode s with
  | .error e => some (.error e)
  | .ok bytes => do
    match try_into n (← slice_to bytes n) with
    | some array => some (.ok array)
    | none => some (.error .InvalidLength)

def PublicKey.decode_base64 (s : String) : Option (Except DecodeError PublicKey) :=
  (decode_array decode 32 s).map (Except.map PublicKey.of_array)

def SecretKey.decode_base64 (s : String) : Option (Except DecodeError SecretKey) :=
  (decode_array decode 64 s).map (Except.map SecretKey.mk)

variable {K : Type}

/-- The parser gives a key on the texts of its bytes alone, and an error on a text that has the
bytes of no key. -/
def ExactAt (parse : String → Option (Except DecodeError K)) (bytes : K → List UInt8)
    (s : String) : Prop :=
  (∀ key, parse s = some (.ok key) ↔ decode s = .ok (bytes key)) ∧
    ((∀ key, decode s ≠ .ok (bytes key)) → ∃ e, parse s = some (.error e))

end

variable {encode : List UInt8 → String} {decode : String → Except DecodeError (List UInt8)}
  {s : String} {n : ℕ}

theorem decode_array_of_error {e : DecodeError} (h : decode s = .error e) :
    decode_array decode n s = some (.error e) := by
  unfold decode_array
  rw [h]

theorem decode_array_of_lt {bytes : List UInt8} (h : decode s = .ok bytes)
    (hlt : bytes.length < n) : decode_array decode n s = none := by
  unfold decode_array slice_to
  rw [h]
  dsimp only
  rw [if_neg (by omega)]
  rfl

/-- Bytes past the first `n` are dropped. -/
theorem decode_array_of_le {bytes : List UInt8} (h : decode s = .ok bytes)
    (hle : n ≤ bytes.length) :
    ∃ array : Vector UInt8 n, decode_array decode n s = some (.ok array) ∧
      array.toList = bytes.take n := by
  have hlength : (bytes.take n).length = n := List.length_take_of_le hle
  refine ⟨⟨(bytes.take n).toArray, hlength⟩, ?_, rfl⟩
  unfold decode_array slice_to try_into
  rw [h]
  dsimp only
  rw [if_pos hle]
  simp only [Option.bind_eq_bind, Option.bind_some, dif_pos hlength]

/-- A parser that takes the first `n` bytes is exact on the texts that have no other number of
bytes. -/
theorem exactAt_iff {K : Type} {of_array : Vector UInt8 n → K} {bytes : K → List UInt8}
    (hbytes : ∀ array, bytes (of_array array) = array.toList)
    (hkey : ∀ key, ∃ array, of_array array = key) :
    ExactAt decode (fun s => (decode_array decode n s).map (Except.map of_array)) bytes s ↔
      ∀ b, decode s = .ok b → b.length = n := by
  have hlength : ∀ key, (bytes key).length = n := by
    intro key
    obtain ⟨array, rfl⟩ := hkey key
    rw [hbytes, Vector.length_toList]
  unfold ExactAt
  dsimp only
  rcases hdecode : decode s with e | b
  · rw [decode_array_of_error hdecode]
    simp [Except.map]
  · simp only [Except.ok.injEq, forall_eq']
    rcases Nat.lt_or_ge b.length n with hlt | hle
    · rw [decode_array_of_lt hdecode hlt]
      constructor
      · rintro ⟨-, herror⟩
        obtain ⟨e, he⟩ := herror fun key heq => by
          have := hlength key
          rw [← Except.ok.inj heq] at this
          omega
        cases he
      · intro heq
        omega
    · obtain ⟨array, hparse, harray⟩ := decode_array_of_le hdecode hle
      rw [hparse]
      simp only [Option.map_some, Except.map, Option.some.injEq, Except.ok.injEq]
      constructor
      · rintro ⟨hok, -⟩
        rw [(hok (of_array array)).mp rfl, hlength]
      · intro heq
        rw [List.take_of_length_le heq.le] at harray
        constructor
        · intro key
          constructor
          · rintro rfl
            rw [hbytes, harray]
          · intro hb
            obtain ⟨array', rfl⟩ := hkey key
            rw [hbytes, ← harray, Vector.toList_inj] at hb
            rw [hb]
        · intro hnone
          exact absurd (by rw [hbytes, harray]) (hnone (of_array array))

/-! ## The bytes of a public key -/

theorem from_be_bytes_concat (bytes : List UInt8) (b : UInt8) :
    from_be_bytes (bytes ++ [b]) = 256 * from_be_bytes bytes + b.toNat := by
  unfold from_be_bytes
  rw [List.foldl_append]
  rfl

theorem to_le_bytes_from_be_bytes (bytes : List UInt8) :
    (to_le_bytes bytes.length (from_be_bytes bytes)).reverse = bytes := by
  induction bytes using List.reverseRecOn with
  | nil => rfl
  | append_singleton bytes b ih =>
    have hb := b.toNat_lt
    have hdiv : (256 * from_be_bytes bytes + b.toNat) / 256 = from_be_bytes bytes := by omega
    rw [from_be_bytes_concat, List.length_append, List.length_singleton, to_le_bytes_succ,
      List.reverse_cons, hdiv, ih]
    congr 2
    apply UInt8.toNat_inj.mp
    rw [UInt8.toNat_ofNat']
    omega

theorem from_be_bytes_lt (bytes : List UInt8) : from_be_bytes bytes < 256 ^ bytes.length := by
  induction bytes using List.reverseRecOn with
  | nil => exact Nat.one_pos
  | append_singleton bytes b ih =>
    have hb := b.toNat_lt
    rw [from_be_bytes_concat, List.length_append, List.length_singleton, pow_succ']
    omega

theorem as_ref_of_array (array : Vector UInt8 32) :
    as_ref (PublicKey.of_array array) = array.toList := by
  have hlt := from_be_bytes_lt array.toList
  have hbytes := to_le_bytes_from_be_bytes array.toList
  rw [Vector.length_toList] at hlt hbytes
  unfold PublicKey.of_array
  rw [as_ref_eq, BitVec.toNat_ofNat, Nat.mod_eq_of_lt (by omega), hbytes]

theorem exists_of_array (key : PublicKey) : ∃ array, PublicKey.of_array array = key := by
  refine ⟨⟨(as_ref key).toArray, length_as_ref key⟩, as_ref_inj ?_⟩
  rw [as_ref_of_array]
  rfl

/-! ## The law -/

theorem PublicKey.exactAt_iff : ExactAt decode (PublicKey.decode_base64 decode) as_ref s ↔
    ∀ bytes, decode s = .ok bytes → bytes.length = 32 :=
  crypto.exactAt_iff as_ref_of_array exists_of_array

theorem SecretKey.exactAt_iff :
    ExactAt decode (SecretKey.decode_base64 decode) (·.bytes.toList) s ↔
      ∀ bytes, decode s = .ok bytes → bytes.length = 64 :=
  crypto.exactAt_iff (fun _ => rfl) fun key => ⟨key.bytes, rfl⟩

/-- A public key is parsed exactly, on a text of any length that is not the text of fewer or more
than its 32 bytes, and so is a secret key with its 64 bytes. Each key is parsed back, as the decoder
undoes the encoder. -/
theorem decode_base64_exact_iff (hdecode : ∀ bytes, decode (encode bytes) = .ok bytes) :
    (∀ s, ExactAt decode (PublicKey.decode_base64 decode) as_ref s ↔
      ∀ bytes, decode s = .ok bytes → bytes.length = 32) ∧
    (∀ s, ExactAt decode (SecretKey.decode_base64 decode) (·.bytes.toList) s ↔
      ∀ bytes, decode s = .ok bytes → bytes.length = 64) ∧
    (∀ key : PublicKey, PublicKey.decode_base64 decode (key.encode_base64 encode) =
      some (.ok key)) ∧
    ∀ key : SecretKey, SecretKey.decode_base64 decode (key.encode_base64 encode) =
      some (.ok key) := by
  refine ⟨fun s => PublicKey.exactAt_iff, fun s => SecretKey.exactAt_iff, ?_, ?_⟩
  · intro key
    have hkey : decode (key.encode_base64 encode) = .ok (as_ref key) := hdecode (as_ref key)
    refine ((PublicKey.exactAt_iff.mpr ?_).1 key).mpr hkey
    intro bytes hbytes
    rw [hkey] at hbytes
    rw [← Except.ok.inj hbytes, length_as_ref]
  · intro key
    have hkey : decode (key.encode_base64 encode) = .ok key.bytes.toList := hdecode key.bytes.toList
    refine ((SecretKey.exactAt_iff.mpr ?_).1 key).mpr hkey
    intro bytes hbytes
    rw [hkey] at hbytes
    rw [← Except.ok.inj hbytes, Vector.length_toList]

/-- A decoder: the standard one, with one error for all texts that it does not take. -/
def sample_decode (s : String) : Except DecodeError (List UInt8) :=
  match base64.decode s with
  | some bytes => .ok bytes
  | none => .error .InvalidLength

theorem sample_decode_encode (bytes : List UInt8) :
    sample_decode (base64.encode bytes) = .ok bytes := by
  unfold sample_decode
  rw [base64.decode_encode]

theorem decode_base64_exact_iff_sample :
    PublicKey.decode_base64 sample_decode (PublicKey.encode_base64 base64.encode 7) =
      some (.ok 7) :=
  (decode_base64_exact_iff sample_decode_encode).2.2.1 7

/-- A text of 3 bytes makes both parsers panic, and one of 65 bytes is parsed as the key of the
first bytes. -/
theorem decode_base64_of_other_lengths :
    PublicKey.decode_base64 sample_decode "AAAA" = none ∧
    SecretKey.decode_base64 sample_decode "AAAA" = none ∧
    PublicKey.decode_base64 sample_decode (base64.encode (List.replicate 65 0)) = some (.ok 0) ∧
    SecretKey.decode_base64 sample_decode (base64.encode (List.replicate 65 0)) =
      some (.ok ⟨Vector.replicate 64 0⟩) ∧
    ¬ (∀ s, ExactAt sample_decode (PublicKey.decode_base64 sample_decode) as_ref s) ∧
    ¬ ∀ s, ExactAt sample_decode (SecretKey.decode_base64 sample_decode) (·.bytes.toList) s := by
  have hshort : sample_decode "AAAA" = .ok [0, 0, 0] := by decide
  have hlong := sample_decode_encode (List.replicate 65 0)
  have hpanic : ∀ n, 3 < n → decode_array sample_decode n "AAAA" = none :=
    fun n hn => decode_array_of_lt hshort hn
  unfold PublicKey.decode_base64 SecretKey.decode_base64
  refine ⟨by rw [hpanic 32 (by decide)]; rfl, by rw [hpanic 64 (by decide)]; rfl, ?_, ?_, ?_, ?_⟩
  · unfold decode_array
    rw [hlong]
    rfl
  · unfold decode_array
    rw [hlong]
    rfl
  · exact fun h => absurd (PublicKey.exactAt_iff.mp (h "AAAA") _ hshort) (by decide)
  · exact fun h => absurd (SecretKey.exactAt_iff.mp (h "AAAA") _ hshort) (by decide)

end sailfish.crypto
