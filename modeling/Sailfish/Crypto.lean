-- The `crypto` crate: digests, public keys and signatures. SHA-512 and
-- ed25519 come from the `ed25519_dalek` package, so they are parameters.
import Mathlib

namespace sailfish.crypto

/-- 32 bytes, ordered as the bytes are. -/
abbrev Digest := BitVec 256

/-- 32 bytes, ordered as the bytes are. -/
abbrev PublicKey := BitVec 256

/-- Digests and keys are the keys of maps, in the order of their bytes. -/
instance instTransOrdDigest : Std.TransOrd Digest := BitVec.instTransOrd

instance instLawfulEqOrdDigest : Std.LawfulEqOrd Digest := BitVec.instLawfulEqOrd

structure Signature where
  part1 : BitVec 256
  part2 : BitVec 256
deriving DecidableEq, Inhabited

/-- `Signature::default()`: 64 zero bytes. -/
def Signature.default : Signature := { part1 := 0, part2 := 0 }

/-- `x.as_ref()`: the 32 bytes, the first one first. -/
def as_ref (x : BitVec 256) : List UInt8 :=
  (List.range 32).map fun i => UInt8.ofNat (x.toNat / 256 ^ (31 - i))

/-- `n.to_le_bytes()`, on a number of `k` bytes. -/
def to_le_bytes (k n : ℕ) : List UInt8 :=
  (List.range k).map fun i => UInt8.ofNat (n / 256 ^ i)

/-- `from_be_bytes`: the number of some bytes, the highest one first. -/
def from_be_bytes (bytes : List UInt8) : ℕ := bytes.foldl (fun n b => 256 * n + b.toNat) 0

/-- What the crates take from `ed25519_dalek`, and the key pairs behind the
`SignatureService` of each node. -/
class Crypto where
  /-- The first 32 bytes of the SHA-512 hash of the bytes. -/
  sha512 : List UInt8 → Digest
  /-- `ed25519::signature::Signature::from_bytes` takes the bytes. -/
  signature_from_bytes : Signature → Bool
  /-- `dalek::PublicKey::from_bytes` takes the bytes. -/
  key_from_bytes : PublicKey → Bool
  verify_strict : PublicKey → Digest → Signature → Bool
  /-- `dalek::verify_batch`, on the messages with their signatures and keys. -/
  verify_batch : List (Digest × Signature × PublicKey) → Bool
  /-- `Signature::new` with the secret key that belongs to the public key. -/
  sign : PublicKey → Digest → Signature

section

variable [Crypto]

/-- `Signature::verify` gives `Ok`. -/
def Signature.verify (signature : Signature) (digest : Digest) (public_key : PublicKey) : Bool :=
  Crypto.signature_from_bytes signature && Crypto.key_from_bytes public_key &&
    Crypto.verify_strict public_key digest signature

/-- `Signature::verify_batch` gives `Ok`. -/
def Signature.verify_batch (digest : Digest) (votes : List (PublicKey × Signature)) : Bool :=
  votes.all (fun (key, sig) => Crypto.signature_from_bytes sig && Crypto.key_from_bytes key) &&
    Crypto.verify_batch (votes.map fun (key, sig) => (digest, sig, key))

/-- The documented behaviour of `dalek::verify_batch`: a batch passes only when each of its
signatures is valid. -/
def BatchSound : Prop :=
  ∀ batch, Crypto.verify_batch batch = true →
    ∀ x ∈ batch, Crypto.verify_strict x.2.2 x.1 x.2.1 = true

/-- The documented behaviour of `dalek::verify_batch`: a batch passes when each of its signatures is
valid. -/
def BatchComplete : Prop :=
  ∀ batch : List (Digest × Signature × PublicKey),
    (∀ x ∈ batch, Crypto.verify_strict x.2.2 x.1 x.2.1 = true) → Crypto.verify_batch batch = true

/-- Signatures are unforgeable: a valid one comes from the holder of the key. -/
def Unforgeable (Signed : PublicKey → Digest → Prop) : Prop :=
  ∀ (key : PublicKey) (digest : Digest) (sig : Signature),
    sig.verify digest key = true → Signed key digest

/-- A batch that passes holds only signatures that pass on their own. -/
theorem Signature.verify_of_verify_batch (hb : BatchSound) {digest : Digest}
    {votes : List (PublicKey × Signature)} (h : Signature.verify_batch digest votes = true)
    {key : PublicKey} {sig : Signature} (hm : (key, sig) ∈ votes) :
    sig.verify digest key = true := by
  unfold Signature.verify_batch at h
  rw [Bool.and_eq_true, List.all_eq_true] at h
  obtain ⟨hparse, hbatch⟩ := h
  have hstrict := hb _ hbatch (digest, sig, key)
    (List.mem_map.mpr ⟨(key, sig), hm, rfl⟩)
  unfold Signature.verify
  have hp := hparse _ hm
  simp only at hp hstrict
  rw [hp, hstrict]
  rfl

/-- Signatures that pass on their own pass as a batch. -/
theorem Signature.verify_batch_of_verify (hb : BatchComplete) {digest : Digest}
    {votes : List (PublicKey × Signature)} (h : ∀ x ∈ votes, x.2.verify digest x.1 = true) :
    Signature.verify_batch digest votes = true := by
  simp only [Signature.verify, Bool.and_eq_true] at h
  unfold Signature.verify_batch
  rw [Bool.and_eq_true, List.all_eq_true]
  constructor
  · intro x hx
    rw [Bool.and_eq_true]
    exact (h x hx).1
  · apply hb
    intro x hx
    obtain ⟨⟨key, sig⟩, hm, rfl⟩ := List.mem_map.mp hx
    exact (h _ hm).2

end

/-- A small instance, for runs on fixed inputs: the hash is a polynomial in the bytes, and
the one valid signature of a digest holds the key and the digest. -/
@[reducible] def sample : Crypto where
  sha512 bytes := BitVec.ofNat 256 (bytes.foldl (fun h b => h * 257 + b.toNat + 1) 0)
  signature_from_bytes _ := true
  key_from_bytes _ := true
  verify_strict key digest sig := sig.part1 == key && sig.part2 == digest
  verify_batch batch := batch.all fun (digest, sig, key) => sig.part1 == key && sig.part2 == digest
  sign key digest := { part1 := key, part2 := digest }

/-- As `sample`, but only signatures of the digests of a list are valid. -/
@[reducible] def sample_for (digests : List Digest) : Crypto :=
  { sample with
    verify_strict := fun key digest sig =>
      sig.part1 == key && sig.part2 == digest && digests.contains digest
    verify_batch := fun batch => batch.all fun (digest, sig, key) =>
      sig.part1 == key && sig.part2 == digest && digests.contains digest }

theorem sample_batchSound : @BatchSound sample := by
  intro batch h x hx
  exact List.all_eq_true.mp h x hx

theorem sample_batchComplete : @BatchComplete sample := by
  intro batch h
  exact List.all_eq_true.mpr h

end sailfish.crypto
