-- The store of a primary and its synchronizer (`primary/src/synchronizer.rs`): which
-- parents and which batches of a header are there, and which are missing.
import Mathlib
import Sailfish.Messages

open Std sailfish.crypto sailfish.config

namespace sailfish.primary

/-- What `Core` serializes into the store: a header under its id, a certificate under its
digest. -/
inductive Record
  | header (header : Header)
  | certificate (certificate : Certificate)
deriving DecidableEq

/-- The persistent storage. The markers that the `PayloadReceiver` writes have longer keys than
the records. -/
structure Store where
  records : ExtTreeMap Digest Record
  batches : List (Digest × ℕ)
deriving DecidableEq

namespace Store

def empty : Store := { records := ∅, batches := [] }

def write (s : Store) (key : Digest) (record : Record) : Store :=
  { s with records := s.records.insert key record }

end Store

section

variable [Crypto]

/-- The genesis and its digests. -/
def genesis_digests (committee : Committee) : List (Digest × Certificate) :=
  (Certificate.genesis committee).map fun x => (x.digest, x)

/-- The loop of `get_parents`: the digests that are missing, and the parents. A record that is
not a certificate cannot be deserialized as one. -/
def find_parents (genesis : List (Digest × Certificate)) (store : Store) :
    List Digest → DagResult (List Digest × List Certificate)
  | [] => .ok ([], [])
  | digest :: digests =>
    match genesis.find? (·.1 == digest), store.records[digest]? with
    | some (_, genesis_certificate), _ => do
      let (missing, parents) ← find_parents genesis store digests
      return (missing, genesis_certificate :: parents)
    | none, some (.certificate certificate) => do
      let (missing, parents) ← find_parents genesis store digests
      return (missing, certificate :: parents)
    | none, some (.header _) => .error .SerializationError
    | none, none => do
      let (missing, parents) ← find_parents genesis store digests
      return (digest :: missing, parents)

/-- The batches of a header that no worker of ours has. We don't store the payload of our own
workers. -/
def missing_batches (name : PublicKey) (store : Store) (header : Header) : List (Digest × ℕ) :=
  if header.author == name then []
  else header.payload.toList.filter fun batch => !store.batches.contains batch

/-- `deliver_certificate` finds all the ancestors of the certificate. -/
def has_ancestors (genesis : List (Digest × Certificate)) (store : Store)
    (certificate : Certificate) : Bool :=
  certificate.header.parents.toList.all fun digest =>
    genesis.any (·.1 == digest) || store.records.contains digest

end

end sailfish.primary
