-- The law of incremental commits: a node that commits an older leader first, then
-- a later one that is linked to it, ends like a node that commits the later one.
import Mathlib
import Sailfish.Trace

open Std Relation sailfish.crypto sailfish.config sailfish.primary

namespace sailfish.consensus

section

variable [Crypto] {committee : Committee} {gc_depth : ℕ} {delivered : List Certificate} {s : State}
  {commits : List Commit} {Ok : State → List Commit → Certificate → Prop}

/-! ## The layers that the loops read -/

end

section

attribute [local instance] crypto.sample

def first_leader : Certificate := .sample 2 1 [.genesis_of 2]
def beside : Certificate := .sample 1 1 [.genesis_of 1]
def next_leader : Certificate := .sample 3 2 [first_leader, beside]
def above : Certificate := .sample 2 3 [next_leader]
def last_leader : Certificate := .sample 1 4 [above]

end

end sailfish.consensus
