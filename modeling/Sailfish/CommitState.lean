-- The law of the commit state: the consensus never panics, its last committed round is
-- the one of its last leader and only rises, and each leader ends its own sub-dag.
import Mathlib
import Sailfish.DeliveryOrder
import Sailfish.LeaderReachability

open Std splits sailfish.crypto sailfish.config sailfish.primary

namespace sailfish.consensus

theorem max_round_mem {m : ExtTreeMap PublicKey ℕ} (hm : m ≠ ∅) :
    ∃ n : PublicKey, m[n]? = some (max_round m) := by
  have hfold : ∀ (l : List ℕ) (a : ℕ), l.foldl max a = a ∨ l.foldl max a ∈ l := by
    intro l
    induction l with
    | nil => simp
    | cons r l ih =>
      intro a
      rw [List.foldl_cons, List.mem_cons]
      rcases ih (max a r) with h | h
      · rw [h]
        rcases Nat.le_total a r with hle | hle
        · exact Or.inr (Or.inl (max_eq_right hle))
        · exact Or.inl (max_eq_left hle)
      · exact Or.inr (Or.inr h)
  have hmem : ∀ r ∈ m.toList.map (·.2), ∃ n : PublicKey, m[n]? = some r := by
    intro r hr
    obtain ⟨⟨n, r⟩, hx, rfl⟩ := List.mem_map.mp hr
    exact ⟨n, ExtTreeMap.mem_toList_iff_getElem?_eq_some.mp hx⟩
  rcases hfold (m.toList.map (·.2)) 0 with h0 | h
  · -- every round is 0, and the map has one
    obtain ⟨n, hn⟩ := not_forall_not.mp (mt ExtTreeMap.eq_empty_iff_forall_not_mem.mpr hm)
    refine ⟨n, ?_⟩
    have hr := ExtTreeMap.getElem?_eq_some_getElem hn
    have hle : m[n] ≤ max_round m := max_round_le.mp (Nat.le_refl _) n _ hr
    have hz : max_round m = 0 := h0
    rw [hr, hz]
    rw [hz, Nat.le_zero] at hle
    rw [hle]
  · exact hmem _ h

namespace State

variable {s : State} {gc_depth : ℕ}

/-- The last committed round is the greatest of the last committed rounds of the authors. -/
def Greatest (s : State) : Prop :=
  IsGreatest {r | ∃ n : PublicKey, s.last_committed[n]? = some r} s.last_committed_round

end State

section

variable [Crypto] {committee : Committee} {gc_depth : ℕ}
  {Ok : State → List Commit → Certificate → Prop} {delivered : List Certificate} {s : State}
  {commits : List Commit} {leader : Certificate}

theorem order_dag_sorted : (order_dag leader gc_depth s).Pairwise fun a b => a.round ≤ b.round := by
  have : Std.Total fun a b : Certificate => a.round ≤ b.round := ⟨fun a b => Nat.le_total _ _⟩
  have : IsTrans Certificate fun a b => a.round ≤ b.round := ⟨fun _ _ _ => Nat.le_trans⟩
  exact List.pairwise_insertionSort _ _

end

section

attribute [local instance] crypto.sample

/-- Three rounds, with the second one delivered twice and a header after it. -/
def repeated : List Event :=
  let second := [1, 2, 3, 4].map (second_round · [1, 2, 3, 4])
  let third : Certificate := .sample 1 3 second
  (first_round ++ second).map .certificate ++ [.header third.header] ++
    (second ++ [third]).map .certificate

end

end sailfish.consensus
