-- Weights of sets of voters. A finite carrier holds the voters, and each
-- voter has a weight. Two sets that together weigh more than the carrier
-- share a voter.
import Mathlib

namespace voting

variable {α : Type*} {C : Finset α} {w : α → ℕ} {S T : Set α}

open Classical in
/-- The weight of the voters of the carrier that are in `S`. -/
noncomputable def weight (C : Finset α) (w : α → ℕ) (S : Set α) : ℕ :=
  (C.filter (· ∈ S)).sum w

@[simp] theorem weight_empty : weight C w ∅ = 0 := by simp [weight]

theorem weight_univ : weight C w Set.univ = C.sum w := by simp [weight]

theorem weight_mono (h : ∀ a ∈ C, a ∈ S → a ∈ T) : weight C w S ≤ weight C w T := by
  classical
  apply Finset.sum_le_sum_of_subset
  intro a ha
  rw [Finset.mem_filter] at ha ⊢
  exact ⟨ha.1, h a ha.1 ha.2⟩

theorem weight_le_total : weight C w S ≤ C.sum w := by
  rw [← weight_univ]
  exact weight_mono fun _ _ _ => Set.mem_univ _

/-! ## Two sets of voters -/

/-- Inclusion and exclusion, for the weights of two sets. -/
theorem weight_union_add_inter :
    weight C w (S ∪ T) + weight C w (S ∩ T) = weight C w S + weight C w T := by
  classical
  have hu : weight C w (S ∪ T) = (C.filter (· ∈ S) ∪ C.filter (· ∈ T)).sum w := by
    unfold weight; congr 1; ext a
    simp only [Finset.mem_filter, Finset.mem_union, Set.mem_union]; tauto
  have hi : weight C w (S ∩ T) = (C.filter (· ∈ S) ∩ C.filter (· ∈ T)).sum w := by
    unfold weight; congr 1; ext a
    simp only [Finset.mem_filter, Finset.mem_inter, Set.mem_inter_iff]; tauto
  rw [hu, hi, Finset.sum_union_inter]
  unfold weight
  congr!

theorem weight_add_le : weight C w S + weight C w T ≤ C.sum w + weight C w (S ∩ T) := by
  rw [← weight_union_add_inter]
  exact Nat.add_le_add_right weight_le_total _

/-- One voter weighs its weight. -/
theorem weight_singleton {a : α} (ha : a ∈ C) : weight C w {a} = w a := by
  classical
  have hf : C.filter (· ∈ ({a} : Set α)) = {a} := by
    ext b
    simp only [Finset.mem_filter, Set.mem_singleton_iff, Finset.mem_singleton]
    exact ⟨fun h => h.2, fun h => ⟨h ▸ ha, h⟩⟩
  unfold weight
  rw [← Finset.sum_singleton w a, ← hf]
  congr!

/-- A new voter adds its weight. -/
theorem weight_insert {a : α} (ha : a ∉ S) :
    weight C w (insert a S) = weight C w {a} + weight C w S := by
  have hdisjoint : ({a} : Set α) ∩ S = ∅ := Set.singleton_inter_eq_empty.mpr ha
  have hadd : weight C w ({a} ∪ S) + weight C w ({a} ∩ S) = weight C w {a} + weight C w S :=
    weight_union_add_inter
  rw [hdisjoint, weight_empty, Nat.add_zero] at hadd
  exact hadd

/-- A set that weighs more than another one holds a voter outside of it. -/
theorem exists_notMem_of_lt (h : weight C w T < weight C w S) : ∃ a ∈ C, a ∈ S ∧ a ∉ T := by
  by_contra hn
  push Not at hn
  have hle : weight C w S ≤ weight C w T := weight_mono hn
  omega

/-- Quorum intersection: two sets that together weigh more than the carrier share a voter. -/
theorem exists_mem_inter (h : C.sum w < weight C w S + weight C w T) :
    ∃ a ∈ C, a ∈ S ∧ a ∈ T := by
  have hle : weight C w S + weight C w T ≤ C.sum w + weight C w (S ∩ T) := weight_add_le
  have hpos : weight C w ∅ < weight C w (S ∩ T) := by
    rw [weight_empty]
    omega
  obtain ⟨a, ha, hm, -⟩ := exists_notMem_of_lt hpos
  exact ⟨a, ha, hm.1, hm.2⟩

/-! ## Lists of voters -/

/-- The weights of the voters of a list with no voter twice add up to at most the weight
of any set that holds them. -/
theorem sum_map_le_weight {l : List α} (hl : l.Nodup) (h0 : ∀ a ∈ l, a ∉ C → w a = 0)
    (hS : ∀ a ∈ l, a ∈ S) : (l.map w).sum ≤ weight C w S := by
  classical
  unfold weight
  rw [← List.sum_toFinset w hl]
  have hsub : l.toFinset.sum w = (l.toFinset.filter (· ∈ C)).sum w := by
    symm
    apply Finset.sum_subset (Finset.filter_subset _ _)
    intro a ha hn
    rw [List.mem_toFinset] at ha
    exact h0 a ha fun hc => hn (by simp [ha, hc])
  rw [hsub]
  apply Finset.sum_le_sum_of_subset
  intro a ha
  simp only [Finset.mem_filter, List.mem_toFinset] at ha ⊢
  exact ⟨ha.2, hS a ha.1⟩

end voting
