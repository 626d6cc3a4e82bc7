-- Layered graphs, in which each edge goes one rank down, and the chain of
-- candidates that a descent takes: from a node to the highest candidate below it
-- that it is linked to, then on from that one.
import Mathlib

open Relation

namespace layered

variable {α : Type*} {rank : α → ℕ}

/-! ## Paths -/

section Paths

variable {E : α → α → Prop} (hE : ∀ x y, E x y → rank y + 1 = rank x)

include hE

theorem rank_le_of_path {x y : α} (h : ReflTransGen E x y) : rank y ≤ rank x := by
  induction h with
  | refl => exact Nat.le_refl _
  | tail _ hstep ih =>
    have := hE _ _ hstep
    omega

theorem eq_of_path {x y : α} (h : ReflTransGen E x y) (hr : rank x ≤ rank y) : x = y := by
  rcases h.cases_tail with heq | ⟨z, hxz, hzy⟩
  · exact heq.symm
  · have h1 := rank_le_of_path hE hxz
    have h2 := hE _ _ hzy
    omega

/-- A path goes through every rank between its ends. -/
theorem exists_of_path {x y : α} (h : ReflTransGen E x y) {n : ℕ} (hn : rank y ≤ n)
    (hx : n ≤ rank x) : ∃ z, rank z = n ∧ ReflTransGen E x z ∧ ReflTransGen E z y := by
  induction h with
  | refl => exact ⟨x, by omega, .refl, .refl⟩
  | @tail z y hxz hzy ih =>
    have hz := hE _ _ hzy
    by_cases hc : rank z ≤ n
    · obtain ⟨w, hw, hxw, hwz⟩ := ih hc
      exact ⟨w, hw, hxw, hwz.tail hzy⟩
    · exact ⟨y, by omega, hxz.tail hzy, .refl⟩

end Paths

/-! ## The chain of a descent -/

/-- `x` is linked to no candidate of a rank between `n` and its own. -/
def NoneAbove (rank : α → ℕ) (link : α → α → Prop) (n : ℕ) (x : α) : Prop :=
  ∀ y, link x y → rank y < rank x → rank y ≤ n

/-- The candidates of a rank above `floor` that the descent takes from a node. -/
inductive Chain (rank : α → ℕ) (link : α → α → Prop) (floor : ℕ) : α → List α → Prop
  | done {x : α} : NoneAbove rank link floor x → Chain rank link floor x []
  | next {x y : α} {l : List α} : link x y → rank y < rank x → floor < rank y →
      NoneAbove rank link (rank y) x → Chain rank link floor y l → Chain rank link floor x (y :: l)

namespace Chain

variable {link link' : α → α → Prop} {floor : ℕ} {x y : α} {l l' pre post : List α}

theorem rank_bounds (h : Chain rank link floor x l) {a : α} (ha : a ∈ l) :
    floor < rank a ∧ rank a < rank x := by
  induction h with
  | done => cases ha
  | next _ hlt hfloor _ _ ih =>
    rcases List.mem_cons.mp ha with rfl | ha
    · exact ⟨hfloor, hlt⟩
    · exact ⟨(ih ha).1, Nat.lt_trans (ih ha).2 hlt⟩

/-- The ranks go down along the chain. -/
theorem pairwise (h : Chain rank link floor x l) :
    (x :: l).Pairwise fun a b => rank b < rank a := by
  induction h with
  | done => exact List.pairwise_singleton _ _
  | next _ hlt _ _ htail ih =>
    rw [List.pairwise_cons]
    refine ⟨?_, ih⟩
    intro a ha
    rcases List.mem_cons.mp ha with rfl | ha
    · exact hlt
    · exact Nat.lt_trans (htail.rank_bounds ha).2 hlt

/-- What holds of the start and passes along the links holds of the whole chain. -/
theorem forall_mem {P : α → Prop} (hP : ∀ a b, P a → link a b → P b)
    (h : Chain rank link floor x l) (hx : P x) : ∀ a ∈ l, P a := by
  induction h with
  | done => intro a ha; cases ha
  | next hlink _ _ _ _ ih =>
    intro a ha
    have hy := hP _ _ hx hlink
    rcases List.mem_cons.mp ha with rfl | ha
    · exact hy
    · exact ih hy a ha

/-- With one candidate for each rank, there is one chain. -/
theorem unique (hu : ∀ a b c, link a b → link a c → rank b = rank c → b = c)
    (h : Chain rank link floor x l) (h' : Chain rank link floor x l') : l = l' := by
  induction h generalizing l' with
  | done hnone =>
    cases h' with
    | done => rfl
    | next hlink hlt hfloor _ _ => exact absurd (hnone _ hlink hlt) (by omega)
  | @next x y l hlink hlt hfloor hnone _ ih =>
    cases h' with
    | done hnone' => exact absurd (hnone' _ hlink hlt) (by omega)
    | @next _ z l' hlink' hlt' _ hnone' htail' =>
      have h1 := hnone _ hlink' hlt'
      have h2 := hnone' _ hlink hlt
      have hyz : y = z := hu x y z hlink hlink' (by omega)
      subst hyz
      rw [ih htail']

/-- A chain through `y` is a chain down to `y`, then the chain of `y`. -/
theorem split (h : Chain rank link floor x (pre ++ y :: post)) :
    Chain rank link (rank y) x pre ∧ Chain rank link floor y post := by
  induction pre generalizing x with
  | nil =>
    cases h with
    | next _ _ _ hnone htail => exact ⟨.done hnone, htail⟩
  | cons z pre ih =>
    cases h with
    | next hlink hlt _ hnone htail =>
      obtain ⟨hpre, hpost⟩ := ih htail
      have hy := (htail.rank_bounds (List.mem_append_right pre List.mem_cons_self)).2
      exact ⟨.next hlink hlt hy hnone hpre, hpost⟩

/-- A candidate that every higher node of the chain is linked to is on the chain. -/
theorem mem_of_linked (hu : ∀ a b c, link a b → link a c → rank b = rank c → b = c)
    (h : Chain rank link floor x l) (hfloor : floor < rank y) (hlt : rank y < rank x)
    (hlink : ∀ a ∈ x :: l, rank y < rank a → link a y) : y ∈ l := by
  induction h with
  | done hnone =>
    have := hnone y (hlink _ List.mem_cons_self hlt) hlt
    omega
  | @next x z l hxz hzx _ hnone _ ih =>
    have hxy := hlink x List.mem_cons_self hlt
    rcases Nat.lt_or_eq_of_le (hnone y hxy hlt) with hyz | hyz
    · apply List.mem_cons_of_mem
      exact ih hyz fun a ha hr => hlink a (List.mem_cons_of_mem x ha) hr
    · rw [hu x y z hxy hxz hyz]
      exact List.mem_cons_self

/-- A chain down to `y`, all linked to `y`, goes on with the chain of `y`. -/
theorem join (h : Chain rank link (rank y) x pre) (hlt : rank y < rank x)
    (hlink : ∀ a ∈ x :: pre, link a y) (hfloor : floor < rank y)
    (hy : Chain rank link floor y post) : Chain rank link floor x (pre ++ y :: post) := by
  induction h with
  | done hnone => exact .next (hlink _ List.mem_cons_self) hlt hfloor hnone hy
  | next hxz hzx hyz hnone _ ih =>
    exact .next hxz hzx (Nat.lt_trans hfloor hyz) hnone
      (ih hyz fun a ha => hlink a (List.mem_cons_of_mem _ ha))

/-- Each node after the start is linked from one before it. -/
theorem exists_link (h : Chain rank link floor x l) {a : α} (ha : a ∈ l) :
    ∃ b ∈ x :: l, link b a := by
  induction h with
  | done => cases ha
  | @next x y l hlink _ _ _ _ ih =>
    rcases List.mem_cons.mp ha with rfl | ha
    · exact ⟨x, List.mem_cons_self, hlink⟩
    · obtain ⟨b, hb, hba⟩ := ih ha
      exact ⟨b, List.mem_cons_of_mem x hb, hba⟩

/-- Each node of the chain is linked to the next one, of a lower rank. -/
theorem isChain (h : Chain rank link floor x l) :
    (x :: l).IsChain fun a b => link a b ∧ rank b < rank a := by
  induction h with
  | done => exact List.isChain_singleton _
  | next hlink hlt _ _ _ ih => exact List.isChain_cons_cons.mpr ⟨⟨hlink, hlt⟩, ih⟩

/-- For a rank that the chain leaves out, the last node above it is linked to no candidate of
that rank. -/
theorem skip (h : Chain rank link floor x l) {k : ℕ} (hfloor : floor < k) (hk : k < rank x)
    (hout : ∀ a ∈ l, rank a ≠ k) : ∃ pre a post, x :: l = pre ++ a :: post ∧ k < rank a ∧
      (∀ b ∈ post, rank b < k) ∧ ∀ y, link a y → rank y ≠ k := by
  induction h with
  | @done x hnone =>
    refine ⟨[], x, [], rfl, hk, List.forall_mem_nil _, ?_⟩
    rintro y hlink rfl
    have := hnone y hlink hk
    omega
  | @next x y l _ _ _ hnone htail ih =>
    rw [List.forall_mem_cons] at hout
    by_cases hy : rank y < k
    · refine ⟨[], x, y :: l, rfl, hk, ?_, ?_⟩
      · intro b hb
        rcases List.mem_cons.mp hb with rfl | hb
        · exact hy
        · exact Nat.lt_trans (htail.rank_bounds hb).2 hy
      · rintro z hlink rfl
        have := hnone z hlink hk
        omega
    · obtain ⟨pre, a, post, heq, hrest⟩ := ih (by have := hout.1; omega) hout.2
      exact ⟨x :: pre, a, post, by rw [heq]; rfl, hrest⟩

/-- Links that agree on the nodes of the chain make the same chain. -/
theorem congr {P : α → Prop} (hP : ∀ a b, P a → floor < rank b → link a b → P b)
    (heq : ∀ a b, P a → floor < rank b → rank b < rank a → (link a b ↔ link' a b))
    (h : Chain rank link floor x l) (hx : P x) : Chain rank link' floor x l := by
  induction h with
  | @done x hnone =>
    refine .done fun y hlink hlt => ?_
    by_contra hc
    exact hc (hnone y ((heq x y hx (by omega) hlt).mpr hlink) hlt)
  | @next x y l hlink hlt hfloor hnone _ ih =>
    refine .next ((heq x y hx hfloor hlt).mp hlink) hlt hfloor ?_ (ih (hP x y hx hfloor hlink))
    intro z hlink' hzx
    by_contra hc
    exact hc (hnone z ((heq x z hx (by omega) hzx).mpr hlink') hzx)

end Chain

end layered
