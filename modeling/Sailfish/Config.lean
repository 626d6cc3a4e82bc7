-- The `config` crate: the committee, its stakes, its thresholds and its
-- leaders. The addresses of the nodes are left out: a node is known by its key.
-- `Stake` and `WorkerId`, both `u32`, are numbers here.
import Mathlib
import Sailfish.Crypto
import Sailfish.Lib.Weight

open Std sailfish.crypto

namespace sailfish.config

/-- A `u32` sum. The release build (the one of the README) wraps. -/
def u32 (n : ℕ) : ℕ := n % 2 ^ 32

theorem u32_le (n : ℕ) : u32 n ≤ n := Nat.mod_le _ _

/-- `r - 1` on `u64`. The release build wraps at 0. -/
def wrapping_pred (r : ℕ) : ℕ := if r = 0 then 2 ^ 64 - 1 else r - 1

/-- `r + 1` on `u64`. The release build wraps at the last one. -/
def wrapping_succ (r : ℕ) : ℕ := if r = 2 ^ 64 - 1 then 0 else r + 1

/-- `r + d` on `u64`. -/
def wrapping_add (r d : ℕ) : ℕ := (r + d) % 2 ^ 64

theorem wrapping_succ_of_lt {r : ℕ} (h : r + 1 < 2 ^ 64) : wrapping_succ r = r + 1 :=
  if_neg (by omega)

theorem wrapping_add_of_lt {r d : ℕ} (h : r + d < 2 ^ 64) : wrapping_add r d = r + d :=
  Nat.mod_eq_of_lt h

theorem u32_of_lt {n : ℕ} (h : n < 2 ^ 32) : u32 n = n := Nat.mod_eq_of_lt h

inductive ConfigError
  | NotInCommittee (name : PublicKey)
  | UnknownWorker (id : ℕ)
deriving DecidableEq

structure Authority where
  /-- The voting power of this authority. -/
  stake : ℕ
  /-- The ids of the workers. -/
  workers : ExtTreeSet ℕ

/-- `Primary::spawn` panics unless the node's own key is in the committee, so the committee
of a node is not empty. -/
structure Committee where
  authorities : ExtTreeMap PublicKey Authority
  nonempty : authorities ≠ ∅

namespace Committee

variable (c : Committee)

/-- Return the stake of a specific authority. -/
def stake (name : PublicKey) : ℕ := (c.authorities[name]?).elim 0 (·.stake)

def total_votes : ℕ := u32 (c.authorities.toList.map (·.2.stake)).sum

/-- Returns the stake required to reach a quorum (2f+1). -/
def quorum_threshold : ℕ := u32 (2 * c.total_votes) / 3 + 1

/-- Returns the stake required to reach availability (f+1). -/
def validity_threshold : ℕ := u32 (c.total_votes + 2) / 3

def keys : List PublicKey := c.authorities.keys

theorem length_keys_pos : 0 < c.keys.length := by
  rw [List.length_pos_iff, keys, Ne, ExtTreeMap.keys_eq_nil_iff]
  exact c.nonempty

/-- Returns a leader node in a round-robin fashion. -/
def leader (seed : ℕ) : PublicKey :=
  c.keys.get ⟨seed % c.keys.length, Nat.mod_lt _ c.length_keys_pos⟩

/-- The primary of an authority. Its address is known by its key. -/
def primary (name : PublicKey) : Except ConfigError PublicKey :=
  if name ∈ c.authorities then .ok name else .error (.NotInCommittee name)

def others_primaries (myself : PublicKey) : List PublicKey := c.keys.filter (· ≠ myself)

/-- A worker of an authority. Its addresses are known by its id. -/
def worker (name : PublicKey) (id : ℕ) : Except ConfigError ℕ :=
  match c.authorities[name]? with
  | none => .error (.NotInCommittee name)
  | some authority => if id ∈ authority.workers then .ok id else .error (.UnknownWorker id)

/-! ## The weight of a set of authorities -/

/-- The stake of the authorities that are in `S`, as a number. -/
noncomputable def weight (S : Set PublicKey) : ℕ := voting.weight c.keys.toFinset c.stake S

/-- The stake of all the authorities, as a number. -/
def total : ℕ := (c.authorities.toList.map (·.2.stake)).sum

/-- The doubled total stake fits `u32`, so no threshold wraps. -/
def Fits : Prop := 2 * c.total < 2 ^ 32

instance : Decidable c.Fits := inferInstanceAs (Decidable (_ < _))

variable {c}

theorem mem_keys {name : PublicKey} : name ∈ c.keys ↔ name ∈ c.authorities :=
  ExtTreeMap.mem_keys

theorem keys_nodup : c.keys.Nodup := ExtTreeMap.nodup_keys

theorem leader_mem_keys (seed : ℕ) : c.leader seed ∈ c.keys := List.get_mem _ _

theorem stake_of_not_mem {name : PublicKey} (h : name ∉ c.authorities) : c.stake name = 0 := by
  unfold stake
  rw [ExtTreeMap.getElem?_eq_none h]
  rfl

theorem mem_of_stake_pos {name : PublicKey} (h : 0 < c.stake name) : name ∈ c.authorities := by
  by_contra hnot
  rw [stake_of_not_mem hnot] at h
  exact Nat.lt_irrefl 0 h

theorem stake_of_mem_toList {x : PublicKey × Authority} (h : x ∈ c.authorities.toList) :
    c.stake x.1 = x.2.stake := by
  have := ExtTreeMap.mem_toList_iff_getElem?_eq_some.mp h
  unfold stake
  rw [this]
  rfl

theorem sum_stake_keys : c.keys.toFinset.sum c.stake = c.total := by
  rw [List.sum_toFinset _ keys_nodup]
  unfold keys total
  rw [← ExtTreeMap.map_fst_toList_eq_keys, List.map_map]
  congr 1
  apply List.map_congr_left
  intro x hx
  exact stake_of_mem_toList hx

theorem weight_mono {S T : Set PublicKey} (h : S ⊆ T) : c.weight S ≤ c.weight T :=
  voting.weight_mono fun _ _ ha => h ha

theorem weight_le_total {S : Set PublicKey} : c.weight S ≤ c.total := by
  rw [← sum_stake_keys]
  exact voting.weight_le_total

@[simp] theorem weight_empty : c.weight ∅ = 0 := voting.weight_empty

/-- A new authority adds its stake to the weight of a set. -/
theorem weight_insert {name : PublicKey} {S : Set PublicKey} (h : name ∉ S) :
    c.weight (insert name S) = c.stake name + c.weight S := by
  have hself : c.weight {name} = c.stake name := by
    by_cases hm : name ∈ c.keys.toFinset
    · exact voting.weight_singleton hm
    · -- a name that is no authority has no stake and no weight
      rw [stake_of_not_mem fun ha => hm (List.mem_toFinset.mpr (mem_keys.mpr ha))]
      rw [← weight_empty (c := c)]
      apply Nat.le_antisymm
      · apply voting.weight_mono
        rintro a ha rfl
        exact absurd ha hm
      · exact weight_mono (Set.empty_subset _)
  rw [← hself]
  exact voting.weight_insert h

/-- The stakes of distinct authorities add up to at most the weight of a set that holds them. -/
theorem sum_stake_le_weight {l : List PublicKey} {S : Set PublicKey} (hl : l.Nodup)
    (hS : ∀ a ∈ l, a ∈ S) : (l.map c.stake).sum ≤ c.weight S := by
  apply voting.sum_map_le_weight hl _ hS
  intro a _ ha
  rw [List.mem_toFinset, mem_keys] at ha
  exact stake_of_not_mem ha

/-- The weight of distinct authorities is the sum of their stakes. -/
theorem weight_of_nodup {l : List PublicKey} (hl : l.Nodup) :
    c.weight {a | a ∈ l} = (l.map c.stake).sum := by
  induction l with
  | nil => simp
  | cons name l ih =>
    rw [List.nodup_cons] at hl
    have hset : {a | a ∈ name :: l} = insert name {a | a ∈ l} := by
      ext a
      simp
    rw [hset, weight_insert hl.1, ih hl.2, List.map_cons, List.sum_cons]

/-! ## The thresholds -/

theorem total_votes_eq (h : c.Fits) : c.total_votes = c.total := by
  unfold Fits at h
  exact u32_of_lt (by unfold total at h; omega)

theorem quorum_threshold_eq (h : c.Fits) : c.quorum_threshold = 2 * c.total / 3 + 1 := by
  unfold quorum_threshold
  rw [total_votes_eq h, u32_of_lt h]

theorem validity_threshold_eq (h : c.Fits) : c.validity_threshold = (c.total + 2) / 3 := by
  unfold validity_threshold
  unfold Fits at h
  rw [total_votes_eq h, u32_of_lt (by omega)]

theorem quorum_threshold_pos : 0 < c.quorum_threshold := Nat.succ_pos _

/-- A quorum and a validity set share an authority. -/
theorem total_lt_quorum_add_validity (h : c.Fits) :
    c.total < c.quorum_threshold + c.validity_threshold := by
  rw [quorum_threshold_eq h, validity_threshold_eq h]
  omega

/-- Two quorums share a validity set. -/
theorem validity_add_total_le_two_quorums (h : c.Fits) :
    c.validity_threshold + c.total ≤ 2 * c.quorum_threshold := by
  rw [quorum_threshold_eq h, validity_threshold_eq h]
  omega

theorem exists_mem_of_quorum_of_validity {S T : Set PublicKey} (h : c.Fits)
    (hS : c.quorum_threshold ≤ c.weight S) (hT : c.validity_threshold ≤ c.weight T) :
    ∃ a, a ∈ S ∧ a ∈ T := by
  have hlt := total_lt_quorum_add_validity h
  rw [← sum_stake_keys] at hlt
  obtain ⟨a, -, ha⟩ := voting.exists_mem_inter
    (Nat.lt_of_lt_of_le hlt (Nat.add_le_add hS hT))
  exact ⟨a, ha⟩

theorem validity_le_weight_inter {S T : Set PublicKey} (h : c.Fits)
    (hS : c.quorum_threshold ≤ c.weight S) (hT : c.quorum_threshold ≤ c.weight T) :
    c.validity_threshold ≤ c.weight (S ∩ T) := by
  have hle : c.weight S + c.weight T ≤ c.keys.toFinset.sum c.stake + c.weight (S ∩ T) :=
    voting.weight_add_le
  rw [sum_stake_keys] at hle
  have := validity_add_total_le_two_quorums h
  omega

/-- Without those that have less than a validity set, a quorum is still a validity set. -/
theorem validity_le_weight_of_quorum {S T : Set PublicKey} (h : c.Fits)
    (hT : c.weight T < c.validity_threshold) (hquorum : c.quorum_threshold ≤ c.weight (S ∪ T)) :
    c.validity_threshold ≤ c.weight S := by
  have hunion := voting.weight_union_add_inter (C := c.keys.toFinset) (w := c.stake) (S := S) (T := T)
  rw [quorum_threshold_eq h] at hquorum
  rw [validity_threshold_eq h] at hT ⊢
  unfold weight at hT hquorum ⊢
  omega

theorem exists_notMem_of_weight_lt {S T : Set PublicKey} (h : c.weight T < c.weight S) :
    ∃ a ∈ c.authorities, a ∈ S ∧ a ∉ T := by
  obtain ⟨a, hc, ha⟩ := voting.exists_notMem_of_lt h
  exact ⟨a, mem_keys.mp (List.mem_toFinset.mp hc), ha⟩

/-- A committee from a list of keys and stakes, for runs on fixed inputs. Each authority has
one worker. -/
def sample (stakes : List (PublicKey × ℕ)) (h : stakes ≠ []) : Committee where
  authorities := ExtTreeMap.ofList (stakes.map fun (name, stake) =>
    (name, ({ stake, workers := ExtTreeSet.ofList [0] } : Authority)))
  nonempty := by simpa using h

/-- Without some authorities, the committee has the weight of the others. -/
theorem weight_compl_le {c : Committee} {names others : List PublicKey} (hothers : others.Nodup)
    (h : (c.keys.all fun a => names.contains a || others.contains a) = true) :
    c.weight {a | a ∈ names}ᶜ ≤ (others.map c.stake).sum := by
  rw [← weight_of_nodup hothers]
  apply voting.weight_mono
  intro a ha hnot
  have hone := List.all_eq_true.mp h a (List.mem_toFinset.mp ha)
  rw [Bool.or_eq_true, List.contains_iff_mem, List.contains_iff_mem] at hone
  exact hone.resolve_left hnot

/-- Four authorities of stake 1. The leaders of rounds 1, 2 and 3 are 2, 3 and 4. -/
def four : Committee := .sample [(1, 1), (2, 1), (3, 1), (4, 1)] (by simp)

/-- Without three of them, they have less than a validity set. -/
theorem weight_compl_three : four.weight {a | a ∈ [1, 2, 3]}ᶜ < four.validity_threshold := by
  have hle : four.weight {a | a ∈ [1, 2, 3]}ᶜ ≤ ([4].map four.stake).sum :=
    weight_compl_le (by decide) (by decide +kernel)
  exact Nat.lt_of_le_of_lt hle (by decide +kernel)

end Committee

end sailfish.config
