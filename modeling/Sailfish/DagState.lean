-- What the operations of the state of the consensus do, entry by entry: a
-- delivery adds one entry, and an update keeps the entries that are neither below
-- the last committed round of their author nor older than the garbage collector.
import Mathlib
import Sailfish.Consensus
import Sailfish.Lib.Layered

open Std Relation sailfish.crypto sailfish.config sailfish.primary

namespace sailfish.consensus

/-! ## The entries of the dag -/

/-- The entry of an author in a round. -/
def Dag.entry (dag : Dag) (r : ℕ) (n : PublicKey) : Option (Digest × Certificate) :=
  (dag[r]?).bind fun (layer : Layer) => layer[n]?

theorem Layer.mem_values {layer : Layer} {x : Digest × Certificate} :
    x ∈ layer.values ↔ ∃ n : PublicKey, layer[n]? = some x := by
  unfold Layer.values
  rw [List.mem_map]
  constructor
  · rintro ⟨⟨n, y⟩, hy, rfl⟩
    exact ⟨n, ExtTreeMap.mem_toList_iff_getElem?_eq_some.mp hy⟩
  · rintro ⟨n, hn⟩
    exact ⟨(n, x), ExtTreeMap.mem_toList_iff_getElem?_eq_some.mpr hn, rfl⟩

theorem Dag.entry_of_layer {dag : Dag} {r : ℕ} {layer : Layer} (h : dag[r]? = some layer)
    (n : PublicKey) : dag.entry r n = layer[n]? := by
  unfold Dag.entry
  rw [h]
  rfl

theorem Dag.layer_of_entry {dag : Dag} {r : ℕ} {n : PublicKey} {x : Digest × Certificate}
    (h : dag.entry r n = some x) : ∃ layer : Layer, dag[r]? = some layer ∧ layer[n]? = some x := by
  unfold Dag.entry at h
  exact Option.bind_eq_some_iff.mp h

theorem Dag.mem_entries {dag : Dag} {x : Digest × Certificate} :
    x ∈ dag.entries ↔ ∃ r n, dag.entry r n = some x := by
  unfold Dag.entries
  rw [List.mem_flatMap]
  constructor
  · rintro ⟨⟨r, layer⟩, hl, hx⟩
    obtain ⟨n, hn⟩ := Layer.mem_values.mp hx
    have hr := ExtTreeMap.mem_toList_iff_getElem?_eq_some.mp hl
    exact ⟨r, n, by rw [Dag.entry_of_layer hr, hn]⟩
  · rintro ⟨r, n, h⟩
    obtain ⟨layer, hr, hn⟩ := Dag.layer_of_entry h
    exact ⟨(r, layer), ExtTreeMap.mem_toList_iff_getElem?_eq_some.mpr hr,
      Layer.mem_values.mpr ⟨n, hn⟩⟩

/-- No layer of the dag is empty. -/
def Dag.NoEmptyLayer (dag : Dag) : Prop :=
  ∀ (r : ℕ) (layer : Layer), dag[r]? = some layer → layer ≠ ∅

theorem Dag.NoEmptyLayer.exists_entry {dag : Dag} (h : dag.NoEmptyLayer) {r : ℕ} {layer : Layer}
    (hl : dag[r]? = some layer) : ∃ n x, dag.entry r n = some x := by
  have hne := h r layer hl
  rw [Ne, ExtTreeMap.eq_empty_iff_forall_not_mem] at hne
  push Not at hne
  obtain ⟨n, hn⟩ := hne
  exact ⟨n, layer[n], by rw [Dag.entry_of_layer hl, ExtTreeMap.getElem?_eq_some_getElem hn]⟩

/-- A layer is told by its entries. -/
theorem Dag.NoEmptyLayer.layer_eq {dag dag' : Dag} (h : dag.NoEmptyLayer) (h' : dag'.NoEmptyLayer)
    {r : ℕ} (heq : ∀ n, dag.entry r n = dag'.entry r n) : dag[r]? = dag'[r]? := by
  rcases hl : dag[r]? with _ | layer
  · rcases hl' : dag'[r]? with _ | layer'
    · rfl
    · -- a layer of the other dag has an entry
      obtain ⟨n, x, hx⟩ := h'.exists_entry hl'
      rw [← heq] at hx
      obtain ⟨layer, hlayer, -⟩ := Dag.layer_of_entry hx
      rw [hl] at hlayer
      cases hlayer
  · rcases hl' : dag'[r]? with _ | layer'
    · obtain ⟨n, x, hx⟩ := h.exists_entry hl
      rw [heq] at hx
      obtain ⟨layer', hlayer, -⟩ := Dag.layer_of_entry hx
      rw [hl'] at hlayer
      cases hlayer
    · rw [Option.some.injEq]
      apply ExtTreeMap.ext_getElem?
      intro n
      rw [← Dag.entry_of_layer hl, ← Dag.entry_of_layer hl', heq]

/-! ## The cleanup -/

theorem Dag.retain_entry (dag : Dag) (name : PublicKey) (round gc_depth lcr r : ℕ)
    (n : PublicKey) : (dag.retain name round gc_depth lcr).entry r n =
      if (n = name → round ≤ r) ∧ lcr ≤ wrapping_add r gc_depth then dag.entry r n else none := by
  unfold Dag.retain Dag.entry
  rw [ExtTreeMap.getElem?_filterMap']
  rcases hl : dag[r]? with _ | layer
  · simp
  · simp only [Option.bind_some]
    set kept := layer.filter fun n _ => n != name || decide (r ≥ round) with hkept
    have hn : kept[n]? = if n = name → round ≤ r then layer[n]? else none := by
      rw [hkept, ExtTreeMap.getElem?_filter']
      rcases layer[n]? with _ | x
      · simp
      · by_cases h1 : n = name <;> by_cases h2 : round ≤ r <;> simp [h1, h2]
    by_cases hgc : lcr ≤ wrapping_add r gc_depth
    · by_cases he : kept = ∅
      · have hnone : kept[n]? = none := by simp [he]
        rw [hn] at hnone
        simp [he, hgc, hnone]
      · simp [hgc, hn, ExtTreeMap.isEmpty_eq_false_iff.mpr he]
    · simp [hgc]

theorem Dag.retain_noEmptyLayer (dag : Dag) (name : PublicKey) (round gc_depth lcr : ℕ) :
    (dag.retain name round gc_depth lcr).NoEmptyLayer := by
  intro r layer h
  unfold Dag.retain at h
  rw [ExtTreeMap.getElem?_filterMap'] at h
  obtain ⟨layer', -, h⟩ := Option.bind_eq_some_iff.mp h
  simp only [Option.ite_none_right_eq_some, Option.some.injEq, Bool.and_eq_true,
    Bool.not_eq_true', ExtTreeMap.isEmpty_eq_false_iff] at h
  obtain ⟨⟨hne, -⟩, rfl⟩ := h
  exact hne

/-- The loop of `update` keeps an entry that every pair of the list keeps. -/
theorem Dag.foldl_retain_entry (l : List (PublicKey × ℕ)) (gc_depth lcr : ℕ) (dag : Dag) (r : ℕ)
    (n : PublicKey) :
    (l.foldl (fun dag (name, round) => Dag.retain dag name round gc_depth lcr) dag).entry r n =
      if (∀ x ∈ l, n = x.1 → x.2 ≤ r) ∧ (l ≠ [] → lcr ≤ wrapping_add r gc_depth) then dag.entry r n
      else none := by
  induction l generalizing dag with
  | nil => simp
  | cons x l ih =>
    rw [List.foldl_cons, ih, Dag.retain_entry, ← ite_and]
    congr 1
    rw [eq_iff_iff, List.forall_mem_cons]
    by_cases h : lcr ≤ wrapping_add r gc_depth
    · simp [h, and_comm]
    · simp [h]

theorem Dag.foldl_retain_noEmptyLayer {l : List (PublicKey × ℕ)} (hl : l ≠ []) (gc_depth lcr : ℕ)
    (dag : Dag) :
    (l.foldl (fun dag (name, round) =>
      Dag.retain dag name round gc_depth lcr) dag).NoEmptyLayer := by
  obtain ⟨l, x, rfl⟩ := (List.eq_nil_or_concat' l).resolve_left hl
  rw [List.foldl_append]
  exact Dag.retain_noEmptyLayer _ _ _ _ _

/-! ## The last committed rounds -/

theorem max_round_le {m : ExtTreeMap PublicKey ℕ} {k : ℕ} :
    max_round m ≤ k ↔ ∀ (n : PublicKey) (r : ℕ), m[n]? = some r → r ≤ k := by
  have hfold : ∀ (l : List ℕ) (a : ℕ), l.foldl max a ≤ k ↔ a ≤ k ∧ ∀ r ∈ l, r ≤ k := by
    intro l
    induction l with
    | nil => simp
    | cons r l ih =>
      intro a
      rw [List.foldl_cons, ih]
      simp [and_assoc]
  unfold max_round
  rw [hfold]
  simp only [Nat.zero_le, true_and, List.mem_map, Prod.exists, exists_eq_right,
    ExtTreeMap.mem_toList_iff_getElem?_eq_some]
  exact ⟨fun h n r hr => h r ⟨n, hr⟩, fun h r ⟨n, hr⟩ => h n r hr⟩

namespace State

variable {s : State} {c : Certificate} {gc_depth : ℕ}

/-- The last committed round of an author, or 0. -/
def last (s : State) (n : PublicKey) : ℕ := (s.last_committed[n]?).getD 0

theorem last_eq {n : PublicKey} {r : ℕ} (hr : 0 < r) :
    s.last_committed[n]? = some r ↔ s.last n = r := by
  unfold last
  rcases s.last_committed[n]? with _ | x
  · simp
    omega
  · simp

theorem update_last_committed (n : PublicKey) : (s.update c gc_depth).last_committed[n]? =
    if n = c.origin then some (max (s.last n) c.round) else s.last_committed[n]? := by
  unfold update last
  rw [ExtTreeMap.getElem?_alter]
  by_cases h : n = c.origin
  · subst h
    rcases s.last_committed[c.origin]? with _ | r <;> simp
  · simp [h, Ne.symm h]

theorem update_last (n : PublicKey) : (s.update c gc_depth).last n =
    if n = c.origin then max (s.last n) c.round else s.last n := by
  unfold last
  rw [update_last_committed]
  split <;> rfl

theorem update_dag_entry (r : ℕ) (n : PublicKey) : (s.update c gc_depth).dag.entry r n =
    if (s.update c gc_depth).last n ≤ r ∧
      (s.update c gc_depth).last_committed_round ≤ wrapping_add r gc_depth
    then s.dag.entry r n else none := by
  have hmem : (s.update c gc_depth).last_committed[c.origin]? =
      some (max (s.last c.origin) c.round) := by
    rw [update_last_committed, if_pos rfl]
  have hne : (s.update c gc_depth).last_committed.toList ≠ [] :=
    List.ne_nil_of_mem (ExtTreeMap.mem_toList_iff_getElem?_eq_some.mpr hmem)
  have hlast : (∀ x ∈ (s.update c gc_depth).last_committed.toList, n = x.1 → x.2 ≤ r) ↔
      (s.update c gc_depth).last n ≤ r := by
    unfold last
    constructor
    · intro h
      rcases hn : (s.update c gc_depth).last_committed[n]? with _ | lc
      · exact Nat.zero_le r
      · exact h (n, lc) (ExtTreeMap.mem_toList_iff_getElem?_eq_some.mpr hn) rfl
    · rintro h ⟨n', lc⟩ hx rfl
      rw [ExtTreeMap.mem_toList_iff_getElem?_eq_some.mp hx] at h
      exact h
  have hfold := Dag.foldl_retain_entry (s.update c gc_depth).last_committed.toList gc_depth
    (s.update c gc_depth).last_committed_round s.dag r n
  simp only [hlast, hne, ne_eq, not_false_eq_true, forall_const] at hfold
  exact hfold

theorem update_noEmptyLayer : (s.update c gc_depth).dag.NoEmptyLayer := by
  have hmem : (s.update c gc_depth).last_committed[c.origin]? =
      some (max (s.last c.origin) c.round) := by
    rw [update_last_committed, if_pos rfl]
  exact Dag.foldl_retain_noEmptyLayer
    (List.ne_nil_of_mem (ExtTreeMap.mem_toList_iff_getElem?_eq_some.mpr hmem)) _ _ _

/-- The last committed round is the maximum of the last committed rounds of the authors. -/
def Latest (s : State) : Prop := s.last_committed_round = max_round s.last_committed

theorem Latest.le (h : s.Latest) (n : PublicKey) : s.last n ≤ s.last_committed_round := by
  unfold last
  rcases hn : s.last_committed[n]? with _ | r
  · exact Nat.zero_le _
  · rw [h]
    exact max_round_le.mp (Nat.le_refl _) n r hn

theorem update_latest : (s.update c gc_depth).Latest := rfl

theorem update_last_committed_round (h : s.Latest) :
    (s.update c gc_depth).last_committed_round = max s.last_committed_round c.round := by
  rw [update_latest]
  apply Nat.le_antisymm
  · rw [max_round_le]
    intro n r hr
    rw [update_last_committed] at hr
    split at hr
    · cases hr
      have := h.le n
      omega
    · have := max_round_le.mp (Nat.le_refl _) n r hr
      rw [← h] at this
      omega
  · have hle := max_round_le.mp (Nat.le_refl (max_round (s.update c gc_depth).last_committed))
    apply Nat.max_le.mpr
    constructor
    · rw [h, max_round_le]
      intro n r hr
      by_cases hn : n = c.origin
      · have h1 := hle n _ (by rw [update_last_committed, if_pos hn])
        have h2 : s.last n = r := by simp [last, hr]
        omega
      · exact hle n r (by rw [update_last_committed, if_neg hn, hr])
    · have h1 := hle c.origin _ (by rw [update_last_committed, if_pos rfl])
      omega

/-! ## The updates of a sub-dag -/

/-- The state once the certificates of a sub-dag are in the sequence. -/
def after (s : State) (block : List Certificate) (gc_depth : ℕ) : State :=
  block.foldl (·.update · gc_depth) s

variable {block : List Certificate}

theorem after_cons : s.after (c :: block) gc_depth = (s.update c gc_depth).after block gc_depth :=
  rfl

theorem after_latest (h : s.Latest) : (s.after block gc_depth).Latest := by
  induction block generalizing s with
  | nil => exact h
  | cons c block ih => exact ih update_latest

theorem after_last_le {n : PublicKey} {k : ℕ} : (s.after block gc_depth).last n ≤ k ↔
    s.last n ≤ k ∧ ∀ c ∈ block, c.origin = n → c.round ≤ k := by
  induction block generalizing s with
  | nil => simp [after]
  | cons c block ih =>
    have hstep := ih (s := s.update c gc_depth)
    rw [update_last] at hstep
    rw [List.forall_mem_cons, ← and_assoc]
    refine hstep.trans (and_congr_left' ?_)
    by_cases h : n = c.origin
    · simp [h]
    · simp [h, Ne.symm h]

theorem after_last_committed_round_le (h : s.Latest) {k : ℕ} :
    (s.after block gc_depth).last_committed_round ≤ k ↔
      s.last_committed_round ≤ k ∧ ∀ c ∈ block, c.round ≤ k := by
  induction block generalizing s with
  | nil => simp [after]
  | cons c block ih =>
    have hstep := ih (s := s.update c gc_depth) update_latest
    rw [update_last_committed_round h] at hstep
    rw [List.forall_mem_cons, ← and_assoc]
    refine hstep.trans (and_congr_left' ?_)
    simp

/-- The updates of a sub-dag drop the entries that the last of them drops. -/
theorem after_dag_entry (hb : block ≠ []) (r : ℕ) (n : PublicKey) :
    (s.after block gc_depth).dag.entry r n =
      if (s.after block gc_depth).last n ≤ r ∧
        (s.after block gc_depth).last_committed_round ≤ wrapping_add r gc_depth
      then s.dag.entry r n else none := by
  induction block generalizing s with
  | nil => exact absurd rfl hb
  | cons c block ih =>
    by_cases hnil : block = []
    · subst hnil
      exact update_dag_entry r n
    · have hstep := ih (s := s.update c gc_depth) hnil
      rw [after_cons, hstep, update_dag_entry, ← ite_and]
      congr 1
      rw [eq_iff_iff, and_iff_left_iff_imp]
      rintro ⟨h1, h2⟩
      exact ⟨(after_last_le.mp h1).1, ((after_last_committed_round_le update_latest).mp h2).1⟩

theorem after_noEmptyLayer (hb : block ≠ []) : (s.after block gc_depth).dag.NoEmptyLayer := by
  obtain ⟨block, c, rfl⟩ := (List.eq_nil_or_concat' block).resolve_left hb
  unfold after
  rw [List.foldl_append]
  exact update_noEmptyLayer

/-- Every entry that is left after a sub-dag was there before it. -/
theorem entry_of_after {r : ℕ} {n : PublicKey} {x : Digest × Certificate}
    (hx : (s.after block gc_depth).dag.entry r n = some x) :
    s.dag.entry r n = some x := by
  by_cases hb : block = []
  · subst hb
    exact hx
  · rw [after_dag_entry hb] at hx
    split at hx
    · exact hx
    · cases hx

end State

section

variable [Crypto] {s : State} {c : Certificate} {gc_depth : ℕ}

/-! ## A delivery -/

theorem State.insert_dag_entry (r : ℕ) (n : PublicKey) : (s.insert c).dag.entry r n =
    if r = c.round ∧ n = c.origin then some (c.digest, c) else s.dag.entry r n := by
  unfold State.insert Dag.entry
  rw [ExtTreeMap.getElem?_insert]
  by_cases hr : r = c.round
  · subst hr
    simp only [compare_self, if_true, Option.bind_some, true_and]
    rw [ExtTreeMap.getElem?_insert]
    by_cases hn : n = c.origin
    · simp [hn]
    · rcases s.dag[c.round]? with _ | layer <;> simp [hn, Ne.symm hn]
  · simp [hr, Ne.symm hr]

theorem State.insert_noEmptyLayer (h : s.dag.NoEmptyLayer) : (s.insert c).dag.NoEmptyLayer := by
  intro r layer hl
  unfold State.insert at hl
  rw [ExtTreeMap.getElem?_insert] at hl
  split at hl
  · cases hl
    exact ExtTreeMap.insert_ne_empty
  · exact h r layer hl

/-! ## The genesis -/

theorem genesis_layer (committee : Committee) (n : PublicKey) :
    (ExtTreeMap.ofList ((Certificate.genesis committee).map fun x => (x.origin, x.digest, x)) :
      Layer)[n]? = if n ∈ committee.authorities
        then some ((Certificate.genesis_of n).digest, Certificate.genesis_of n) else none := by
  split
  · rename_i hn
    apply ExtTreeMap.getElem?_ofList_of_mem (k := n) compare_self
    · rw [List.pairwise_map]
      unfold Certificate.genesis
      rw [List.pairwise_map]
      apply Committee.keys_nodup.imp
      intro a b hab
      simpa [Certificate.origin, Certificate.genesis_of] using hab
    · rw [List.mem_map]
      exact ⟨_, Certificate.mem_genesis.mpr ⟨n, hn, rfl⟩, rfl⟩
  · rename_i hn
    apply ExtTreeMap.getElem?_ofList_of_contains_eq_false
    rw [List.map_map, ← Bool.not_eq_true, List.contains_iff_mem, List.mem_map]
    rintro ⟨x, hx, rfl⟩
    obtain ⟨name, hname, rfl⟩ := Certificate.mem_genesis.mp hx
    exact hn hname

variable {committee : Committee}

theorem State.new_dag_entry (r : ℕ) (n : PublicKey) :
    (State.new (Certificate.genesis committee)).dag.entry r n =
      if r = 0 ∧ n ∈ committee.authorities
      then some ((Certificate.genesis_of n).digest, Certificate.genesis_of n) else none := by
  unfold State.new Dag.entry
  rw [ExtTreeMap.getElem?_insert]
  by_cases hr : r = 0
  · subst hr
    simp [genesis_layer]
  · simp [hr, Ne.symm hr]

theorem State.new_last_committed (n : PublicKey) :
    (State.new (Certificate.genesis committee)).last_committed[n]? =
      if n ∈ committee.authorities then some 0 else none := by
  unfold State.new
  rw [ExtTreeMap.getElem?_map, genesis_layer]
  split <;> rfl

/-! ## The invariant -/

/-- Every certificate of the dag is filed under its digest, its round and its author. -/
def Dag.Filed (dag : Dag) : Prop :=
  ∀ r n d c, dag.entry r n = some (d, c) → d = c.digest ∧ c.round = r ∧ c.origin = n

structure Wf (gc_depth : ℕ) (s : State) : Prop where
  /-- An entry is filed under its digest, its round and its author. -/
  filed : ∀ r n d c, s.dag.entry r n = some (d, c) → d = c.digest ∧ c.round = r ∧ c.origin = n
  /-- A certificate of round 0 has no parents. -/
  grounded : ∀ r n d c, s.dag.entry r n = some (d, c) → c.round = 0 → c.header.parents = ∅
  /-- No sum of the garbage collector wraps. -/
  fits : ∀ r n x, s.dag.entry r n = some x → r + gc_depth < 2 ^ 64
  no_empty_layer : s.dag.NoEmptyLayer
  latest : s.Latest

theorem Wf.filed_dag (h : Wf gc_depth s) : s.dag.Filed := h.filed

theorem wf_new (hfits : gc_depth < 2 ^ 64) :
    Wf gc_depth (State.new (Certificate.genesis committee)) where
  filed := by
    intro r n d c h
    rw [State.new_dag_entry] at h
    split at h
    · rename_i hc
      cases h
      exact ⟨rfl, hc.1.symm, rfl⟩
    · cases h
  grounded := by
    intro r n d c h _
    rw [State.new_dag_entry] at h
    split at h
    · cases h
      rfl
    · cases h
  fits := by
    intro r n x h
    rw [State.new_dag_entry] at h
    split at h
    · rename_i hc
      rw [hc.1, Nat.zero_add]
      exact hfits
    · cases h
  no_empty_layer := by
    intro r layer h he
    obtain ⟨n, hn⟩ := List.exists_mem_of_length_pos committee.length_keys_pos
    rw [Committee.mem_keys] at hn
    have h0 : (State.new (Certificate.genesis committee)).dag.entry 0 n = _ :=
      (State.new_dag_entry 0 n).trans (if_pos ⟨rfl, hn⟩)
    have hr : r = 0 := by
      by_contra hr
      unfold State.new at h
      rw [ExtTreeMap.getElem?_insert, if_neg (by simpa using Ne.symm hr)] at h
      simp at h
    subst hr
    rw [Dag.entry_of_layer h, he] at h0
    simp at h0
  latest := by
    unfold State.Latest
    symm
    apply Nat.le_zero.mp
    rw [max_round_le]
    intro n r hr
    rw [State.new_last_committed] at hr
    split at hr
    · cases hr
      exact Nat.le_refl 0
    · cases hr

theorem Wf.insert (h : Wf gc_depth s) (hc : c.round = 0 → c.header.parents = ∅)
    (hfits : c.round + gc_depth < 2 ^ 64) : Wf gc_depth (s.insert c) where
  filed := by
    intro r n d x hx
    rw [State.insert_dag_entry] at hx
    split at hx
    · rename_i heq
      cases hx
      exact ⟨rfl, heq.1.symm, heq.2.symm⟩
    · exact h.filed r n d x hx
  grounded := by
    intro r n d x hx
    rw [State.insert_dag_entry] at hx
    split at hx
    · cases hx
      exact hc
    · exact h.grounded r n d x hx
  fits := by
    intro r n x hx
    rw [State.insert_dag_entry] at hx
    split at hx
    · rename_i heq
      rw [heq.1]
      exact hfits
    · exact h.fits r n x hx
  no_empty_layer := State.insert_noEmptyLayer h.no_empty_layer
  latest := h.latest

theorem Wf.after {block : List Certificate} (h : Wf gc_depth s) :
    Wf gc_depth (s.after block gc_depth) where
  filed := fun r n d c hc => h.filed r n d c (State.entry_of_after hc)
  grounded := fun r n d c hc => h.grounded r n d c (State.entry_of_after hc)
  fits := fun r n x hx => h.fits r n x (State.entry_of_after hx)
  no_empty_layer := by
    by_cases hb : block = []
    · subst hb
      exact h.no_empty_layer
    · exact State.after_noEmptyLayer hb
  latest := State.after_latest h.latest

/-- No update drops an entry of a round from the last committed round on. -/
theorem Wf.after_entry_of_le {block : List Certificate} (h : Wf gc_depth s) {r : ℕ}
    (hr : (s.after block gc_depth).last_committed_round ≤ r) (n : PublicKey) :
    (s.after block gc_depth).dag.entry r n = s.dag.entry r n := by
  by_cases hb : block = []
  · subst hb
    rfl
  · rcases hx : s.dag.entry r n with _ | x
    · rw [State.after_dag_entry hb, hx, ite_self]
    · have hlatest : (s.after block gc_depth).Latest := State.after_latest h.latest
      have := hlatest.le n
      rw [State.after_dag_entry hb, if_pos, hx]
      rw [wrapping_add_of_lt (h.fits r n x hx)]
      omega

end

end sailfish.consensus
