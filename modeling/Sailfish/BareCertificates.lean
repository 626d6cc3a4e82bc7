-- The law of bare certificates: the consensus looks at the id of the header of a
-- certificate, its round, its author and its parents only. Certificates that agree on
-- these lead to the same commits.
import Mathlib
import Sailfish.HeaderVotes

open Std sailfish.crypto sailfish.config sailfish.primary

namespace sailfish.primary

/-- The fields of a header that the consensus looks at, the others as in the genesis. -/
def Header.bare (header : Header) : Header :=
  { Header.default with
    author := header.author, round := header.round, parents := header.parents, id := header.id }

namespace Certificate

/-- A certificate without its votes, with the fields of its header that the consensus looks at. -/
def bare (c : Certificate) : Certificate where
  header := c.header.bare
  votes := []

@[simp] theorem bare_parents (c : Certificate) : c.bare.header.parents = c.header.parents := rfl

@[simp] theorem bare_round (c : Certificate) : c.bare.round = c.round := rfl

@[simp] theorem bare_origin (c : Certificate) : c.bare.origin = c.origin := rfl

@[simp] theorem bare_digest [Crypto] (c : Certificate) : c.bare.digest = c.digest := rfl

theorem bare_eq (a b : Certificate) : a.bare.eq b.bare = a.eq b := rfl

end Certificate

end sailfish.primary

namespace sailfish.consensus

/-! ## The bare state -/

def Event.bare : Event → Event
  | .header h => .header h.bare
  | .certificate c => .certificate c.bare

/-- An entry of the dag, with a bare certificate. -/
def entry_bare (x : Digest × Certificate) : Digest × Certificate := (x.1, x.2.bare)

def Layer.bare (layer : Layer) : Layer := ExtTreeMap.map (fun _ => entry_bare) layer

def Dag.bare (dag : Dag) : Dag := ExtTreeMap.map (fun _ => Layer.bare) dag

def State.bare (s : State) : State := { s with dag := s.dag.bare }

def Commit.bare (k : Commit) : Commit where
  leader := k.leader.bare
  before := k.before.bare
  block := k.block.map .bare

def Consensus.bare (c : Consensus) : Consensus :=
  { c with state := c.state.bare, commits := c.commits.map .bare }

section

variable {layer : Layer} {dag : Dag} {s : State}

theorem Layer.getElem?_bare (n : PublicKey) :
    (layer.bare)[n]? = (layer[n]?).map entry_bare := ExtTreeMap.getElem?_map

theorem Dag.getElem?_bare (r : ℕ) :
    (dag.bare)[r]? = (dag[r]?).map Layer.bare := ExtTreeMap.getElem?_map

theorem Layer.values_bare : layer.bare.values = layer.values.map entry_bare := by
  unfold Layer.values Layer.bare
  rw [ExtTreeMap.toList_map, List.map_map, List.map_map]
  rfl

theorem Layer.isEmpty_bare : layer.bare.isEmpty = layer.isEmpty := by
  rw [Bool.eq_iff_iff, ExtTreeMap.isEmpty_iff, ExtTreeMap.isEmpty_iff]
  exact ExtTreeMap.map_eq_empty_iff

theorem Dag.length_entries_bare : dag.bare.entries.length = dag.entries.length := by
  unfold Dag.entries Dag.bare
  rw [ExtTreeMap.toList_map, List.flatMap_map, List.length_flatMap, List.length_flatMap]
  congr 1
  refine List.map_congr_left fun x _ => ?_
  dsimp only
  rw [Layer.values_bare, List.length_map]

/-! ## The leaders -/

theorem leader_bare (committee : Committee) (r : ℕ) :
    leader committee r dag.bare = (leader committee r dag).map entry_bare := by
  unfold leader
  rw [Dag.getElem?_bare]
  rcases dag[r]? with _ | layer
  · rfl
  · exact Layer.getElem?_bare _

theorem Layer.parents_of_bare (parents : List Certificate) :
    layer.bare.parents_of (parents.map .bare) = (layer.parents_of parents).map .bare := by
  unfold Layer.parents_of
  rw [Layer.values_bare, List.filter_map, List.map_map, List.map_map]
  congr 1
  refine List.filter_congr fun x _ => ?_
  change (parents.map Certificate.bare).any (fun y => decide (x.1 ∈ y.header.parents)) = _
  rw [List.any_map]
  rfl

theorem Dag.parents_at_bare (parents : List Certificate) (r : ℕ) :
    dag.bare.parents_at (parents.map .bare) r = (dag.parents_at parents r).map (List.map .bare) := by
  unfold Dag.parents_at
  rw [Dag.getElem?_bare]
  rcases dag[r]? with _ | layer
  · rfl
  · exact congrArg some (Layer.parents_of_bare parents)

theorem foldlM_parents_at_bare (dag : Dag) (rounds : List ℕ) (parents : List Certificate) :
    rounds.foldlM dag.bare.parents_at (parents.map .bare) =
      (rounds.foldlM dag.parents_at parents).map (List.map .bare) := by
  induction rounds generalizing parents with
  | nil => rfl
  | cons r rounds ih =>
    rw [List.foldlM_cons, List.foldlM_cons, Dag.parents_at_bare]
    rcases dag.parents_at parents r with _ | parents
    · rfl
    · exact ih parents

theorem linked_bare (a b : Certificate) :
    linked a.bare b.bare dag.bare = linked a b dag := by
  have hparents := foldlM_parents_at_bare dag
    (List.range' b.round (a.round - b.round)).reverse [a]
  rw [List.map_singleton] at hparents
  unfold linked
  dsimp only
  rw [Certificate.bare_round, Certificate.bare_round, hparents]
  rcases (List.range' b.round (a.round - b.round)).reverse.foldlM dag.parents_at [a] with _ | parents
  · rfl
  · refine congrArg some ?_
    rw [List.any_map]
    exact congrArg parents.any (funext fun x => Certificate.bare_eq b x)

theorem order_leaders_loop_bare (dag : Dag) (committee : Committee) (a : Certificate)
    (rounds : List ℕ) : order_leaders_loop committee dag.bare a.bare rounds =
      (order_leaders_loop committee dag a rounds).map (List.map .bare) := by
  induction rounds generalizing a with
  | nil => rfl
  | cons r rounds ih =>
    unfold order_leaders_loop
    rw [leader_bare]
    rcases leader committee r dag with _ | ⟨d, b⟩
    · exact ih a
    · dsimp only [Option.map_some, entry_bare]
      rw [linked_bare, ih a, ih b]
      rcases linked a b dag with _ | _ | _
      · rfl
      · rfl
      · rcases order_leaders_loop committee dag b rounds with _ | leaders <;> rfl

theorem order_leaders_bare (committee : Committee) (a : Certificate) :
    order_leaders committee a.bare s.bare = (order_leaders committee a s).map (List.map .bare) := by
  have hloop := order_leaders_loop_bare s.dag committee a
    (List.range' (s.last_committed_round + 1)
      (wrapping_pred a.round - s.last_committed_round)).reverse
  unfold order_leaders
  rw [Certificate.bare_round]
  change (order_leaders_loop committee s.dag.bare a.bare
    (List.range' (s.last_committed_round + 1)
      (wrapping_pred a.round - s.last_committed_round)).reverse).bind _ =
    Option.map _ ((order_leaders_loop committee s.dag a _).bind _)
  rw [hloop]
  rcases order_leaders_loop committee s.dag a _ with _ | leaders <;> rfl

/-! ## The blocks -/

theorem State.lookup_bare (round : ℕ) (parent : Digest) :
    s.bare.lookup round parent = (s.lookup round parent).map entry_bare := by
  unfold State.lookup
  change ((s.dag.bare)[wrapping_pred round]?).bind _ =
    Option.map _ ((s.dag[wrapping_pred round]?).bind _)
  rw [Dag.getElem?_bare]
  rcases s.dag[wrapping_pred round]? with _ | layer
  · rfl
  · have hfind : (layer.bare.values.find? fun x => x.1 == parent) =
        (layer.values.find? fun x => x.1 == parent).map entry_bare := by
      rw [Layer.values_bare, List.find?_map]
      rfl
    change (layer.bare.values.find? fun x => x.1 == parent).bind _ =
      Option.map _ ((layer.values.find? fun x => x.1 == parent).bind _)
    rw [hfind]
    generalize (layer.values.find? fun x => x.1 == parent) = found
    rcases found with _ | ⟨digest, c⟩
    · rfl
    · dsimp only [Option.map_some, Option.bind_some, entry_bare]
      rw [Certificate.bare_origin, Certificate.bare_round]
      change (if s.last_committed[c.origin]? = some c.round then none else some (digest, c.bare)) = _
      split <;> rfl

theorem State.next_bare (x : Digest × Certificate) :
    s.bare.next (entry_bare x) = (s.next x).map entry_bare := by
  unfold State.next
  dsimp only [entry_bare]
  rw [Certificate.bare_parents, Certificate.bare_round, List.map_filterMap]
  exact congrArg (List.filterMap · _) (funext fun d => s.lookup_bare x.2.round d)

variable [Crypto]

theorem State.popped_bare (a : Certificate) :
    s.bare.popped a.bare = (s.popped a).map entry_bare := by
  unfold State.popped
  rw [Certificate.bare_digest, show s.bare.dag.entries.length = s.dag.entries.length from
    Dag.length_entries_bare]
  change traversal.walk _ Prod.fst _ ([(a.digest, a)].map entry_bare) [] = _
  exact traversal.walk_map (fun _ => rfl) (fun x => s.next_bare x) _ _ _

theorem order_dag_bare (a : Certificate) (gc_depth : ℕ) :
    order_dag a.bare gc_depth s.bare = (order_dag a gc_depth s).map .bare := by
  have hmap : (s.bare.popped a.bare).map (·.2) = ((s.popped a).map (·.2)).map .bare := by
    rw [State.popped_bare, List.map_map, List.map_map]
    rfl
  unfold order_dag
  dsimp only
  rw [hmap, List.filter_map, show s.bare.last_committed_round = s.last_committed_round from
    rfl]
  exact (List.map_insertionSort _ _ Certificate.bare _ fun _ _ _ _ => Iff.rfl).symm

/-! ## The updates and the commits -/

omit [Crypto] in
theorem Layer.filter_bare (keep : PublicKey → Bool) :
    layer.bare.filter (fun n _ => keep n) = Layer.bare (layer.filter fun n _ => keep n) := by
  apply ExtTreeMap.ext_getElem?
  intro n
  rw [Layer.getElem?_bare, ExtTreeMap.getElem?_filter', ExtTreeMap.getElem?_filter',
    Layer.getElem?_bare]
  rcases layer[n]? with _ | x
  · rfl
  · dsimp only [Option.map_some]
    cases keep n <;> rfl

omit [Crypto] in
theorem Dag.retain_bare (name : PublicKey) (round gc_depth lcr : ℕ) :
    dag.bare.retain name round gc_depth lcr =
      (dag.retain name round gc_depth lcr).bare := by
  apply ExtTreeMap.ext_getElem?
  intro r
  unfold Dag.retain
  rw [Dag.getElem?_bare, ExtTreeMap.getElem?_filterMap', ExtTreeMap.getElem?_filterMap',
    Dag.getElem?_bare]
  rcases dag[r]? with _ | layer
  · rfl
  · dsimp only [Option.map_some, Option.bind_some]
    rw [Layer.filter_bare, Layer.isEmpty_bare]
    split <;> rfl

omit [Crypto] in
theorem State.update_bare (c : Certificate) (gc_depth : ℕ) :
    s.bare.update c.bare gc_depth = (s.update c gc_depth).bare := by
  have hfold : ∀ (l : List (PublicKey × ℕ)) (lcr : ℕ) (dag : Dag),
      l.foldl (fun dag x => Dag.retain dag x.1 x.2 gc_depth lcr) dag.bare =
        (l.foldl (fun dag x => Dag.retain dag x.1 x.2 gc_depth lcr) dag).bare := by
    intro l lcr
    induction l with
    | nil => exact fun _ => rfl
    | cons x l ih =>
      intro dag
      rw [List.foldl_cons, List.foldl_cons, ← ih, ← Dag.retain_bare]
  unfold State.update
  dsimp only [State.bare]
  rw [Certificate.bare_origin, Certificate.bare_round, hfold]

omit [Crypto] in
theorem State.after_bare (block : List Certificate) (gc_depth : ℕ) :
    s.bare.after (block.map .bare) gc_depth = (s.after block gc_depth).bare := by
  induction block generalizing s with
  | nil => rfl
  | cons c block ih =>
    rw [List.map_cons, State.after_cons, State.update_bare]
    exact ih

theorem sequence_bare (gc_depth : ℕ) (leaders : List Certificate) :
    sequence gc_depth (leaders.map .bare) s.bare =
      ((sequence gc_depth leaders s).1.bare,
        (sequence gc_depth leaders s).2.map .bare) := by
  induction leaders generalizing s with
  | nil => rfl
  | cons leader leaders ih =>
    rw [List.map_cons, sequence_cons, sequence_cons, order_dag_bare, State.after_bare, ih]
    rfl

theorem commit_bare (committee : Committee) (gc_depth : ℕ) (a : Certificate) :
    commit committee gc_depth a.bare s.bare =
      (commit committee gc_depth a s).map (Prod.map .bare (List.map .bare)) := by
  unfold commit
  rw [order_leaders_bare]
  rcases order_leaders committee a s with _ | leaders
  · rfl
  · change some (sequence gc_depth (leaders.map .bare).reverse s.bare) = _
    rw [← List.map_reverse, sequence_bare]
    rfl

/-! ## The deliveries -/

omit [Crypto] in
theorem Layer.insert_bare (n : PublicKey) (x : Digest × Certificate) :
    layer.bare.insert n (entry_bare x) = Layer.bare (layer.insert n x) := by
  apply ExtTreeMap.ext_getElem?
  intro m
  rw [Layer.getElem?_bare, ExtTreeMap.getElem?_insert, ExtTreeMap.getElem?_insert,
    Layer.getElem?_bare]
  split <;> rfl

omit [Crypto] in
theorem Dag.insert_bare (r : ℕ) (layer : Layer) :
    dag.bare.insert r layer.bare = Dag.bare (dag.insert r layer) := by
  apply ExtTreeMap.ext_getElem?
  intro m
  rw [Dag.getElem?_bare, ExtTreeMap.getElem?_insert, ExtTreeMap.getElem?_insert,
    Dag.getElem?_bare]
  split <;> rfl

theorem State.insert_bare (c : Certificate) :
    s.bare.insert c.bare = (s.insert c).bare := by
  have hlayer : ((s.dag.bare)[c.round]?).getD ∅ = Layer.bare ((s.dag[c.round]?).getD ∅) := by
    rw [Dag.getElem?_bare]
    rcases s.dag[c.round]? with _ | layer <;> rfl
  unfold State.insert
  dsimp only [State.bare]
  rw [Certificate.bare_round, Certificate.bare_origin, Certificate.bare_digest, hlayer,
    ← Dag.insert_bare, ← Layer.insert_bare]
  rfl

theorem State.new_bare (committee : Committee) :
    (State.new (Certificate.genesis committee)).bare = State.new (Certificate.genesis committee) := by
  have hlayer : Layer.bare (ExtTreeMap.ofList
      ((Certificate.genesis committee).map fun x => (x.origin, x.digest, x))) =
      ExtTreeMap.ofList ((Certificate.genesis committee).map fun x => (x.origin, x.digest, x)) := by
    apply ExtTreeMap.ext_getElem?
    intro n
    rw [Layer.getElem?_bare, genesis_layer]
    split <;> rfl
  have hdag : Dag.bare ((∅ : Dag).insert 0 (ExtTreeMap.ofList
      ((Certificate.genesis committee).map fun x => (x.origin, x.digest, x)))) =
      (∅ : Dag).insert 0 (ExtTreeMap.ofList
        ((Certificate.genesis committee).map fun x => (x.origin, x.digest, x))) := by
    rw [← Dag.insert_bare, hlayer]
    rfl
  unfold State.bare State.new
  dsimp only
  rw [hdag]

namespace Consensus

variable {committee : Committee} {gc_depth : ℕ} {c : Consensus}

theorem commit_leader_bare (a : Certificate) :
    commit_leader committee gc_depth a.bare c.bare =
      (commit_leader committee gc_depth a c).map bare := by
  unfold commit_leader
  change (commit committee gc_depth a.bare c.state.bare).bind _ =
    Option.map _ ((commit committee gc_depth a c.state).bind _)
  rw [commit_bare]
  rcases commit committee gc_depth a c.state with _ | ⟨state, commits⟩
  · rfl
  · simp [bare]

omit [Crypto] in
theorem support_bare (layer : Layer) (d : Digest) :
    support committee layer.bare d = support committee layer d := by
  unfold support
  rw [Layer.values_bare, List.filter_map, List.map_map]
  rfl

omit [Crypto] in
theorem count_vote_bare (header : Header) (d : Digest) :
    c.bare.count_vote committee header d = (c.count_vote committee header d).bare := by
  unfold count_vote
  split <;> rfl

theorem on_header_bare (header : Header) :
    on_header committee gc_depth header c.bare =
      (on_header committee gc_depth header c).map bare := by
  unfold on_header
  dsimp only
  rw [show c.bare.state = c.state.bare from rfl,
    show c.state.bare.last_committed_round = c.state.last_committed_round from rfl,
    show c.state.bare.dag = c.state.dag.bare from rfl, leader_bare]
  split
  · rfl
  · rcases leader committee (wrapping_pred header.round) c.state.dag with _ | ⟨d, leader⟩
    · rfl
    · dsimp only [Option.map_some, entry_bare]
      rw [count_vote_bare, commit_leader_bare]
      change (if ((c.count_vote committee header d).stake_vote[header.round]?).getD 0 ≥
        committee.quorum_threshold then _ else _) = _
      split <;> rfl

theorem on_certificate_bare (certificate : Certificate) :
    on_certificate committee gc_depth certificate.bare c.bare =
      (on_certificate committee gc_depth certificate c).map bare := by
  unfold on_certificate
  dsimp only
  rw [show c.bare.state = c.state.bare from rfl, State.insert_bare, Certificate.bare_round,
    show ((c.state.insert certificate).bare).last_committed_round =
      (c.state.insert certificate).last_committed_round from rfl,
    show ((c.state.insert certificate).bare).dag = (c.state.insert certificate).dag.bare
      from rfl, leader_bare, Dag.getElem?_bare]
  split
  · rfl
  · rcases leader committee (wrapping_pred certificate.round) (c.state.insert certificate).dag
      with _ | ⟨d, leader⟩
    · rfl
    · dsimp only [Option.map_some, entry_bare]
      rcases (c.state.insert certificate).dag[certificate.round]? with _ | layer
      · rfl
      · simp only [Option.map_some, Option.bind_eq_bind, Option.bind_some]
        rw [support_bare]
        split
        · rfl
        · exact commit_leader_bare (c := { c with state := c.state.insert certificate }) leader

theorem step_bare (e : Event) :
    step committee gc_depth c.bare e.bare = (step committee gc_depth c e).map bare := by
  cases e with
  | header header => exact on_header_bare header
  | certificate certificate => exact on_certificate_bare certificate

theorem run_bare (committee : Committee) (gc_depth : ℕ) (events : List Event) :
    run committee gc_depth (events.map .bare) = (run committee gc_depth events).map bare := by
  have hfold : ∀ c : Consensus, (events.map Event.bare).foldlM (step committee gc_depth) c.bare =
      (events.foldlM (step committee gc_depth) c).map bare := by
    induction events with
    | nil => exact fun _ => rfl
    | cons e events ih =>
      intro c
      rw [List.map_cons, List.foldlM_cons, List.foldlM_cons, step_bare]
      rcases step committee gc_depth c e with _ | c
      · rfl
      · exact ih c
  have hspawn : (spawn committee).bare = spawn committee := by
    unfold bare spawn
    rw [State.new_bare]
    rfl
  have hrun := hfold (spawn committee)
  rw [hspawn] at hrun
  exact hrun

end Consensus

/-! ## The votes of the headers -/

section

variable {committee : Committee} {gc_depth : ℕ} {events : List Event}

omit [Crypto] in
theorem certificates_bare : certificates (events.map .bare) = (certificates events).map .bare := by
  induction events with
  | nil => rfl
  | cons e events ih => cases e <;> simp [certificates, Event.bare] at ih ⊢ <;> exact ih

omit [Crypto] in
theorem mem_headers_bare {h : Header} (hm : h ∈ headers (events.map .bare)) :
    ∃ x ∈ headers events, x.bare = h := by
  obtain ⟨e, he, heq⟩ := List.mem_map.mp (mem_headers.mp hm)
  cases e with
  | header x =>
    cases heq
    exact ⟨x, mem_headers.mpr he, rfl⟩
  | certificate c => cases heq

omit [Crypto] in
theorem Consensus.counts_of_bare {c : Consensus} {header : Header}
    (h : c.bare.Counts committee header.bare) : c.Counts committee header := by
  obtain ⟨hround, d, leader, hleader, hd⟩ := h
  refine ⟨hround, ?_⟩
  have hdag : c.bare.state.dag = c.state.dag.bare := rfl
  rw [hdag, leader_bare, Option.map_eq_some_iff] at hleader
  obtain ⟨⟨d', leader'⟩, hleader', heq⟩ := hleader
  cases heq
  exact ⟨_, leader', hleader', hd⟩

omit [Crypto] in
theorem Consensus.leaders_bare (c : Consensus) : c.bare.leaders = c.leaders.map .bare := by
  unfold Consensus.leaders Consensus.bare
  rw [List.map_map, List.map_map]
  rfl

omit [Crypto] in
theorem Consensus.output_bare (c : Consensus) : c.bare.output = c.output.map .bare := by
  unfold Consensus.output Consensus.bare
  rw [List.flatMap_map, List.map_flatMap]
  rfl

/-- A run on bare deliveries is the bare run. -/
theorem Consensus.run_of_bare {c : Consensus}
    (h : Consensus.run committee gc_depth (events.map .bare) = some c) :
    ∃ c', Consensus.run committee gc_depth events = some c' ∧ c'.bare = c := by
  rw [Consensus.run_bare, Option.map_eq_some_iff] at h
  exact h

theorem counted_of_bare {n : PublicKey} {k : ℕ}
    (h : Counted committee gc_depth (events.map .bare) n k) :
    Counted committee gc_depth events n k := by
  obtain ⟨pre, header, post, before, heq, hrun, hcounts, rfl, rfl⟩ := h
  obtain ⟨pre, rest, rfl, rfl, hrest⟩ := List.map_eq_append_iff.mp heq
  obtain ⟨e, post, rfl, he, rfl⟩ := List.map_eq_cons_iff.mp hrest
  cases e with
  | header header =>
    cases he
    obtain ⟨plain, hplain, rfl⟩ := Consensus.run_of_bare hrun
    exact ⟨pre, header, post, plain, rfl, hplain, Consensus.counts_of_bare hcounts, rfl, rfl⟩
  | certificate c => cases he

/-- For any two sequences of deliveries that differ only in the votes, the payloads, the signatures
and the timeout and no-vote certificates: when one leads to a panic so does the other, and when not
they lead to the same leaders and the same sequence, up to these, and to the same counts. -/
theorem votes_make_no_difference (committee : Committee) (gc_depth : ℕ) (events events' : List Event)
    (h : events.map Event.bare = events'.map .bare) :
    (Consensus.run committee gc_depth events = none ↔
        Consensus.run committee gc_depth events' = none) ∧
      ∀ c c', Consensus.run committee gc_depth events = some c →
        Consensus.run committee gc_depth events' = some c' →
        c.leaders.map Certificate.bare = c'.leaders.map .bare ∧
          c.output.map Certificate.bare = c'.output.map .bare ∧ c.state.bare = c'.state.bare ∧
          c.stake_vote = c'.stake_vote := by
  have hrun : (Consensus.run committee gc_depth events).map Consensus.bare =
      (Consensus.run committee gc_depth events').map .bare := by
    rw [← Consensus.run_bare, h, Consensus.run_bare]
  constructor
  · rw [← Option.map_eq_none_iff, hrun, Option.map_eq_none_iff]
  · intro c c' hc hc'
    rw [hc, hc'] at hrun
    have heq : c.bare = c'.bare := Option.some.inj hrun
    refine ⟨?_, ?_, congrArg Consensus.state heq, (congrArg Consensus.stake_vote heq :)⟩
    · rw [← Consensus.leaders_bare, heq, Consensus.leaders_bare]
    · rw [← Consensus.output_bare, heq, Consensus.output_bare]

end

end

section

attribute [local instance] crypto.sample

/-- The delivery, with the votes of other authorities. -/
def Event.with_votes (names : List PublicKey) : Event → Event
  | .header h => .header h
  | .certificate c => .certificate (c.header.certified names)

/-- The consensus of `consensus_of`, with certificates of other votes. -/
def recounted : Consensus :=
  (Consensus.run .four 50 ((deliveries_of [1, 2, 3]).map (.with_votes [2, 3, 4]))).get
    (by decide +kernel)

theorem votes_make_no_difference_recounted : recounted.leaders ≠ [first_of 2] ∧
    ∃ c, Consensus.run .four 50 (deliveries_of [1, 2, 3]) = some c ∧ c.leaders = [first_of 2] ∧
      c.leaders.map Certificate.bare = recounted.leaders.map .bare := by
  have hrun : Consensus.run .four 50 (deliveries_of [1, 2, 3]) = some (consensus_of [1, 2, 3]) := by
    simp [consensus_of]
  refine ⟨by decide +kernel, _, hrun, by decide +kernel, ?_⟩
  exact ((votes_make_no_difference .four 50 (deliveries_of [1, 2, 3])
    ((deliveries_of [1, 2, 3]).map (.with_votes [2, 3, 4])) (by decide +kernel)).2 _ recounted hrun
    (Option.some_get _).symm).1

end

end sailfish.consensus
