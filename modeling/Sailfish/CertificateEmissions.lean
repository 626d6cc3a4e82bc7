-- The law of the certificates aggregator: it gives out a quorum of first certificates, and
-- then each certificate of a new origin alone. The weight is never reset and what is given
-- out leaves the buffer, so the two are kept together with the past outputs.
import Mathlib
import Sailfish.ProposedHeaders

open Std sailfish.crypto sailfish.config

namespace sailfish.primary

/-- The first certificate of each origin, in the order that they arrive. -/
def firsts (certificates : List Certificate) : List Certificate :=
  certificates.foldl (fun l c => if ∃ x ∈ l, x.origin = c.origin then l else l ++ [c]) []

variable {committee : Committee} {certificates given : List Certificate} {c : Certificate}

theorem firsts_concat : firsts (certificates ++ [c]) =
    if c.origin ∈ (firsts certificates).map (·.origin) then firsts certificates
    else firsts certificates ++ [c] := by
  unfold firsts
  rw [List.foldl_append]
  exact if_congr List.mem_map.symm rfl rfl

theorem mem_origins_firsts {n : PublicKey} :
    n ∈ (firsts certificates).map (·.origin) ↔ n ∈ certificates.map (·.origin) := by
  induction certificates using List.reverseRecOn with
  | nil => rfl
  | append_singleton certificates c ih =>
    rw [firsts_concat, List.map_append, List.mem_append, ← ih]
    split
    · rename_i hold
      constructor
      · exact Or.inl
      · rintro (hn | hn)
        · exact hn
        · rw [List.mem_singleton.mp hn]
          exact hold
    · rw [List.map_append, List.mem_append]

theorem firsts_of_known (h : c.origin ∈ certificates.map (·.origin)) :
    firsts (certificates ++ [c]) = firsts certificates := by
  rw [firsts_concat, if_pos (mem_origins_firsts.mpr h)]

theorem firsts_of_new (h : c.origin ∉ certificates.map (·.origin)) :
    firsts (certificates ++ [c]) = firsts certificates ++ [c] := by
  rw [firsts_concat, if_neg (mt mem_origins_firsts.mp h)]

theorem firsts_nodup : ((firsts certificates).map (·.origin)).Nodup := by
  induction certificates using List.reverseRecOn with
  | nil => exact List.nodup_nil
  | append_singleton certificates c ih =>
    rw [firsts_concat]
    split
    · exact ih
    · rename_i hnew
      rw [List.map_append, List.nodup_append]
      refine ⟨ih, List.nodup_singleton _, ?_⟩
      rintro n hn m hm rfl
      rw [List.mem_singleton.mp hm] at hn
      exact hnew hn

namespace CertificatesAggregator

/-- The aggregator once it has seen some certificates. -/
def after (committee : Committee) (certificates : List Certificate) : CertificatesAggregator :=
  certificates.foldl (fun a c => (a.append c committee).2) .new

theorem after_concat : after committee (certificates ++ [c]) =
    ((after committee certificates).append c committee).2 := by
  unfold after
  rw [List.foldl_append]
  rfl

theorem outputs_concat {a : CertificatesAggregator} :
    outputs committee (certificates ++ [c]) a = outputs committee certificates a ++
      ((certificates.foldl (fun a c => (a.append c committee).2) a).append c
        committee).1.toList := by
  induction certificates generalizing a with
  | nil => simp [outputs]
  | cons x certificates ih =>
    have hcons : ∀ l, outputs committee (x :: l) a =
        (a.append x committee).1.toList ++ outputs committee l (a.append x committee).2 :=
      fun _ => rfl
    rw [List.cons_append, hcons, hcons, ih, List.append_assoc]
    rfl

/-- What an aggregator has, once it has seen some certificates and given out some of them: all is in
the buffer before the quorum, and nothing after it. -/
structure Buffers (committee : Committee) (certificates given : List Certificate)
    (a : CertificatesAggregator) : Prop where
  knows : Knows committee given a
  firsts : given ++ a.certificates = firsts certificates
  before : stakes committee (primary.firsts certificates) < committee.quorum_threshold → given = []
  since : committee.quorum_threshold ≤ stakes committee (primary.firsts certificates) →
    a.certificates = []

variable {a : CertificatesAggregator}

theorem buffers_new : Buffers committee [] [] .new where
  knows := knows_new
  firsts := rfl
  before := fun _ => rfl
  since := fun _ => rfl

/-- What is given out for a certificate, by the certificates before it: nothing for an origin that
was there before or while the origins are no quorum, the first certificates of all origins once they
are one, and then the certificate alone. -/
def output (committee : Committee) (certificates : List Certificate) (c : Certificate) :
    Option (List Certificate) :=
  if ∃ x ∈ certificates, x.origin = c.origin then none
  else if stakes committee (primary.firsts (certificates ++ [c])) < committee.quorum_threshold then
    none
  else if stakes committee (primary.firsts certificates) < committee.quorum_threshold then
    some (primary.firsts (certificates ++ [c]))
  else some [c]

theorem Buffers.mem_used (ha : Buffers committee certificates given a) {n : PublicKey} :
    n ∈ a.used ↔ n ∈ certificates.map (·.origin) := by
  rw [ha.knows.used, ha.firsts, mem_origins_firsts]

theorem Buffers.weight_eq (h : committee.Fits) (ha : Buffers committee certificates given a)
    (hnew : c.origin ∉ certificates.map (·.origin)) :
    u32 (a.weight + committee.stake c.origin) =
      stakes committee (primary.firsts (certificates ++ [c])) := by
  have hsum : a.weight + committee.stake c.origin =
      stakes committee (primary.firsts (certificates ++ [c])) := by
    rw [firsts_of_new hnew, stakes_append, ← ha.firsts, ← ha.knows.weight]
    simp [stakes]
  rw [hsum, u32_of_lt (stakes_lt h firsts_nodup)]

/-- The certificate goes to the end of the buffer, whether or not it is given out from there. -/
theorem Buffers.buffer_eq (ha : Buffers committee certificates given a)
    (hnew : c.origin ∉ certificates.map (·.origin)) :
    given ++ (a.certificates ++ [c]) = primary.firsts (certificates ++ [c]) := by
  rw [← List.append_assoc, ha.firsts, firsts_of_new hnew]

/-- A certificate of an origin that was there before changes nothing. -/
theorem Buffers.append_known (ha : Buffers committee certificates given a)
    (hold : c.origin ∈ certificates.map (·.origin)) :
    (a.append c committee).1 = output committee certificates c ∧
      Buffers committee (certificates ++ [c])
        (given ++ (output committee certificates c).toList.flatten) (a.append c committee).2 := by
  have happend : a.append c committee = (none, a) := by
    simp [CertificatesAggregator.append, ha.mem_used.mpr hold]
  have houtput : output committee certificates c = none := if_pos (List.mem_map.mp hold)
  have hfirsts := firsts_of_known hold
  rw [happend, houtput]
  refine ⟨rfl, ?_⟩
  rw [Option.toList_none, List.flatten_nil, List.append_nil]
  exact ⟨ha.knows, by rw [ha.firsts, hfirsts], by rw [hfirsts]; exact ha.before,
    by rw [hfirsts]; exact ha.since⟩

/-- A certificate before the quorum stays in the buffer. -/
theorem Buffers.append_before (h : committee.Fits) (ha : Buffers committee certificates given a)
    (hnew : c.origin ∉ certificates.map (·.origin))
    (hlt : stakes committee (primary.firsts (certificates ++ [c])) < committee.quorum_threshold) :
    (a.append c committee).1 = output committee certificates c ∧
      Buffers committee (certificates ++ [c])
        (given ++ (output committee certificates c).toList.flatten) (a.append c committee).2 := by
  have houtput : output committee certificates c = none := by
    unfold output
    rw [if_neg (mt List.mem_map.mpr hnew), if_pos hlt]
  have hgiven : given = [] := by
    apply ha.before
    rw [firsts_of_new hnew, stakes_append] at hlt
    omega
  have happend : a.append c committee = (none, { a with
      weight := stakes committee (primary.firsts (certificates ++ [c]))
      certificates := a.certificates ++ [c]
      used := a.used.insert c.origin }) := by
    simp [CertificatesAggregator.append, mt ha.mem_used.mp hnew, ha.weight_eq h hnew,
      Nat.not_le_of_lt hlt]
  have hknows := (append_spec h ha.knows happend).1
  rw [houtput, happend]
  rw [Option.toList_none, List.flatten_nil, List.append_nil] at hknows ⊢
  exact ⟨rfl, hknows, ha.buffer_eq hnew, fun _ => hgiven,
    fun hle => absurd hlt (Nat.not_lt_of_le hle)⟩

/-- A certificate that reaches the quorum, or comes after it, empties the buffer. -/
theorem Buffers.append_since (h : committee.Fits) (ha : Buffers committee certificates given a)
    (hnew : c.origin ∉ certificates.map (·.origin))
    (hle : committee.quorum_threshold ≤ stakes committee (primary.firsts (certificates ++ [c]))) :
    (a.append c committee).1 = output committee certificates c ∧
      Buffers committee (certificates ++ [c])
        (given ++ (output committee certificates c).toList.flatten) (a.append c committee).2 := by
  have hout : a.certificates ++ [c] = if stakes committee (primary.firsts certificates) <
      committee.quorum_threshold then primary.firsts (certificates ++ [c]) else [c] := by
    split
    · -- the first output
      rename_i hfirst
      rw [← ha.buffer_eq hnew, ha.before hfirst, List.nil_append]
    · -- an extra certificate
      rename_i hlater
      rw [ha.since (Nat.le_of_not_lt hlater), List.nil_append]
  have houtput : output committee certificates c = some (a.certificates ++ [c]) := by
    unfold output
    rw [if_neg (mt List.mem_map.mpr hnew), if_neg (Nat.not_lt_of_le hle), hout]
    split <;> rfl
  have happend : a.append c committee = (some (a.certificates ++ [c]), { a with
      weight := stakes committee (primary.firsts (certificates ++ [c]))
      certificates := []
      used := a.used.insert c.origin }) := by
    simp [CertificatesAggregator.append, mt ha.mem_used.mp hnew, ha.weight_eq h hnew, hle]
  have hknows := (append_spec h ha.knows happend).1
  rw [houtput, happend]
  refine ⟨rfl, ?_⟩
  simp only [Option.toList_some, List.flatten_cons, List.flatten_nil, List.append_nil]
    at hknows ⊢
  exact ⟨hknows, by rw [List.append_nil, ha.buffer_eq hnew],
    fun hlt => absurd hlt (Nat.not_lt_of_le hle), fun _ => rfl⟩

/-- One certificate: the output, and what the aggregator has after it. -/
theorem Buffers.append (h : committee.Fits) (ha : Buffers committee certificates given a) :
    (a.append c committee).1 = output committee certificates c ∧
      Buffers committee (certificates ++ [c])
        (given ++ (output committee certificates c).toList.flatten) (a.append c committee).2 := by
  by_cases hold : c.origin ∈ certificates.map (·.origin)
  · exact ha.append_known hold
  · rcases Nat.lt_or_ge (stakes committee (primary.firsts (certificates ++ [c])))
      committee.quorum_threshold with hlt | hle
    · exact ha.append_before h hold hlt
    · exact ha.append_since h hold hle

theorem buffers_after (h : committee.Fits) (certificates : List Certificate) :
    Buffers committee certificates (outputs committee certificates .new).flatten
      (after committee certificates) := by
  induction certificates using List.reverseRecOn with
  | nil => exact buffers_new
  | append_singleton certificates c ih =>
    obtain ⟨houtput, hbuffers⟩ := ih.append (c := c) h
    rw [outputs_concat, after_concat, List.flatten_append]
    change Buffers _ _
      (_ ++ (((after committee certificates).append c committee).1.toList).flatten) _
    rw [houtput]
    exact hbuffers

/-- For every committee whose doubled stake fits and every sequence of certificates, whatever their
repeats: the aggregator gives out a quorum first and then every extra once. All that it has given
out, from the quorum on, are the first certificates of all origins in the order that they came. -/
theorem quorum_first_then_extras (committee : Committee) (h : committee.Fits)
    (certificates : List Certificate) :
    (∀ c, ((after committee certificates).append c committee).1 =
      output committee certificates c) ∧
    (outputs committee certificates .new).flatten =
      if stakes committee (primary.firsts certificates) < committee.quorum_threshold then []
      else primary.firsts certificates := by
  have hbuffers := buffers_after h certificates
  refine ⟨fun c => (hbuffers.append h).1, ?_⟩
  split
  · rename_i hlt
    exact hbuffers.before hlt
  · rename_i hle
    rw [← hbuffers.firsts, hbuffers.since (Nat.le_of_not_lt hle), List.append_nil]

/-- Authority 2 comes twice, and authority 4 after the quorum. -/
def repeated : List Certificate := [1, 2, 2, 3, 4].map Certificate.genesis_of

theorem quorum_first_then_extras_repeated :
    (outputs .four repeated .new).flatten = [1, 2, 3, 4].map Certificate.genesis_of ∧
      ((after .four (repeated.take 3)).append (.genesis_of 3) .four).1 =
        some ([1, 2, 3].map Certificate.genesis_of) ∧
      ((after .four (repeated.take 4)).append (.genesis_of 4) .four).1 =
        some [Certificate.genesis_of 4] :=
  ⟨((quorum_first_then_extras .four (by decide +kernel) repeated).2).trans (by decide +kernel),
    ((quorum_first_then_extras .four (by decide +kernel) (repeated.take 3)).1 _).trans
      (by decide +kernel),
    ((quorum_first_then_extras .four (by decide +kernel) (repeated.take 4)).1 _).trans
      (by decide +kernel)⟩

end CertificatesAggregator

end sailfish.primary
