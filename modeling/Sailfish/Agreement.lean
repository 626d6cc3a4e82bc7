-- The law of agreement: honest primaries of one committee commit the same leaders, as far as
-- each of them got, unless a leader on the way of a commit skips an anchor.
import Mathlib
import Sailfish.HonestHeaders
import Sailfish.LeaderLogs

open Std splits sailfish.crypto sailfish.config sailfish.consensus

namespace sailfish.primary.System

section

variable [Crypto] {sys : System} {honest : Set PublicKey}
  {events : List (PublicKey × Primary.Event)} {s : PublicKey → Primary} {name : PublicKey}
  {deliveries : List consensus.Event}

/-- What the consensus of a primary takes: a part of what the core sent on each of the two channels,
in order, with no header that is counted for an author and a round that are counted already. -/
structure Fed (sys : System) (s : Primary) (deliveries : List consensus.Event) : Prop where
  headers : headers deliveries <+: headers_sent s.core
  certificates : certificates deliveries <+: certificates_sent s.core
  once : Each (fun pre e => ∀ header before, e = .header header →
    Consensus.run sys.committee sys.gc_depth pre = some before →
    before.Counts sys.committee header →
    ¬ Counted sys.committee sys.gc_depth pre header.author header.round) deliveries

theorem RoundsFit.honest_dag (h : RoundsFit sys honest events s) :
    ∀ x ∈ System.honest_dag honest s, x.round + sys.gc_depth < 2 ^ 64 := by
  rintro _ ⟨c, hc, rfl⟩
  exact (h.certificates c hc).2

theorem HonestRun.received_of_fed (h : HonestRun sys honest events s) (hd : Distinct sys honest s)
    (hname : name ∈ honest) (hfed : Fed sys (s name) deliveries) :
    Received sys.committee (honest_dag honest s) (consensus.certificates (deliveries.map .bare)) := by
  have hreceived := h.received hd hname
  rw [certificates_bare]
  exact hreceived.of_prefix (hfed.certificates.map _)

theorem HonestRun.faithful_of_fed (h : HonestRun sys honest events s) (hd : Distinct sys honest s)
    (hh : DistinctHeaders sys honest s) (hname : name ∈ honest)
    (hfed : Fed sys (s name) deliveries) :
    Faithful sys.committee sys.gc_depth (honest_dag honest s) honest (deliveries.map .bare) where
  once := by
    refine hfed.once.map fun pre e honce header before he hrun hcounts hcounted => ?_
    cases e with
    | header header' =>
      cases he
      obtain ⟨plain, hplain, rfl⟩ := Consensus.run_of_bare hrun
      exact honce header' plain rfl hplain (Consensus.counts_of_bare hcounts)
        (counted_of_bare hcounted)
    | certificate c => cases he
  lists := by
    rintro _ hm hauthor _ ⟨c, hc, rfl⟩ hround horigin
    obtain ⟨header, hheader, rfl⟩ := mem_headers_bare hm
    have hsent := mem_headers_sent.mp (hfed.headers.subset hheader)
    exact (h.lists_of_seen hd hh hname hsent hauthor hc hround horigin :)

/-- The consensus of two honest primaries does not panic, and commits the leaders of one log. -/
theorem HonestRun.leaders_of_fed (h : HonestRun sys honest events s) (hd : Distinct sys honest s)
    (hh : DistinctHeaders sys honest s) (hskip : Unskipped sys.committee (honest_dag honest s))
    {name' : PublicKey} (hname : name ∈ honest) (hname' : name' ∈ honest)
    {deliveries' : List consensus.Event} (hfed : Fed sys (s name) deliveries)
    (hfed' : Fed sys (s name') deliveries') :
    ∃ c c', Consensus.run sys.committee sys.gc_depth deliveries = some c ∧
      Consensus.run sys.committee sys.gc_depth deliveries' = some c' ∧
      (c.bare.leaders <+: c'.bare.leaders ∨ c'.bare.leaders <+: c.bare.leaders) := by
  obtain ⟨b, b', hb, hb', hprefix⟩ := leaders_agree (h.validDag hd) h.fits h.rounds.depth
    h.rounds.honest_dag hskip h.weight
    (h.received_of_fed hd hname hfed) (h.received_of_fed hd hname' hfed')
    (h.faithful_of_fed hd hh hname hfed) (h.faithful_of_fed hd hh hname' hfed')
  obtain ⟨c, hc, rfl⟩ := Consensus.run_of_bare hb
  obtain ⟨c', hc', rfl⟩ := Consensus.run_of_bare hb'
  exact ⟨c, c', hc, hc', hprefix⟩

/-- For every run of the primaries of a committee, in any order of their steps and whatever the
others send: what the consensus of an honest primary takes never makes it panic, and of the leaders
that two of them commit the ones are, up to votes, a prefix of the others. It takes that no leader
on the way of a commit skips an anchor of the honest dag, that no author is counted twice for a
round, and that the digests tell apart what is handed over and signed. -/
theorem honest_primaries_agree (sys : System) (honest : Set PublicKey)
    (events : List (PublicKey × Primary.Event)) (s : PublicKey → Primary)
    (h : HonestRun sys honest events s) (hd : Distinct sys honest s)
    (hh : DistinctHeaders sys honest s) (hskip : Unskipped sys.committee (honest_dag honest s))
    (name name' : PublicKey) (hname : name ∈ honest) (hname' : name' ∈ honest)
    (deliveries deliveries' : List consensus.Event) (hfed : Fed sys (s name) deliveries)
    (hfed' : Fed sys (s name') deliveries') :
    ∃ c c', Consensus.run sys.committee sys.gc_depth deliveries = some c ∧
      Consensus.run sys.committee sys.gc_depth deliveries' = some c' ∧
      (c.leaders.map Certificate.bare <+: c'.leaders.map Certificate.bare ∨
        c'.leaders.map Certificate.bare <+: c.leaders.map Certificate.bare) := by
  obtain ⟨c, c', hc, hc', hprefix⟩ := h.leaders_of_fed hd hh hskip hname hname' hfed hfed'
  rw [Consensus.leaders_bare, Consensus.leaders_bare] at hprefix
  exact ⟨c, c', hc, hc', hprefix⟩

/-! ## Two nodes that take different ways to one leader -/

/-- What `DistinctHeaders` takes, for the names of a list. -/
def distinct_headers (names : List PublicKey) (s : PublicKey → Primary) : Bool :=
  let seen := names.flatMap (fun name => headers_sent (s name).core) ++
    (handed names s).map Certificate.header
  (names.all fun name => seen.all fun header => ((s name).signed_bytes name).all fun bytes =>
      Crypto.sha512 bytes != header.digest || bytes == header.bytes) &&
    (names.all fun name => seen.all fun header => (s name).proposer.made.all fun m =>
      m.header.digest != header.digest || m.header == header) &&
    names.all fun name => (s name).core.voted.all fun v => !names.contains v.vote.id

theorem distinctHeaders_of_checked {names : List PublicKey} (h : distinct_headers names s = true) :
    DistinctHeaders sys {a | a ∈ names} s := by
  have hseen : ∀ {header}, Seen {a | a ∈ names} s header →
      header ∈ names.flatMap (fun name => headers_sent (s name).core) ++
        (handed names s).map Certificate.header := by
    rintro header (⟨name, hname, hsent⟩ | ⟨c, hc, rfl⟩)
    · exact List.mem_append_left _ (List.mem_flatMap.mpr ⟨name, hname, mem_headers_sent.mpr hsent⟩)
    · exact List.mem_append_right _ (List.mem_map_of_mem (mem_handed.mpr hc))
  simp only [distinct_headers, Bool.and_eq_true] at h
  obtain ⟨⟨hbytes, hmade⟩, hkeys⟩ := h
  refine ⟨?_, ?_, ?_⟩
  · intro name hname header hheader bytes hm hdigest
    have hone := List.all_eq_true.mp (List.all_eq_true.mp (List.all_eq_true.mp hbytes name hname)
      header (hseen hheader)) bytes hm
    simpa [hdigest] using hone
  · intro name hname header hheader m hm hdigest
    have hone := List.all_eq_true.mp (List.all_eq_true.mp (List.all_eq_true.mp hmade name hname)
      header (hseen hheader)) m hm
    have heq : m.header = header := by simpa [hdigest] using hone
    exact heq ▸ ⟨rfl, rfl, rfl, rfl⟩
  · intro name hname v hv hm
    have hone := List.all_eq_true.mp (List.all_eq_true.mp hkeys name hname) v hv
    rw [List.contains_iff_mem.mpr hm] at hone
    cases hone

/-- Each certificate of a leader lists that of the leader before it. -/
def unskipped (sys : System) (certificates : List Certificate) : Bool :=
  certificates.all fun a => certificates.all fun next =>
    a.origin != sys.committee.leader a.round || next.origin != sys.committee.leader next.round ||
      next.round != a.round + 1 || next.header.parents.contains a.digest

theorem unskipped_of_checked {names : List PublicKey}
    (h : unskipped sys (handed names s) = true) :
    Unskipped sys.committee (honest_dag {a | a ∈ names} s) := by
  rintro _ ⟨⟨a, ha, rfl⟩, hleader, -⟩ _ ⟨next, hnext, rfl⟩ hnextleader hround -
  have hone := List.all_eq_true.mp (List.all_eq_true.mp h a (mem_handed.mpr ha)) next
    (mem_handed.mpr hnext)
  have hleader : a.origin = sys.committee.leader a.round := hleader
  have hnextleader : next.origin = sys.committee.leader next.round := hnextleader
  have hround : next.round = a.round + 1 := hround
  refine ⟨hround.symm, ?_⟩
  rw [← hround, hnextleader, hleader] at hone
  simp only [bne_self_eq_false, Bool.false_or] at hone
  exact ExtTreeSet.contains_iff_mem.mp hone

theorem fed_of_checked {t : Primary} (h : feeds t.core deliveries = true)
    (hnodup : ((consensus.headers deliveries).map fun header => (header.author, header.round)).Nodup) :
    Fed sys t deliveries := by
  simp only [feeds, Bool.and_eq_true, List.isPrefixOf_iff_prefix] at h
  exact ⟨h.1, h.2, counted_once_of_nodup hnodup⟩

end

section

attribute [local instance] trio_crypto

/-- The consensus of authority 1 takes the certificates of round 1 and then the headers. -/
def trio_headers : List consensus.Event :=
  [.certificate ((trio_first 1).certified [1, 2]), .certificate ((trio_first 2).certified [1, 2]),
    .header (trio_first 1), .header (trio_first 2), .header (trio_second 1), .header (trio_second 3)]

/-- The consensus of authority 2 takes certificates, up to one of round 2. -/
def trio_certificates : List consensus.Event :=
  [.certificate ((trio_first 1).certified [1, 2]), .certificate ((trio_first 2).certified [1, 3]),
    .certificate ((trio_second 1).certified [1, 2])]

theorem trio_distinctHeaders : DistinctHeaders trio_primaries {a | a ∈ [1, 2]} trio_primary :=
  distinctHeaders_of_checked (by decide +kernel)

theorem trio_unskipped : Unskipped trio (honest_dag {a | a ∈ [1, 2]} trio_primary) :=
  unskipped_of_checked (show unskipped trio_primaries (handed [1, 2] trio_primary) = true by
    decide +kernel)

theorem honest_primaries_agree_trio : ∃ c c',
    Consensus.run trio 50 trio_headers = some c ∧ Consensus.run trio 50 trio_certificates = some c' ∧
      (c.leaders.map Certificate.bare <+: c'.leaders.map Certificate.bare ∨
        c'.leaders.map Certificate.bare <+: c.leaders.map Certificate.bare) :=
  honest_primaries_agree trio_primaries {a | a ∈ [1, 2]} trio_events trio_primary trio_run
    trio_distinct trio_distinctHeaders trio_unskipped 1 2 (by simp) (by simp) trio_headers
    trio_certificates (fed_of_checked (by decide +kernel) (by decide +kernel))
    (fed_of_checked (by decide +kernel) (by decide +kernel))

/-- Both commit the leader of round 1, with different votes. -/
example : (Consensus.run trio 50 trio_headers).map Consensus.leaders =
      some [(trio_first 2).certified [1, 2]] ∧
    (Consensus.run trio 50 trio_certificates).map Consensus.leaders =
      some [(trio_first 2).certified [1, 3]] := by
  decide +kernel

end

end sailfish.primary.System
