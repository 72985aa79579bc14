import ForkDetector.Api.Handlers
import ForkDetector.Chains.Stats
import ForkDetector.Peers.Panics
import Mathlib.Data.Set.Card
/-!
# Status — the numbers of `GET /api/status`, and the lists of peers

`status` counts the forks and reads the registry three times, and peers come and go in between.  Once known a peer stays
known, so that the numbers of friendly and of connected peers exceed the number of all peers by the ones that were told
in between at most (`status_answers`).  A connected peer with no record that can be read fails the answer.
-/
namespace ForkDetector
namespace Api

open Chains (Linkage BlockTree Mirrors Leash Fork Top Comparable)
open Peers (Registry Peer Step)
open Proto (BlockID Conn Gowaves Version)
open Run (Path)

/-- The fields that are read from the linkage and from the registry. -/
structure Status where
  shortForksCount : Nat
  longForksCount : Nat
  allPeersCount : Nat
  friendlyPeersCount : Nat
  connectedPeersCount : Nat

section
variable {byName : Peer → Peer → Bool} (byname : Go.UnstableSort Peer byName) (conns : Go.MapRange Addr Conn)

def status (gw : Gowaves) (rng : Go.MapRange BlockID (List Addr))
    (srt : Go.UnstableSort Fork Chains.byScoreAndPeersDesc) (linkage : Linkage) (views : Nat → Registry) :
    Response Status :=
  respond do
    let stats ← linkage.stats gw rng srt
    let all ← (views 0).listPeers byname
    let friends ← (views 1).friendlyPeers byname
    let connections ← (views 2).listConnections conns byname
    .ok ⟨stats.short, stats.long, all.length, friends.length, connections.length⟩

def peers (registry : Registry) : Response (List Peer) := respond (registry.listPeers byname)

def friendly (registry : Registry) : Response (List Peer) := respond (registry.friendlyPeers byname)

def connections (registry : Registry) : Response (List Peer) := respond (registry.listConnections conns byname)

end

/-! ## The peers that are counted -/

/-- The hosts with a record that can be read. -/
def Known (r : Registry) : Set Addr := {a | a.is4 = true ∧ ∃ p, r.storage.peer a = .ok p}

def Friends (r : Registry) : Set Addr := {a | a.is4 = true ∧ ∃ p, r.storage.peer a = .ok p ∧ p.state = .connected}

def Connected (r : Registry) : Set Addr := {a | r.connections[a]? ≠ none}

theorem friends_subset_known (r : Registry) : Friends r ⊆ Known r := fun _ ⟨h4, p, hp, _⟩ => ⟨h4, p, hp⟩

theorem ncard_eq_length {α : Type} {s : Set α} {xs : List α} (hn : xs.Nodup) (h : ∀ a, a ∈ s ↔ a ∈ xs) :
    s.Finite ∧ s.ncard = xs.length := by
  classical
  obtain rfl : s = xs.toFinset := by
    ext a
    rw [h, List.coe_toFinset]
    rfl
  exact ⟨Finset.finite_toSet _, by rw [Set.ncard_coe_finset, List.toFinset_card_of_nodup hn]⟩

/-- A complete list has a peer for each host. -/
theorem ncard_of_lists {byName : Peer → Peer → Bool} {r : Registry} (hr : r.storage.Decodable) {q : Peer → Prop}
    {ps : List Peer} (h : Peers.Lists byName r.storage q ps) :
    {a | a.is4 = true ∧ ∃ p, r.storage.peer a = .ok p ∧ q p}.Finite ∧
    {a | a.is4 = true ∧ ∃ p, r.storage.peer a = .ok p ∧ q p}.ncard = ps.length := by
  rw [← List.length_map Peer.addr]
  refine ncard_eq_length h.nodup fun a => ?_
  rw [List.mem_map]
  constructor
  · rintro ⟨h4, p, hp, hq⟩
    have haddr : p.addr = a := hr.addr_eq h4 hp
    exact ⟨p, (h.mem p).2 ⟨haddr ▸ h4, haddr ▸ hp, hq⟩, haddr⟩
  · rintro ⟨p, hp, rfl⟩
    obtain ⟨h4, hp, hq⟩ := (h.mem p).1 hp
    exact ⟨h4, p, hp, hq⟩

section
variable {cmpMinor : Version → Version → Int} {r r' : Registry} (hr : Peers.Reachable cmpMinor r)
  {byName : Peer → Peer → Bool} {byname : Go.UnstableSort Peer byName} {conns : Go.MapRange Addr Conn}
include hr

theorem exists_length_peers (byname : Go.UnstableSort Peer byName) :
    (Known r).Finite ∧ ∃ ps, r.listPeers byname = .ok ps ∧ ps.length = (Known r).ncard := by
  obtain ⟨ps, hps, hlists⟩ := Peers.exists_listPeers hr byname
  obtain ⟨hfin, hcard⟩ := ncard_of_lists hr.decodable hlists
  simp only [and_true] at hfin hcard
  exact ⟨hfin, ps, hps, hcard.symm⟩

theorem exists_length_friendly (byname : Go.UnstableSort Peer byName) :
    ∃ ps, r.friendlyPeers byname = .ok ps ∧ ps.length = (Friends r).ncard := by
  obtain ⟨ps, hps, hlists⟩ := Peers.exists_friendlyPeers hr byname
  exact ⟨ps, hps, (ncard_of_lists hr.decodable hlists).2.symm⟩

omit hr in
/-- `Connections` answers exactly when every connected peer can be read. -/
theorem exists_listConnections_iff : (∃ ps, r.listConnections conns byname = .ok ps) ↔
    ∀ a ∈ Connected r, ∃ p, r.storage.peer a = .ok p := by
  constructor
  · rintro ⟨ps, hps⟩ a ha
    exact peer_of_connections hps ha
  · intro h
    obtain ⟨ps, hps⟩ : ∃ ps, (conns.entries r.connections.toList).mapM (fun e => do
        let sp ← Go.wrap "failed to get active connetcions" (r.storage.peer e.1)
        .ok { sp with p := some e.2 }) = .ok ps := Go.exists_mapM_of_forall fun e he => by
      have he : r.connections[e.1]? = some e.2 := Peers.mem_connections.1 ((conns.perm _).mem_iff.1 he)
      obtain ⟨p, hp⟩ := h e.1 (by rw [Connected, Set.mem_ofPred_eq, he]; simp)
      exact ⟨_, Go.bind_eq_ok.2 ⟨p, Go.wrap_eq_ok.2 hp, rfl⟩⟩
    exact ⟨byname.sort ps, Go.bind_eq_ok.2 ⟨ps, hps, rfl⟩⟩

omit hr in
theorem length_listConnections {ps : List Peer} (h : r.listConnections conns byname = .ok ps) :
    ps.length = (Connected r).ncard := by
  obtain ⟨qs, hqs, h⟩ := Go.bind_eq_ok.1 h
  cases h
  obtain ⟨-, hcard⟩ := ncard_eq_length (s := Connected r) r.connections.nodup_keys fun a => by
    rw [Std.ExtTreeMap.mem_keys, Connected, Set.mem_ofPred_eq, Std.ExtTreeMap.mem_iff_isSome_getElem?,
      Option.isSome_iff_ne_none]
  rw [hcard, (byname.perm qs).length_eq, ← (Go.mapM_eq_ok.1 hqs).length_eq, (conns.perm _).length_eq,
    Std.ExtTreeMap.length_toList, Std.ExtTreeMap.length_keys]

/-- The connected peers that are listed are known. -/
theorem connected_subset_known {ps : List Peer} (h : r.listConnections conns byname = .ok ps) :
    Connected r ⊆ Known r := fun a ha => ⟨hr.onlyIPv4 a ha, exists_listConnections_iff.1 ⟨ps, h⟩ a ha⟩

end

/-! ## The numbers -/

/-- The states of the registry at the reads of a caller: between two of them, operations of others. -/
def RegistryViews (cmpMinor : Version → Version → Int) (views : Nat → Registry) : Prop :=
  ∀ i, ∃ tr, Path (Step cmpMinor) (views i) tr (views (i + 1))

/-- Once known, a peer stays known. -/
theorem known_subset_run {cmpMinor : Version → Version → Int} {r r' : Registry} {tr : List (Run.Link Registry Peers.Op)}
    (h : Path (Step cmpMinor) r tr r') : Known r ⊆ Known r' := by
  induction h with
  | nil => exact subset_rfl
  | cons hs _ ih => exact fun a ⟨h4, hp⟩ => ih ⟨h4, Peers.step_readable hs h4 hp⟩

namespace RegistryViews
variable {cmpMinor : Version → Version → Int} {views : Nat → Registry} (hv : RegistryViews cmpMinor views)
include hv

theorem later (h : Peers.Reachable cmpMinor (views 0)) : ∀ i, Peers.Reachable cmpMinor (views i)
  | 0 => h
  | i + 1 => by
    obtain ⟨tr, htr⟩ := hv i
    exact (Path.invariant (fun _ _ _ => .step) (later h i) htr).2

theorem known_mono : ∀ i, Known (views 0) ⊆ Known (views i)
  | 0 => subset_rfl
  | i + 1 => by
    obtain ⟨tr, htr⟩ := hv i
    exact (known_mono i).trans (known_subset_run htr)

end RegistryViews

/-- **The numbers of the answer**: the lengths of what the handlers of the lists answer at each read.  Only peers that
were told between the reads make one of the last two numbers exceed the number of all peers. -/
structure StatusCounts {byName : Peer → Peer → Bool} (byname : Go.UnstableSort Peer byName)
    (conns : Go.MapRange Addr Conn) (ls : List Leash) (views : Nat → Registry) (s : Status) : Prop where
  forks : s.shortForksCount + s.longForksCount = (ls.map Leash.blockID).dedup.length
  all : s.allPeersCount = (Known (views 0)).ncard
  friendly : s.friendlyPeersCount = (Friends (views 1)).ncard
  connected : s.connectedPeersCount = (Connected (views 2)).ncard
  all_listed : ∃ ps, peers byname (views 0) = .json ps ∧ ps.length = s.allPeersCount
  friendly_listed : ∃ ps, Api.friendly byname (views 1) = .json ps ∧ ps.length = s.friendlyPeersCount
  connected_listed : ∃ ps, connections byname conns (views 2) = .json ps ∧ ps.length = s.connectedPeersCount
  friendly_le : s.friendlyPeersCount ≤ s.allPeersCount + (Known (views 1) \ Known (views 0)).ncard
  connected_le : s.connectedPeersCount ≤ s.allPeersCount + (Known (views 2) \ Known (views 0)).ncard

theorem ncard_le_add {α : Type} {s t u : Set α} (ht : t.Finite) (hst : s ⊆ t) (hu : u ⊆ t) :
    s.ncard ≤ u.ncard + (t \ u).ncard := by
  rw [Nat.add_comm, Set.ncard_sdiff_add_ncard_of_subset hu ht]
  exact Set.ncard_le_ncard hst ht

section
variable {gw : Gowaves} {scheme : Proto.Scheme} {genesis : Proto.Block} {l : Linkage} {t : BlockTree BlockID}
  {ls : List Leash} {cmpMinor : Version → Version → Int} {views : Nat → Registry} {byName : Peer → Peer → Bool}
  {byname : Go.UnstableSort Peer byName} {conns : Go.MapRange Addr Conn} {rng : Go.MapRange BlockID (List Addr)}
  {srt : Go.UnstableSort Fork Chains.byScoreAndPeersDesc}

/-- The answer is made of the count of the forks and of the connections; the other two lists are always there. -/
theorem status_eq (hv : RegistryViews cmpMinor views) (hr : Peers.Reachable cmpMinor (views 0)) :
    status byname conns gw rng srt l views = respond (l.stats gw rng srt >>= fun stats =>
      (views 2).listConnections conns byname >>= fun connections =>
        .ok ⟨stats.short, stats.long, (Known (views 0)).ncard, (Friends (views 1)).ncard, connections.length⟩) := by
  obtain ⟨-, all, hall, hlen⟩ := exists_length_peers hr byname
  obtain ⟨friends, hfriends, hlen'⟩ := exists_length_friendly (hv.later hr 1) byname
  unfold status
  rw [hall, hfriends, ← hlen, ← hlen']
  rfl

theorem respond_eq_json {α : Type} {x : Res α} {a : α} : respond x = .json a ↔ x = .ok a := by
  unfold respond
  rcases x with (_ | _) | _ <;> simp

theorem status_counts (hl : l.st.leashes = .ok ls) (hv : RegistryViews cmpMinor views)
    (hr : Peers.Reachable cmpMinor (views 0)) {s : Status}
    (h : status byname conns gw rng srt l views = .json s) : StatusCounts byname conns ls views s := by
  rw [status_eq hv hr, respond_eq_json] at h
  obtain ⟨st, hst, h⟩ := Go.bind_eq_ok.1 h
  obtain ⟨ps, hps, h⟩ := Go.bind_eq_ok.1 h
  cases h
  obtain ⟨fs, hfs, rfl⟩ := Linkage.stats_eq_ok.1 hst
  have hlater := hv.later hr
  have hconn := length_listConnections hps
  obtain ⟨-, all, hall, hlen⟩ := exists_length_peers hr byname
  obtain ⟨friends, hfriends, hlen'⟩ := exists_length_friendly (hlater 1) byname
  refine ⟨?_, rfl, rfl, hconn, ⟨all, respond_eq_json.2 hall, hlen⟩, ⟨friends, respond_eq_json.2 hfriends, hlen'⟩,
    ⟨ps, respond_eq_json.2 hps, rfl⟩, ?_, ?_⟩
  · exact (Chains.sum_foldl_add fs).trans (Chains.length_forks hl hfs)
  · exact ncard_le_add (exists_length_peers (hlater 1) byname).1 (friends_subset_known _) (hv.known_mono 1)
  · show ps.length ≤ _
    rw [hconn]
    exact ncard_le_add (exists_length_peers (hlater 2) byname).1 (connected_subset_known (hlater 2) hps)
      (hv.known_mono 2)

/-- Some order of the maps counts the forks exactly when a highest block can be compared with every leashed one. -/
theorem exists_stats_iff (hgw : gw.RoundTrips) (M : Mirrors gw l t) (hl : l.st.leashes = .ok ls) :
    (∃ rng srt st, l.stats gw rng srt = .ok st) ↔ ∃ k, Top l ls k ∧ Comparable l t ls k := by
  have hstored : ∀ {k}, Top l ls k → t.Stored k := fun hk => by
    obtain ⟨p, hp⟩ := Chains.exists_leash hk.mem
    exact (M.listed hl hp).2
  constructor
  · rintro ⟨rng, srt, st, hst⟩
    obtain ⟨fs, hfs, -⟩ := Linkage.stats_eq_ok.1 hst
    obtain ⟨top, htop, hfrom⟩ := M.forks_eq_ok hl hfs
    rw [Chains.keeps_empty] at htop hfrom
    exact ⟨top, htop, (M.comparable_iff hgw hl (hstored htop)).2 hfrom.entries⟩
  · rintro ⟨k, hk, hcomp⟩
    obtain ⟨srt, fs, hfs, -⟩ := M.exists_forks (.listed _ _) (P := ∅) hl
      (by rw [Chains.keeps_empty]; exact hk)
      (by rw [Chains.keeps_empty]; exact (M.comparable_iff hgw hl (hstored hk)).1 hcomp)
    exact ⟨_, srt, _, Linkage.stats_eq_ok.2 ⟨fs, hfs, rfl⟩⟩

end

/-- **What `status` answers**: the numbers when the forks are counted and every connected peer is known, a failure when
they are counted and one is not, and nothing when they cannot be counted. -/
structure StatusAnswers {byName : Peer → Peer → Bool} (byname : Go.UnstableSort Peer byName)
    (conns : Go.MapRange Addr Conn) (gw : Gowaves) (l : Linkage) (t : BlockTree BlockID) (ls : List Leash)
    (views : Nat → Registry) : Prop where
  counts : (∃ rng srt st, l.stats gw rng srt = .ok st) ↔ ∃ k, Top l ls k ∧ Comparable l t ls k
  json : ∀ rng srt, (∃ s, status byname conns gw rng srt l views = .json s) ↔
    (∃ st, l.stats gw rng srt = .ok st) ∧ Connected (views 2) ⊆ Known (views 2)
  failed : ∀ rng srt, (∃ e, status byname conns gw rng srt l views = .failed e) ↔
    (∃ st, l.stats gw rng srt = .ok st) ∧ ¬ Connected (views 2) ⊆ Known (views 2)
  recovered : ∀ rng srt, status byname conns gw rng srt l views = .recovered ↔ ¬ ∃ st, l.stats gw rng srt = .ok st
  numbers : ∀ rng srt s, status byname conns gw rng srt l views = .json s → StatusCounts byname conns ls views s

section
variable {gw : Gowaves} {scheme : Proto.Scheme} {genesis : Proto.Block} {l : Linkage} {t : BlockTree BlockID}
  {cmpMinor : Version → Version → Int} {views : Nat → Registry} {byName : Peer → Peer → Bool}
  {byname : Go.UnstableSort Peer byName} {conns : Go.MapRange Addr Conn} {rng : Go.MapRange BlockID (List Addr)}
  {srt : Go.UnstableSort Fork Chains.byScoreAndPeersDesc}

variable (byname conns rng srt) in
/-- The three ways `status` ends, by what `Stats` and then `Connections` return. -/
theorem status_cases (hgw : gw.RoundTrips) (M : Mirrors gw l t) (hv : RegistryViews cmpMinor views)
    (hr : Peers.Reachable cmpMinor (views 0)) :
    (status byname conns gw rng srt l views = .recovered ∧ ¬ ∃ st, l.stats gw rng srt = .ok st) ∨
    (∃ s, status byname conns gw rng srt l views = .json s ∧ (∃ st, l.stats gw rng srt = .ok st) ∧
      Connected (views 2) ⊆ Known (views 2)) ∨
    ∃ e, status byname conns gw rng srt l views = .failed e ∧ (∃ st, l.stats gw rng srt = .ok st) ∧
      ¬ Connected (views 2) ⊆ Known (views 2) := by
  have h4 := (hv.later hr 2).onlyIPv4
  have hconn : (∃ ps, (views 2).listConnections conns byname = .ok ps) ↔ Connected (views 2) ⊆ Known (views 2) :=
    exists_listConnections_iff.trans ⟨fun hread a ha => ⟨h4 a ha, hread a ha⟩, fun hsub a ha => (hsub ha).2⟩
  have hno : Go.NoError (l.stats gw rng srt) := .bind (M.forks_noError hgw rng srt ∅).wrap fun _ _ => .of_ok rfl
  rw [status_eq hv hr]
  cases hst : l.stats gw rng srt with
  | error f =>
    cases f with
    | err e => exact absurd hst (hno e)
    | panic msg => exact .inl ⟨rfl, fun ⟨_, hok⟩ => nomatch hok⟩
  | ok st =>
    refine .inr ?_
    cases hps : (views 2).listConnections conns byname with
    | ok ps => exact .inl ⟨_, rfl, ⟨st, rfl⟩, hconn.1 ⟨ps, hps⟩⟩
    | error f =>
      cases f with
      | err e =>
        refine .inr ⟨e, rfl, ⟨st, rfl⟩, fun hsub => ?_⟩
        obtain ⟨ps, hok⟩ := hconn.2 hsub
        rw [hps] at hok
        cases hok
      | panic msg => exact absurd hps (Registry.listConnections_noPanic h4 byname conns msg)

end

/-- **When `status` answers, and with which numbers**, whatever is done to the registry between its reads. -/
theorem status_answers {gw : Gowaves} (hgw : gw.RoundTrips) {scheme : Proto.Scheme} {genesis : Proto.Block}
    {l : Linkage} {t : BlockTree BlockID} (h : Chains.Reachable gw scheme genesis l t) {ls : List Leash}
    (hls : l.st.leashes = .ok ls) {cmpMinor : Version → Version → Int} {views : Nat → Registry}
    (hv : RegistryViews cmpMinor views) (hr : Peers.Reachable cmpMinor (views 0)) {byName : Peer → Peer → Bool}
    (byname : Go.UnstableSort Peer byName) (conns : Go.MapRange Addr Conn) :
    StatusAnswers byname conns gw l t ls views := by
  have hcases := fun rng srt => status_cases byname conns rng srt hgw h.mirrors hv hr
  refine ⟨exists_stats_iff hgw h.mirrors hls, fun rng srt => ?_, fun rng srt => ?_, fun rng srt => ?_,
    fun rng srt s hs => status_counts hls hv hr hs⟩
  · rcases hcases rng srt with ⟨hs, hno⟩ | ⟨s, hs, hyes⟩ | ⟨e, hs, -, hno⟩
    · exact iff_of_false (fun ⟨s, hs'⟩ => by rw [hs] at hs'; cases hs') fun hyes => hno hyes.1
    · exact iff_of_true ⟨s, hs⟩ hyes
    · exact iff_of_false (fun ⟨s, hs'⟩ => by rw [hs] at hs'; cases hs') fun hyes => hno hyes.2
  · rcases hcases rng srt with ⟨hs, hno⟩ | ⟨s, hs, -, hyes⟩ | ⟨e, hs, hno⟩
    · exact iff_of_false (fun ⟨e, hs'⟩ => by rw [hs] at hs'; cases hs') fun hyes => hno hyes.1
    · exact iff_of_false (fun ⟨e, hs'⟩ => by rw [hs] at hs'; cases hs') fun hno => hno.2 hyes
    · exact iff_of_true ⟨e, hs⟩ hno
  · rcases hcases rng srt with ⟨hs, hno⟩ | ⟨s, hs, hyes, -⟩ | ⟨e, hs, hyes, -⟩
    · exact iff_of_true hs hno
    · exact iff_of_false (fun hs' => by rw [hs] at hs'; cases hs') fun hno => hno hyes
    · exact iff_of_false (fun hs' => by rw [hs] at hs'; cases hs') fun hno => hno hyes

namespace Sample

/-- A peer connects between the first read and the second. -/
def connects (r r' : Registry) (i : Nat) : Registry := if i = 0 then r else r'

theorem registryViews_connects {cmpMinor : Version → Version → Int} {r r' : Registry}
    {tr : List (Run.Link Registry Peers.Op)} (h : Path (Step cmpMinor) r tr r') :
    RegistryViews cmpMinor (connects r r')
  | 0 => ⟨tr, h⟩
  | _ + 1 => ⟨[], .nil r'⟩

end Sample

/-- Three blocks are leashed, and the first peer connects. -/
theorem status_answers_sample : ∃ l r, Chains.Sample.after Chains.Sample.branches = .ok l ∧
    Peers.Sample.run [.suggestVersion 0 Peers.Sample.addr, Peers.Sample.register 0 Peers.Sample.waves] = .ok r ∧
    StatusAnswers Sample.asListed (.listed _ _) Chains.Sample.gowaves l (Chains.Sample.tree Chains.Sample.branches)
      (Chains.Sample.leashesOf [2, 3, 4]) (Sample.connects Peers.Sample.registry r) := by
  obtain ⟨l, h⟩ := Go.exists_of_isOk (x := Chains.Sample.after Chains.Sample.branches) (by decide +kernel)
  obtain ⟨r, hr⟩ := Go.exists_of_isOk (x := Peers.Sample.run [.suggestVersion 0 Peers.Sample.addr,
    Peers.Sample.register 0 Peers.Sample.waves]) (by decide +kernel)
  obtain ⟨tr, htr⟩ := Peers.Sample.run_path hr
  exact ⟨l, r, h, hr, status_answers Chains.Sample.gowaves_roundTrips (Chains.Sample.reachable h)
    (Chains.Sample.highestScore h).1 (Sample.registryViews_connects htr) Sample.registry_reachable Sample.asListed _⟩

end Api
end ForkDetector
