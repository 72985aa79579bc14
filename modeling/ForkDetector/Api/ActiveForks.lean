import ForkDetector.Peers.Reachable
import ForkDetector.Chains.Output
/-!
# ActiveForks — the handler of `GET /api/active-forks`

The handler intersects the connected peers with the peers of the request and asks `Forks` for the intersection.  For
`Forks` no peers at all means every peer, so that a request that no connected peer matches lists the forks of all
(`lists_active_iff`).
-/
namespace ForkDetector
namespace Api

open Chains (Linkage LookupPeers Fork byScoreAndPeersDesc Leash Top Comparable)
open Peers (Registry Peer)
open Proto (BlockID Conn Gowaves Version)

/-- What a handler writes.  The list is the one given to the JSON encoder, and the router turns a panic into an empty
answer of status 500. -/
inductive Answer where
  | list (forks : List Fork)
  | error (code : Nat) (format : String)
  | recovered

/-- `getPeers`, of what the parts of the parameter parse to. -/
def getPeers (ss : List (Option Addr)) : Option LookupPeers :=
  ss.foldlM (fun m s => s.map m.insert) ∅

/-- The connected peers that the request asks for. -/
def lookup (rps : LookupPeers) (connections : List Peer) : LookupPeers :=
  connections.foldl (fun ps conn => if !rps.isEmpty && !rps.contains conn.addr then ps else ps.insert conn.addr) ∅

def activeForks {byName : Peer → Peer → Bool} (gw : Gowaves) (conns : Go.MapRange Addr Conn)
    (byname : Go.UnstableSort Peer byName) (rng : Go.MapRange BlockID (List Addr))
    (srt : Go.UnstableSort Fork byScoreAndPeersDesc) (registry : Registry) (linkage : Linkage)
    (ss : List (Option Addr)) : Answer :=
  match getPeers ss with
  | none => .error 400 "Failed to complete request: %v"
  | some rps =>
    match registry.listConnections conns byname with
    | .error (.panic _) => .recovered
    | .error (.err _) => .error 500 "Failed to complete request: %v"
    | .ok connections =>
      match linkage.forks gw rng srt (lookup rps connections) with
      | .error (.panic _) => .recovered
      | .error (.err _) => .error 500 "Failed to complete request: %v"
      | .ok forks => .list forks

/-! ## The peers asked for -/

/-- A connected peer that the request asks for. -/
def Active (r : Registry) (rps : LookupPeers) (a : Addr) : Prop :=
  r.connections[a]? ≠ none ∧ (rps.isEmpty = true ∨ rps.contains a = true)

theorem mem_foldl_lookup {rps : LookupPeers} {a : Addr} : ∀ {connections : List Peer} {ps : LookupPeers},
    (connections.foldl (fun ps conn => if !rps.isEmpty && !rps.contains conn.addr then ps else ps.insert conn.addr)
      ps).contains a = true ↔
      ps.contains a = true ∨ (∃ p ∈ connections, p.addr = a) ∧ (rps.isEmpty = true ∨ rps.contains a = true)
  | [], ps => by simp
  | conn :: connections, ps => by
    rw [List.foldl_cons, mem_foldl_lookup]
    by_cases hskip : (!rps.isEmpty && !rps.contains conn.addr) = true
    · have hno : conn.addr = a → ¬ (rps.isEmpty = true ∨ rps.contains a = true) := by
        rintro rfl
        rw [Bool.and_eq_true, Bool.not_eq_true', Bool.not_eq_true'] at hskip
        rw [hskip.1, hskip.2]
        simp
      rw [if_pos hskip]
      simp only [List.mem_cons, exists_eq_or_imp]
      tauto
    · rw [if_neg hskip]
      have hyes : conn.addr = a → (rps.isEmpty = true ∨ rps.contains a = true) := by
        rintro rfl
        simp only [Bool.and_eq_true, Bool.not_eq_true', not_and, Bool.not_eq_false] at hskip
        cases he : rps.isEmpty with
        | true => exact .inl rfl
        | false => exact .inr (hskip he)
      simp only [List.mem_cons, exists_eq_or_imp, Std.ExtTreeSet.contains_insert, Bool.or_eq_true, beq_iff_eq,
        Std.LawfulEqCmp.compare_eq_iff_eq]
      tauto

theorem mem_lookup {rps : LookupPeers} {connections : List Peer} {a : Addr} :
    (lookup rps connections).contains a = true ↔
      (∃ p ∈ connections, p.addr = a) ∧ (rps.isEmpty = true ∨ rps.contains a = true) := by
  unfold lookup
  rw [mem_foldl_lookup]
  simp

section
variable {cmpMinor : Version → Version → Int} {r : Registry} (hr : Peers.Reachable cmpMinor r)
  {byName : Peer → Peer → Bool} {conns : Go.MapRange Addr Conn} {byname : Go.UnstableSort Peer byName}
  {connections : List Peer}
include hr

theorem mem_connections_iff (h : r.listConnections conns byname = .ok connections) {a : Addr} :
    (∃ p ∈ connections, p.addr = a) ↔ r.connections[a]? ≠ none := by
  constructor
  · rintro ⟨p, hp, rfl⟩
    obtain ⟨a, c, sp, hc, hsp, rfl⟩ := Peers.mem_of_listConnections h hp
    have ha := hr.onlyIPv4 a (by rw [hc]; simp)
    have haddr : sp.addr = a := hr.decodable.addr_eq ha hsp
    show r.connections[sp.addr]? ≠ none
    rw [haddr, hc]
    simp
  · intro ha
    obtain ⟨c, hc⟩ := Option.ne_none_iff_exists'.1 ha
    obtain ⟨ps, hps, h⟩ := Go.bind_eq_ok.1 h
    cases h
    have hmem : (a, c) ∈ conns.entries r.connections.toList :=
      (conns.perm _).mem_iff.2 (Peers.mem_connections.2 hc)
    obtain ⟨p, hp⟩ := Go.exists_of_mapM hps hmem
    obtain ⟨sp, hsp, hpe⟩ := Go.bind_eq_ok.1 hp
    cases hpe
    have haddr : sp.addr = a := hr.decodable.addr_eq (hr.onlyIPv4 a ha) (Go.wrap_eq_ok.1 hsp)
    exact ⟨_, (byname.perm ps).mem_iff.2 ((Go.mem_of_mapM hps _).2 ⟨_, hmem, hp⟩), haddr⟩

theorem lookup_iff (h : r.listConnections conns byname = .ok connections) {rps : LookupPeers} {a : Addr} :
    (lookup rps connections).contains a = true ↔ Active r rps a := by
  rw [mem_lookup, mem_connections_iff hr h]
  rfl

/-- When the request asks for no connected peer, `Forks` gets the empty set. -/
theorem lookup_eq_empty (h : r.listConnections conns byname = .ok connections) {rps : LookupPeers}
    (hno : ∀ a, ¬ Active r rps a) : lookup rps connections = ∅ := by
  refine Std.ExtTreeSet.ext_contains fun a => ?_
  rw [Bool.eq_iff_iff, lookup_iff hr h]
  simp [hno a]

omit hr in
theorem peer_of_connections (h : r.listConnections conns byname = .ok connections) {a : Addr}
    (ha : r.connections[a]? ≠ none) : ∃ p, r.storage.peer a = .ok p := by
  obtain ⟨c, hac⟩ := Option.ne_none_iff_exists'.1 ha
  obtain ⟨ps, hps, -⟩ := Go.bind_eq_ok.1 h
  obtain ⟨q, hq⟩ := Go.exists_of_mapM hps ((conns.perm _).mem_iff.2 (Peers.mem_connections.2 hac))
  obtain ⟨sp, hsp, -⟩ := Go.bind_eq_ok.1 hq
  exact ⟨sp, Go.wrap_eq_ok.1 hsp⟩

end

/-- `Connections` answers when every connected peer can be read. -/
theorem exists_connections {r : Registry} {byName : Peer → Peer → Bool} (byname : Go.UnstableSort Peer byName)
    (h : ∀ a : Addr, r.connections[a]? ≠ none → ∃ p, r.storage.peer a = .ok p) :
    ∃ connections, r.listConnections (.listed Addr Conn) byname = .ok connections := by
  obtain ⟨ps, hps⟩ : ∃ ps, r.connections.toList.mapM (fun e => do
      let sp ← Go.wrap "failed to get active connetcions" (r.storage.peer e.1)
      .ok { sp with p := some e.2 }) = .ok ps := Go.exists_mapM_of_forall fun e he => by
    have hne : r.connections[e.1]? ≠ none := by
      rw [Peers.mem_connections.1 (show (e.1, e.2) ∈ _ from he)]
      simp
    obtain ⟨p, hp⟩ := h e.1 hne
    exact ⟨_, Go.bind_eq_ok.2 ⟨p, Go.wrap_eq_ok.2 hp, rfl⟩⟩
  exact ⟨byname.sort ps, Go.bind_eq_ok.2 ⟨ps, hps, rfl⟩⟩

theorem activeForks_eq_list {byName : Peer → Peer → Bool} {gw : Gowaves} {conns : Go.MapRange Addr Conn}
    {byname : Go.UnstableSort Peer byName} {rng : Go.MapRange BlockID (List Addr)}
    {srt : Go.UnstableSort Fork byScoreAndPeersDesc} {r : Registry} {l : Linkage} {ss : List (Option Addr)}
    {rps : LookupPeers} (hR : getPeers ss = some rps) {fs : List Fork} :
    activeForks gw conns byname rng srt r l ss = .list fs ↔
      ∃ connections, r.listConnections conns byname = .ok connections ∧
        l.forks gw rng srt (lookup rps connections) = .ok fs := by
  unfold activeForks
  rw [hR]
  cases hc : r.listConnections conns byname with
  | error e => cases e <;> simp
  | ok connections =>
    cases hf : l.forks gw rng srt (lookup rps connections) with
    | error e => cases e <;> simp [hf]
    | ok fs' => simp [hf]

/-! ## What the list has -/

/-- **The list is about the connected peers that the request asks for.** -/
structure AboutActive (r : Registry) (l : Linkage) (rps : LookupPeers) (fs : List Fork) : Prop where
  only : ∀ f ∈ fs, ∀ a ∈ f.peers, Active r rps a
  every : ∀ (a : Addr) (k : BlockID), Active r rps a → l.st.leash a = .ok k → ∃ f ∈ fs, a ∈ f.peers
  nobody : (∀ a, ¬ Active r rps a) → fs = []

/-- Every list that the handler can give is about the connected peers that the request asks for. -/
def ListsActive {byName : Peer → Peer → Bool} (gw : Gowaves) (byname : Go.UnstableSort Peer byName) (r : Registry)
    (l : Linkage) (ss : List (Option Addr)) (rps : LookupPeers) : Prop :=
  ∀ conns rng srt fs, activeForks gw conns byname rng srt r l ss = .list fs → AboutActive r l rps fs

theorem aboutActive {gw : Gowaves} {scheme : Proto.Scheme} {genesis : Proto.Block} {l : Linkage}
    {t : Chains.BlockTree BlockID} (hl : Chains.Reachable gw scheme genesis l t) {r : Registry} {rps P : LookupPeers}
    (h4 : Peers.OnlyIPv4 r) (hP : ∀ a, P.contains a = true ↔ Active r rps a) {a : Addr} (ha : Active r rps a)
    {rng : Go.MapRange BlockID (List Addr)} {srt : Go.UnstableSort Fork byScoreAndPeersDesc} {fs : List Fork}
    (h : l.forks gw rng srt P = .ok fs) : AboutActive r l rps fs := by
  have M := hl.mirrors
  obtain ⟨ls, hls⟩ := M.exists_leashes
  obtain ⟨top, -, hfs⟩ := M.forks_eq_ok hls h
  rw [Chains.keeps_eq ((hP a).2 ha)] at hfs
  refine ⟨fun f hf b hb => ?_, fun b k hb hk => ?_, fun hno => absurd ha (hno a)⟩
  · obtain ⟨⟨k, v⟩, he, hent⟩ := (hfs.mem f).1 hf
    rw [(M.entry_head hent).2.1, (Chains.mem_groups.1 he).1] at hb
    exact (hP b).1 (List.mem_filter.1 (Chains.mem_peersOn.1 hb)).2
  · have hmem : (⟨b, k⟩ : Leash) ∈ ls.filter fun lsh => P.contains lsh.addr :=
      List.mem_filter.2 ⟨Chains.mem_leashes_of_is4 hls (h4 b hb.1) hk, (hP b).2 hb⟩
    obtain ⟨f, hf⟩ := hfs.entries _ (Chains.mem_groups_of_leash hmem)
    refine ⟨f, (hfs.mem f).2 ⟨_, Chains.mem_groups_of_leash hmem, hf⟩, ?_⟩
    rw [(M.entry_head hf).2.1]
    exact Chains.mem_peersOn.2 hmem

/-- **When the handler lists the forks of the connected peers that the request asks for**: when there is one, or when
it gives no list, as a connected peer cannot be read or no highest block can be compared with every leashed one. -/
theorem lists_active_iff {gw : Gowaves} (hgw : gw.RoundTrips) {cmpMinor : Version → Version → Int} {r : Registry}
    (hr : Peers.Reachable cmpMinor r) {scheme : Proto.Scheme} {genesis : Proto.Block} {l : Linkage}
    {t : Chains.BlockTree BlockID} (hl : Chains.Reachable gw scheme genesis l t) {ls : List Leash}
    (hls : l.st.leashes = .ok ls) {ss : List (Option Addr)} {rps : LookupPeers} (hR : getPeers ss = some rps)
    {byName : Peer → Peer → Bool} (byname : Go.UnstableSort Peer byName) :
    ListsActive gw byname r l ss rps ↔ (∃ a, Active r rps a) ∨
      (∃ a, r.connections[a]? ≠ none ∧ ∀ p, r.storage.peer a ≠ .ok p) ∨ ∀ k, Top l ls k → ¬ Comparable l t ls k := by
  have M := hl.mirrors
  have hstored : ∀ {k}, Top l ls k → t.Stored k := fun hk => by
    obtain ⟨p, hp⟩ := Chains.exists_leash hk.mem
    exact (M.listed hls hp).2
  constructor
  · intro hlists
    by_contra hcond
    push Not at hcond
    obtain ⟨hno, hread, k, hk, hcomp⟩ := hcond
    obtain ⟨connections, hc⟩ := exists_connections byname fun a ha => (hread a ha)
    obtain ⟨srt, fs, hfs, hfrom⟩ := M.exists_forks (.listed _ _) (P := ∅) hls
      (by rw [Chains.keeps_empty]; exact hk)
      (by rw [Chains.keeps_empty]; exact (M.comparable_iff hgw hls (hstored hk)).1 hcomp)
    rw [Chains.keeps_empty] at hfrom
    obtain ⟨f, hf⟩ := hfrom.entries _ hk.mem
    have hlist := (activeForks_eq_list hR).2 ⟨connections, hc, by rw [lookup_eq_empty hr hc hno]; exact hfs⟩
    have hnil := (hlists _ _ srt fs hlist).nobody hno
    have hmem := (hfrom.mem f).2 ⟨_, hk.mem, hf⟩
    rw [hnil] at hmem
    cases hmem
  · intro hcond conns rng srt fs h
    obtain ⟨connections, hc, hfs⟩ := (activeForks_eq_list hR).1 h
    by_cases hact : ∃ a, Active r rps a
    · obtain ⟨a, ha⟩ := hact
      exact aboutActive hl hr.onlyIPv4 (fun b => lookup_iff hr hc) ha hfs
    · exfalso
      rcases hcond with hact' | ⟨a, ha, hread⟩ | hnone
      · exact hact hact'
      · obtain ⟨p, hp⟩ := peer_of_connections hc ha
        exact hread p hp
      · rw [lookup_eq_empty hr hc fun a ha => hact ⟨a, ha⟩] at hfs
        obtain ⟨top, htop, hfrom⟩ := M.forks_eq_ok hls hfs
        rw [Chains.keeps_empty] at htop hfrom
        exact hnone top htop ((M.comparable_iff hgw hls (hstored htop)).2 hfrom.entries)

namespace Sample

/-- A sort by a comparison that tells nobody apart. -/
def asListed : Go.UnstableSort Peer fun _ _ => false :=
  ⟨id, fun l => .refl l, fun _ => List.pairwise_of_forall fun _ _ => rfl⟩

theorem registry_reachable : Peers.Reachable Peers.Sample.cmpMinor Peers.Sample.registry :=
  .fresh Peers.Sample.registry_new

/-- A block of another peer, and one on it of the peer that connects. -/
def twoPeers : List Chains.Call := [Chains.Sample.key 2 1, .putBlock (Chains.Sample.block 3 2) Peers.Sample.addr]

end Sample

/-- A request with no filter: of the two leashed peers one is connected, and its chain is listed. -/
theorem lists_active_iff_sample : ∃ r l fs, r.connections[Peers.Sample.addr]? ≠ none ∧
    Chains.Sample.after Sample.twoPeers = .ok l ∧ ListsActive Chains.Sample.gowaves Sample.asListed r l [] ∅ ∧
    activeForks Chains.Sample.gowaves (.listed _ _) Sample.asListed (.listed _ _) Chains.Sample.stable r l [] =
      .list fs ∧
    fs.map (fun f => (f.headBlock, f.peers)) = [(Chains.Sample.id 3, [Peers.Sample.addr])] := by
  let ops : List Peers.Op := [.suggestVersion 0 Peers.Sample.addr]
  obtain ⟨r1, h1⟩ := Go.exists_of_isOk (x := Peers.Sample.run ops) (by decide +kernel)
  obtain ⟨r, h2⟩ := Go.exists_of_isOk
    (x := Peers.Sample.run (ops ++ [Peers.Sample.register 0 Peers.Sample.waves])) (by decide +kernel)
  obtain ⟨l, h⟩ := Go.exists_of_isOk (x := Chains.Sample.after Sample.twoPeers) (by decide +kernel)
  have hconn : r.connections[Peers.Sample.addr]?.isSome = true :=
    Peers.Sample.run_reads (fun r => r.connections[Peers.Sample.addr]?.isSome) h2 (by decide +kernel)
  have hne : r.connections[Peers.Sample.addr]? ≠ none := fun hn => by rw [hn] at hconn; cases hconn
  have hr : Peers.Reachable Peers.Sample.cmpMinor r :=
    (Sample.registry_reachable.step (Run.Path.first_of_foldlM h1)).step (Peers.Sample.run_step h1 h2)
  have hls : (Chains.Sample.after Sample.twoPeers >>= fun l => l.st.leashes) =
      .ok [⟨Peers.Sample.addr, Chains.Sample.id 3⟩, ⟨Chains.Sample.peer 2, Chains.Sample.id 2⟩] := by decide +kernel
  have hfs : (Peers.Sample.run (ops ++ [Peers.Sample.register 0 Peers.Sample.waves]) >>= fun r =>
      Chains.Sample.after Sample.twoPeers >>= fun l => r.listConnections (.listed _ _) Sample.asListed >>= fun cs =>
        l.forks Chains.Sample.gowaves (.listed _ _) Chains.Sample.stable (lookup ∅ cs) >>= fun fs =>
          .ok (fs.map fun f => (f.headBlock, f.peers))) = .ok [(Chains.Sample.id 3, [Peers.Sample.addr])] := by
    decide +kernel
  rw [h] at hls
  rw [h2, h] at hfs
  obtain ⟨r', hr', hfs⟩ := Go.bind_eq_ok.1 hfs
  obtain ⟨l', hl', hfs⟩ := Go.bind_eq_ok.1 hfs
  cases hr'
  cases hl'
  obtain ⟨cs, hcs, hfs⟩ := Go.bind_eq_ok.1 hfs
  obtain ⟨fs, hfs, hshape⟩ := Go.bind_eq_ok.1 hfs
  exact ⟨r, l, fs, hne, h, (lists_active_iff Chains.Sample.gowaves_roundTrips hr (Chains.Sample.reachable h) hls rfl
    Sample.asListed).2 (.inl ⟨Peers.Sample.addr, hne, .inl rfl⟩), (activeForks_eq_list rfl).2 ⟨cs, hcs, hfs⟩,
    Except.ok.inj hshape⟩

/-- **With nobody connected the handler lists the forks of everybody.** -/
theorem lists_everybody : ∃ l, Chains.Reachable Chains.Sample.gowaves 87 (Chains.Sample.block 1 0) l
      (Chains.Sample.tree Chains.Sample.branches) ∧
    Peers.Reachable Peers.Sample.cmpMinor Peers.Sample.registry ∧ Peers.Sample.registry.connections = ∅ ∧
    ¬ ListsActive Chains.Sample.gowaves Sample.asListed Peers.Sample.registry l [] ∅ := by
  obtain ⟨l, h⟩ := Go.exists_of_isOk (x := Chains.Sample.after Chains.Sample.branches) (by decide +kernel)
  obtain ⟨fs, hfs⟩ := Go.exists_of_isOk (x := Chains.Sample.after Chains.Sample.branches >>= fun l =>
    l.forks Chains.Sample.gowaves (.listed _ _) Chains.Sample.stable ∅) (by decide +kernel)
  have hlen : (Chains.Sample.after Chains.Sample.branches >>= fun l =>
    l.forks Chains.Sample.gowaves (.listed _ _) Chains.Sample.stable ∅).map List.length = .ok 3 := by decide +kernel
  rw [hfs] at hlen
  rw [h] at hfs
  refine ⟨l, Chains.Sample.reachable h, Sample.registry_reachable, rfl, fun hlists => ?_⟩
  have hnil := (hlists (.listed _ _) (.listed _ _) Chains.Sample.stable fs
    ((activeForks_eq_list rfl).2 ⟨[], rfl, hfs⟩)).nobody fun a ha => ha.1 Std.ExtTreeMap.getElem?_empty
  rw [hnil] at hlen
  exact absurd (Except.ok.inj hlen) (by decide)

end Api
end ForkDetector
