import ForkDetector.Peers.Keys
/-!
# Listing — what a registry tells of its peers

`Peers` and `FriendlyPeers` of `peers/registry.go`, and the answer to a request for peers.  A registry that is told
addresses keeps the first one for each host that it does not know, so that what one detector tells another is stored
there, port and all (`gossip_kept`).
-/
namespace ForkDetector

/-- `netip.Addr.As4`. -/
def Addr.as4 (a : Addr) : Res Addr :=
  if a.is4 then .ok a
  else match a.bytes with
    | [0, 0, 0, 0, 0, 0, 0, 0, 0, 0, 255, 255, b0, b1, b2, b3] => .ok (.from4 b0 b1 b2 b3)
    | [] => Go.panic "As4 called on IP zero value"
    | _ => Go.panic "As4 called on IPv6 address"

namespace Peers

open Proto (Version Handshake Conn)

/-- `Peer.TCPAddr`. -/
def Peer.tcpAddr (p : Peer) : Res AddrPort := do
  let ip ← p.addr.as4
  .ok ⟨ip, p.addressPort.port⟩

namespace Registry
variable {byName : Peer → Peer → Bool}

/-- `Peers`; `srt` is the sort by upper-case name. -/
def listPeers (srt : Go.UnstableSort Peer byName) (r : Registry) : Res (List Peer) := do
  let peers ← r.storage.peers
  .ok (srt.sort peers)

def friendlyPeers (srt : Go.UnstableSort Peer byName) (r : Registry) : Res (List Peer) := do
  let peers ← r.storage.peers
  .ok (srt.sort (peers.filter fun p => decide (p.state = .connected)))

/-- `Distributor.handleGetPeersMessage`: the peers of the answer, or none when it fails. -/
def handleGetPeersMessage (srt : Go.UnstableSort Peer byName) (r : Registry) : Res (Option (List AddrPort)) :=
  match r.friendlyPeers srt with
  | .error (.panic msg) => Go.panic msg
  | .error (.err _) => .ok none
  | .ok friendlyPeers => do
    let infos ← friendlyPeers.mapM fun p => do
      let ap ← p.tcpAddr
      .ok (⟨ap.addr, p.addressPort.port⟩ : AddrPort)
    .ok (some infos)

end Registry

/-! ## Lists of the database -/

/-- A database that only puts have written. -/
def Storage.Written (s : Storage) : Prop := ∃ puts, s = putPeers puts

theorem Storage.Written.putPeer {s s' : Storage} {p : Peer} (hw : s.Written) (h : s.putPeer p = .ok s') :
    s'.Written := by
  obtain ⟨puts, rfl⟩ := hw
  refine ⟨puts ++ [p], ?_⟩
  unfold putPeers at *
  rw [List.foldl_append, List.foldl_cons, List.foldl_nil, h]

theorem Reachable.written {cmpMinor : Version → Version → Int} {r : Registry} (h : Reachable cmpMinor r) :
    r.storage.Written := by
  induction h with
  | fresh h => exact ⟨[], newRegistry_storage h⟩
  | restart _ h ih => rw [newRegistry_storage h]; exact ih
  | step _ hs ih => exact hs.storage_of_put (fun _ _ _ hw _ h => hw.putPeer h) ih

/-- **A list of peers is complete**: each stored peer that counts once, and in the order of the names. -/
structure Lists (byName : Peer → Peer → Bool) (s : Storage) (q : Peer → Prop) (ps : List Peer) : Prop where
  mem : ∀ p, p ∈ ps ↔ p.addr.is4 = true ∧ s.peer p.addr = .ok p ∧ q p
  nodup : (ps.map Peer.addr).Nodup
  sorted : ps.Pairwise fun a b => byName b a = false

section
variable {byName : Peer → Peer → Bool} {s : Storage}

theorem Storage.Written.exists_peers (hw : s.Written) : ∃ ps, s.peers = .ok ps ∧ (ps.map Peer.addr).Nodup ∧
    ∀ p, p ∈ ps ↔ p.addr.is4 = true ∧ s.peer p.addr = .ok p := by
  obtain ⟨puts, rfl⟩ := hw
  obtain ⟨ps, hps, hmem⟩ := peers_putPeers puts
  refine ⟨ps, hps, nodup_peers hps, fun p => ?_⟩
  constructor
  · intro hp
    obtain ⟨q, hq, rfl⟩ := (hmem p).1 hp
    exact ⟨(lastPut_eq_some hq).2.1.1, peer_of_mem_peers hps hp⟩
  · rintro ⟨h4, hp⟩
    have hvalid : p.addr.bytes ≠ [] := fun he => by
      have := of_decide_eq_true h4
      rw [he] at this
      cases this
    rw [peer_putPeers hvalid (alone_iff.2 (.inl h4))] at hp
    cases hlast : lastPut puts p.addr with
    | none => rw [hlast] at hp; cases hp
    | some q =>
      rw [hlast] at hp
      obtain rfl : q.stored = p := Except.ok.inj hp
      exact (hmem _).2 ⟨q, hlast, rfl⟩

/-- The peers that count, sorted. -/
theorem Storage.Written.exists_lists (hw : s.Written) (srt : Go.UnstableSort Peer byName) (q : Peer → Bool) :
    ∃ ps, s.peers = .ok ps ∧ Lists byName s (fun p => q p = true) (srt.sort (ps.filter q)) := by
  obtain ⟨ps, hps, hnd, hmem⟩ := hw.exists_peers
  refine ⟨ps, hps, fun p => ?_, ?_, srt.sorted _⟩
  · rw [(srt.perm _).mem_iff, List.mem_filter, hmem, and_assoc]
  · exact ((srt.perm _).map Peer.addr).nodup_iff.2 (hnd.sublist (List.filter_sublist.map _))

/-- **The peers, the friendly ones and their addresses** of any registry that the detector can hold. -/
theorem exists_friendlyPeers {cmpMinor : Version → Version → Int} {r : Registry} (hr : Reachable cmpMinor r)
    (srt : Go.UnstableSort Peer byName) : ∃ ps, r.friendlyPeers srt = .ok ps ∧
      Lists byName r.storage (fun p => p.state = .connected) ps := by
  obtain ⟨ps, hps, hlists⟩ := hr.written.exists_lists srt fun p => decide (p.state = .connected)
  refine ⟨_, Go.bind_eq_ok.2 ⟨ps, hps, rfl⟩, ?_, hlists.nodup, hlists.sorted⟩
  simpa only [decide_eq_true_eq] using hlists.mem

theorem exists_listPeers {cmpMinor : Version → Version → Int} {r : Registry} (hr : Reachable cmpMinor r)
    (srt : Go.UnstableSort Peer byName) : ∃ ps, r.listPeers srt = .ok ps ∧
      Lists byName r.storage (fun _ => True) ps := by
  obtain ⟨ps, hps, hlists⟩ := hr.written.exists_lists srt fun _ => true
  rw [List.filter_true] at hlists
  exact ⟨_, Go.bind_eq_ok.2 ⟨ps, hps, rfl⟩, by simpa only using hlists.mem, hlists.nodup, hlists.sorted⟩

theorem tcpAddr_of_is4 {p : Peer} (h : p.addr.is4 = true) : p.tcpAddr = .ok p.addressPort := by
  unfold Peer.tcpAddr Addr.as4
  rw [if_pos h]
  rfl

end

/-! ## Addresses that are told -/

theorem Storage.hasPeer_of_is4 {s : Storage} {a : Addr} (h : a.is4 = true) :
    s.hasPeer a = .ok s.records[a.bytes]?.isSome := by
  unfold hasPeer
  rw [keyBytes_of_is4 h]
  rfl

theorem Storage.hasPeer_eq_false {s : Storage} {a : Addr} (h : a.is4 = true) :
    s.hasPeer a = .ok false ↔ s.records[a.bytes]? = none := by
  rw [hasPeer_of_is4 h, Except.ok.injEq, Option.isSome_eq_false_iff, Option.isNone_iff_eq_none]

theorem Storage.peer_congr {s s' : Storage} {a : Addr} (h4 : a.is4 = true)
    (h : s'.records[a.bytes]? = s.records[a.bytes]?) : s'.peer a = s.peer a := by
  unfold peer
  rw [keyBytes_of_is4 h4]
  simp only [bind, Except.bind, h]

/-- A peer that is known by its address only. -/
def Peer.told (ap : AddrPort) : Peer := { Peer.zero with addressPort := ap, state := .unknown }

namespace Registry

/-- Whether `AppendAddresses` looks an address up. -/
def accepts (r : Registry) (ap : AddrPort) : Bool :=
  ap.addr.is4 && !ap.addr.isLoopback && decide (ap.addr ≠ r.declared)

/-- The first of some addresses that is accepted, for a host. -/
def firstTold (r : Registry) (addresses : List (Option AddrPort)) (a : Addr) : Option AddrPort :=
  addresses.findSome? fun o => o.filter fun ap => r.accepts ap && decide (ap.addr = a)

theorem firstTold_eq_some {r : Registry} {addresses : List (Option AddrPort)} {a : Addr} {ap : AddrPort}
    (h : r.firstTold addresses a = some ap) : some ap ∈ addresses ∧ r.accepts ap = true ∧ ap.addr = a := by
  obtain ⟨o, ho, he⟩ := List.exists_of_findSome?_eq_some h
  obtain ⟨rfl, hp⟩ := Option.filter_eq_some_iff.1 he
  rw [Bool.and_eq_true, decide_eq_true_eq] at hp
  exact ⟨ho, hp⟩

/-- **What `AppendAddresses` writes**: for each host that is not stored, the first address told of it. -/
structure Appended (r : Registry) (addresses : List (Option AddrPort)) (s : Storage) (news : List AddrPort) :
    Prop where
  records : ∀ a : Addr, a.is4 = true → s.records[a.bytes]? = (r.storage.records[a.bytes]?).or
    ((r.firstTold addresses a).map fun ap => (Peer.told ap).record)
  mem : ∀ ap, ap ∈ news ↔ r.firstTold addresses ap.addr = some ap ∧ r.storage.records[ap.addr.bytes]? = none
  nodup : (news.map AddrPort.addr).Nodup

end Registry

namespace Registry
variable {r : Registry} {addresses : List (Option AddrPort)} {ap : AddrPort} {a : Addr}

theorem is4_of_accepts (h : r.accepts ap = true) : ap.addr.is4 = true := by
  simp only [accepts, Bool.and_eq_true] at h
  exact h.1.1

/-- The registry after an address is stored. -/
def withTold (r : Registry) (ap : AddrPort) : Registry :=
  { r with storage := ⟨r.storage.records.insert ap.addr.bytes (Peer.told ap).record⟩ }

theorem records_withTold (h4 : ap.addr.is4 = true) (ha : a.is4 = true) : (r.withTold ap).storage.records[a.bytes]? =
    if ap.addr = a then some (Peer.told ap).record else r.storage.records[a.bytes]? := by
  show (r.storage.records.insert _ _)[a.bytes]? = _
  rw [Go.getElem?_insert_eq]
  by_cases he : ap.addr = a
  · rw [if_pos he, if_pos (by rw [he])]
  · rw [if_neg he, if_neg fun hb => he (Addr.eq_of_is4 h4 ha hb.symm)]

/-- **One address told**: it is stored when it is accepted and its host is not known. -/
theorem appendAddresses_some (r : Registry) (count : Nat) (ap : AddrPort) (addresses : List (Option AddrPort)) :
    r.appendAddresses count (some ap :: addresses) =
      if r.accepts ap = true ∧ r.storage.records[ap.addr.bytes]? = none then
        (r.withTold ap).appendAddresses (count + 1) addresses
      else r.appendAddresses count addresses := by
  rw [appendAddresses]
  cases h4 : ap.addr.is4 with
  | false => simp [accepts, h4]
  | true =>
    cases hloop : ap.addr.isLoopback with
    | true => simp [accepts, hloop]
    | false =>
      by_cases hdecl : ap.addr = r.declared
      · simp [accepts, hdecl]
      · have hput : r.storage.putPeer (Peer.told ap) = .ok (r.withTold ap).storage :=
          putPeer_storable ⟨h4, validString_nil⟩
        have hacc : r.accepts ap = true := by simp [accepts, h4, hloop, hdecl]
        rw [Storage.hasPeer_of_is4 h4]
        cases hrec : r.storage.records[ap.addr.bytes]? with
        | some rec => simp [hdecl]
        | none =>
          rw [if_pos (And.intro hacc rfl)]
          simp only [Bool.not_true, Bool.false_eq_true, if_false, if_neg hdecl, Option.isSome_none]
          show (store r (Peer.told ap) >>= _) = _
          unfold store
          rw [hput]
          rfl

theorem firstTold_some (r : Registry) (ap : AddrPort) (addresses : List (Option AddrPort)) (a : Addr) :
    r.firstTold (some ap :: addresses) a =
      if r.accepts ap = true ∧ ap.addr = a then some ap else r.firstTold addresses a := by
  unfold firstTold
  rw [List.findSome?_cons]
  by_cases hacc : r.accepts ap = true <;> by_cases ha : ap.addr = a <;> simp [Option.filter, hacc, ha]

/-- An address that changes nothing: it is not accepted, or its host is known. -/
theorem Appended.skip {s : Storage} {news : List AddrPort} (h : r.Appended addresses s news)
    (hskip : ¬ (r.accepts ap = true ∧ r.storage.records[ap.addr.bytes]? = none)) :
    r.Appended (some ap :: addresses) s news := by
  have hknown : ∀ a : Addr, r.accepts ap = true ∧ ap.addr = a → r.storage.records[a.bytes]? ≠ none := by
    rintro a ⟨hacc, rfl⟩ hnone
    exact hskip ⟨hacc, hnone⟩
  refine ⟨fun a ha => ?_, fun ap' => ?_, h.nodup⟩
  · rw [h.records a ha, firstTold_some]
    split
    · rename_i he
      obtain ⟨rec, hrec⟩ := Option.ne_none_iff_exists'.1 (hknown a he)
      rw [hrec]
      rfl
    · rfl
  · rw [h.mem, firstTold_some]
    split
    · rename_i he
      simp [hknown _ he]
    · rfl

/-- An address that is stored. -/
theorem Appended.keep {s : Storage} {news : List AddrPort} (h : (r.withTold ap).Appended addresses s news)
    (hacc : r.accepts ap = true) (hnone : r.storage.records[ap.addr.bytes]? = none) :
    r.Appended (some ap :: addresses) s (ap :: news) := by
  have h4 := is4_of_accepts hacc
  have hsame : (r.withTold ap).firstTold addresses = r.firstTold addresses := rfl
  refine ⟨fun a ha => ?_, fun ap' => ?_, ?_⟩
  · rw [h.records a ha, hsame, firstTold_some, records_withTold h4 ha]
    by_cases he : ap.addr = a
    · rw [if_pos he, if_pos ⟨hacc, he⟩, ← he, hnone]
      rfl
    · rw [if_neg he, if_neg fun hc => he hc.2]
  · rw [List.mem_cons, h.mem, hsame, firstTold_some]
    by_cases he : ap.addr = ap'.addr
    · rw [if_pos ⟨hacc, he⟩, ← he, records_withTold h4 h4, if_pos rfl, hnone]
      simp [eq_comm]
    · rw [if_neg fun hc => he hc.2]
      have hne : ap' ≠ ap := fun h => he (by rw [h])
      refine (or_iff_right hne).trans (and_congr_right fun hfirst => ?_)
      rw [records_withTold h4 (is4_of_accepts (firstTold_eq_some hfirst).2.1), if_neg he]
  · rw [List.map_cons, List.nodup_cons]
    refine ⟨fun hmem => ?_, h.nodup⟩
    obtain ⟨ap', hap', he⟩ := List.mem_map.1 hmem
    have hno := ((h.mem ap').1 hap').2
    rw [he, records_withTold h4 h4, if_pos rfl] at hno
    cases hno

/-- **`AppendAddresses` in closed form**, of any addresses and any database. -/
theorem appendAddresses_appended : ∀ (addresses : List (Option AddrPort)) (r : Registry) (count : Nat),
    ∃ s news, r.appendAddresses count addresses = .ok ⟨{ r with storage := s }, .ok (count + news.length)⟩ ∧
      r.Appended addresses s news
  | [], r, count => ⟨r.storage, [], rfl, fun _ _ => by simp [firstTold], fun _ => by simp [firstTold], List.nodup_nil⟩
  | none :: addresses, r, count => by
    obtain ⟨s, news, h, ha⟩ := appendAddresses_appended addresses r count
    exact ⟨s, news, h, ha.records, ha.mem, ha.nodup⟩
  | some ap :: addresses, r, count => by
    rw [appendAddresses_some]
    by_cases hnew : r.accepts ap = true ∧ r.storage.records[ap.addr.bytes]? = none
    · obtain ⟨s, news, h, ha⟩ := appendAddresses_appended addresses (r.withTold ap) (count + 1)
      refine ⟨s, ap :: news, ?_, ha.keep hnew.1 hnew.2⟩
      rw [if_pos hnew, h, List.length_cons, Nat.add_right_comm, Nat.add_assoc]
      rfl
    · obtain ⟨s, news, h, ha⟩ := appendAddresses_appended addresses r count
      exact ⟨s, news, by rw [if_neg hnew, h], ha.skip hnew⟩

end Registry

/-- **What a detector knows after another one has told its friendly peers.**  The answer is there, and it lists the
peers that are stored as connected there, each host once; here, what was stored stays, and of the others the hosts that
may be dialled at all are stored with the port that the other one has, which may be none. -/
structure Gossiped (rA rB rB' : Registry) (infos : List AddrPort) (count : Nat) : Prop where
  told : ∀ ap, ap ∈ infos ↔ ∃ p, ap.addr.is4 = true ∧ rA.storage.peer ap.addr = .ok p ∧ p.state = .connected ∧
    p.addressPort = ap
  once : (infos.map AddrPort.addr).Nodup
  kept : ∀ a : Addr, a.is4 = true → rB.storage.hasPeer a = .ok true → rB'.storage.peer a = rB.storage.peer a
  learnt : ∀ ap ∈ infos, rB.accepts ap = true → rB.storage.hasPeer ap.addr = .ok false →
    rB'.storage.peer ap.addr = .ok (Peer.told ap)
  nothing_else : ∀ a : Addr, a.is4 = true → rB.storage.hasPeer a = .ok false →
    (∀ ap ∈ infos, ap.addr = a → rB.accepts ap = false) → rB'.storage.hasPeer a = .ok false
  counted : ∃ news : List AddrPort, news.length = count ∧ (news.map AddrPort.addr).Nodup ∧
    ∀ ap, ap ∈ news ↔ ap ∈ infos ∧ rB.accepts ap = true ∧ rB.storage.hasPeer ap.addr = .ok false
  rest : rB' = { rB with storage := rB'.storage }

/-- The addresses of a list of peers, where each is the only one of its host. -/
theorem firstTold_of_nodup {r : Registry} {infos : List AddrPort} (hnd : (infos.map AddrPort.addr).Nodup)
    {ap : AddrPort} (hap : ap ∈ infos) (hacc : r.accepts ap = true) :
    r.firstTold (infos.map some) ap.addr = some ap := by
  cases hfirst : r.firstTold (infos.map some) ap.addr with
  | none =>
    refine absurd (List.findSome?_eq_none_iff.1 hfirst (some ap) (List.mem_map_of_mem hap)) ?_
    simp [Option.filter, hacc]
  | some ap' =>
    obtain ⟨hmem, -, haddr⟩ := Registry.firstTold_eq_some hfirst
    obtain ⟨ap'', hap'', he⟩ := List.mem_map.1 hmem
    cases he
    rw [List.inj_on_of_nodup_map hnd hap'' hap haddr]

/-- **Gossip.**  The answer of any detector to a request for peers, handled by any other. -/
theorem gossip_kept {cmpMinor : Version → Version → Int} {rA : Registry} (hA : Reachable cmpMinor rA)
    {byName : Peer → Peer → Bool} (srt : Go.UnstableSort Peer byName) (rB : Registry) :
    ∃ infos rB' count, rA.handleGetPeersMessage srt = .ok (some infos) ∧
      rB.appendAddresses 0 (infos.map some) = .ok ⟨rB', .ok count⟩ ∧ Gossiped rA rB rB' infos count := by
  obtain ⟨ps, hps, hlists⟩ := exists_friendlyPeers hA srt
  have hanswer : rA.handleGetPeersMessage srt = .ok (some (ps.map Peer.addressPort)) := by
    unfold Registry.handleGetPeersMessage
    rw [hps]
    refine Go.bind_eq_ok.2 ⟨ps.map Peer.addressPort, ?_, rfl⟩
    refine (congrArg _ (List.map_id ps).symm).trans (Go.mapM_map_eq_ok fun p hp => ?_)
    rw [id, tcpAddr_of_is4 ((hlists.mem p).1 hp).1]
    rfl
  obtain ⟨s, news, happend, ha⟩ := Registry.appendAddresses_appended ((ps.map Peer.addressPort).map some) rB 0
  have htold : ∀ ap, ap ∈ ps.map Peer.addressPort ↔ ∃ p, ap.addr.is4 = true ∧ rA.storage.peer ap.addr = .ok p ∧
      p.state = .connected ∧ p.addressPort = ap := fun ap => by
    constructor
    · intro hap
      obtain ⟨p, hp, rfl⟩ := List.mem_map.1 hap
      obtain ⟨h4, hpeer, hst⟩ := (hlists.mem p).1 hp
      exact ⟨p, h4, hpeer, hst, rfl⟩
    · rintro ⟨p, h4, hpeer, hst, rfl⟩
      exact List.mem_map.2 ⟨p, (hlists.mem p).2 ⟨h4, hpeer, hst⟩, rfl⟩
  have hnd : ((ps.map Peer.addressPort).map AddrPort.addr).Nodup := by
    rw [List.map_map]
    exact hlists.nodup
  refine ⟨_, { rB with storage := s }, news.length, hanswer, by rw [happend, Nat.zero_add], htold, hnd, ?_, ?_, ?_,
    ⟨news, rfl, ha.nodup, fun ap => ?_⟩, rfl⟩
  · intro a h4 hhas
    rw [Storage.hasPeer_of_is4 h4] at hhas
    obtain ⟨rec, hrec⟩ := Option.isSome_iff_exists.1 (Except.ok.inj hhas)
    refine Storage.peer_congr h4 ?_
    show s.records[a.bytes]? = _
    rw [ha.records a h4, hrec]
    rfl
  · intro ap hap hacc hhas
    have h4 := Registry.is4_of_accepts hacc
    have hnone := (Storage.hasPeer_eq_false h4).1 hhas
    refine (Storage.peer_of_value h4 (v := ⟨ap.port, 0, [], some ⟨0, 0, 0⟩, .unknown, 0, none, validString_nil⟩) ?_)
    show s.records[ap.addr.bytes]? = _
    rw [ha.records _ h4, hnone, firstTold_of_nodup hnd hap hacc]
    rfl
  · intro a h4 hhas hno
    have hnone := (Storage.hasPeer_eq_false h4).1 hhas
    have hfirst : rB.firstTold ((ps.map Peer.addressPort).map some) a = none := by
      cases hf : rB.firstTold ((ps.map Peer.addressPort).map some) a with
      | none => rfl
      | some ap =>
        obtain ⟨hmem, hacc, haddr⟩ := Registry.firstTold_eq_some hf
        obtain ⟨ap', hap', he⟩ := List.mem_map.1 hmem
        cases he
        rw [hno ap hap' haddr] at hacc
        cases hacc
    refine (Storage.hasPeer_eq_false h4).2 ?_
    show s.records[a.bytes]? = none
    rw [ha.records a h4, hnone, hfirst]
    rfl
  · rw [ha.mem]
    constructor
    · rintro ⟨hfirst, hnone⟩
      obtain ⟨hmem, hacc, -⟩ := Registry.firstTold_eq_some hfirst
      obtain ⟨ap', hap', he⟩ := List.mem_map.1 hmem
      cases he
      exact ⟨hap', hacc, (Storage.hasPeer_eq_false (Registry.is4_of_accepts hacc)).2 hnone⟩
    · rintro ⟨hap, hacc, hhas⟩
      exact ⟨firstTold_of_nodup hnd hap hacc, (Storage.hasPeer_eq_false (Registry.is4_of_accepts hacc)).1 hhas⟩

/-- A detector with one connected peer, which has declared no address, and one that knows nobody. -/
theorem gossip_kept_sample : ∃ rA infos rB' count, Sample.run [.suggestVersion 0 Sample.addr,
      Sample.register 0 Sample.waves] = .ok rA ∧ infos = [⟨Sample.addr, 0⟩] ∧
    Gossiped rA Sample.registry rB' infos count := by
  let srt : Go.UnstableSort Peer fun _ _ => false :=
    ⟨id, fun l => .refl l, fun _ => List.pairwise_of_forall fun _ _ => rfl⟩
  let ops : List Op := [.suggestVersion 0 Sample.addr]
  obtain ⟨r1, h1⟩ := Go.exists_of_isOk (x := Sample.run ops) (by decide +kernel)
  obtain ⟨rA, h2⟩ := Go.exists_of_isOk (x := Sample.run (ops ++ [Sample.register 0 Sample.waves])) (by decide +kernel)
  have hA : Reachable Sample.cmpMinor rA :=
    ((Reachable.fresh Sample.registry_new).step (Run.Path.first_of_foldlM h1)).step (Sample.run_step h1 h2)
  obtain ⟨infos, rB', count, hinfos, -, hkept⟩ := gossip_kept hA srt Sample.registry
  have hread : (Sample.run (ops ++ [Sample.register 0 Sample.waves]) >>= Registry.handleGetPeersMessage srt) =
      .ok (some [⟨Sample.addr, 0⟩]) := by decide +kernel
  rw [h2] at hread
  obtain rfl := Option.some.inj (Except.ok.inj (hinfos.symm.trans hread))
  exact ⟨rA, _, rB', count, h2, rfl, hkept⟩

end Peers
end ForkDetector
