import ForkDetector.Peers.Hostile
/-!
# Pending — addresses taken for a dial

`TakeAvailableAddresses` puts each address that it returns into the pending set and passes over those that are there.
Only an operation on the address itself takes it out again, so that no address is returned twice without one
(`take_available`).
-/
namespace ForkDetector
namespace Peers

open Proto (Version Handshake Conn)
open Run (Path Link)

/-- The operations that take an address out of the pending set. -/
def Releases : Op → Addr → Prop
  | .registerPeer _ addr _ _, a => addr = a
  | .unregisterPeer _ addr, a => addr = a
  | .markAsHostile addr, a => addr = some a
  | _, _ => False

def Registry.Disjoint (r : Registry) : Prop := ∀ a : Addr, a ∈ r.pending → r.connections[a]? = none

/-- **What `TakeAvailableAddresses` returns**: stored peers that may be dialled, each once. -/
structure Takes (r : Registry) (now : Int) (addresses : List AddrPort) : Prop where
  nodup : (addresses.map AddrPort.addr).Nodup
  available : ∀ ap ∈ addresses, ∃ p, r.storage.peer ap.addr = .ok p ∧ p.addressPort = ap ∧ ap.port ≠ 0 ∧
    p.state ≠ .hostile ∧ ap.addr ≠ r.declared ∧ p.nextAttempt ≤ now ∧ r.connections[ap.addr]? = none ∧
    ap.addr ∉ r.pending

/-- A step that takes addresses, the address `a` among them. -/
def Returns (x : Link Registry Op) (a : Addr) : Prop :=
  ∃ now ans addresses, x.input = .takeAvailableAddresses now ∧ x.pre.takeAvailableAddresses now = .ok ans ∧
    ans.result = .ok addresses ∧ a ∈ addresses.map AddrPort.addr

/-! ## One operation -/

theorem Storage.peer_of_mem_peers {s : Storage} {ps : List Peer} (h : s.peers = .ok ps) {p : Peer} (hp : p ∈ ps) :
    s.peer p.addr = .ok p := by
  obtain ⟨r, hr, h⟩ := (Go.mem_of_mapM h p).1 hp
  obtain ⟨a, ha, h⟩ := Go.bind_eq_ok.1 h
  have hrec := Std.ExtTreeMap.mem_toList_iff_getElem?_eq_some.1 hr
  unfold keyFromBytes at ha
  split at ha
  · rename_i hlen
    cases ha
    split at h
    · cases h
    · rename_i v hv
      split at h
      · cases h
      · rename_i ver hver
        cases h
        refine (peer_eq_ok (decide_eq_true hlen)).2 (.inr ⟨v, ver, ?_, hver, rfl⟩)
        show s.records[r.1]? = _
        rw [hrec, hv]
  · cases ha

namespace Registry
variable {cmpMinor : Version → Version → Int} {now : Int} {r r' : Registry} {addr : Addr} {np : Conn} {hs : Handshake}

theorem unavailable_eq_false {p : Peer} : r.unavailable now p = false ↔ p.state ≠ .hostile ∧ p.addressPort.port ≠ 0 ∧
    p.addr ≠ r.declared ∧ p.nextAttempt ≤ now ∧ r.connections[p.addr]? = none ∧ p.addr ∉ r.pending := by
  have hpend : r.pending.contains p.addr = false ↔ p.addr ∉ r.pending := by
    rw [Std.ExtTreeSet.mem_iff_contains, Bool.not_eq_true]
  unfold unavailable
  simp only [Bool.or_eq_false_iff, decide_eq_false_iff_not, and_assoc, Std.ExtTreeMap.contains_eq_isSome_getElem?,
    Option.isSome_eq_false_iff, Option.isNone_iff_eq_none, not_lt, hpend, ne_eq, gt_iff_lt]

/-- The loop of `TakeAvailableAddresses`: what is available later is available now, as the pending set only grows. -/
theorem takeFrom_spec {now : Int} : ∀ (ps : List Peer) (r : Registry),
    (takeFrom now r ps).1.connections = r.connections ∧ ((takeFrom now r ps).2.map AddrPort.addr).Nodup ∧
    (∀ ap ∈ (takeFrom now r ps).2, ∃ p ∈ ps, p.addressPort = ap ∧ r.unavailable now p = false) ∧
    ∀ a : Addr, a ∈ (takeFrom now r ps).1.pending ↔ a ∈ r.pending ∨ a ∈ (takeFrom now r ps).2.map AddrPort.addr
  | [], r => by simp [takeFrom]
  | p :: ps, r => by
    by_cases hp : r.unavailable now p = true
    · obtain ⟨h1, h2, h3, h4⟩ := takeFrom_spec ps r
      simp only [takeFrom, hp, if_true]
      exact ⟨h1, h2, fun ap hap => (h3 ap hap).imp fun q hq => ⟨List.mem_cons_of_mem _ hq.1, hq.2⟩, h4⟩
    · have hp' : r.unavailable now p = false := by simpa using hp
      obtain ⟨h1, h2, h3, h4⟩ := takeFrom_spec ps { r with pending := r.pending.insert p.addr }
      have hlater : ∀ q : Peer, unavailable now { r with pending := r.pending.insert p.addr } q = false →
          r.unavailable now q = false ∧ q.addr ≠ p.addr := fun q hq => by
        rw [unavailable_eq_false] at hq ⊢
        simp only [Std.ExtTreeSet.mem_insert, Std.LawfulEqCmp.compare_eq_iff_eq, not_or] at hq
        exact ⟨⟨hq.1, hq.2.1, hq.2.2.1, hq.2.2.2.1, hq.2.2.2.2.1, hq.2.2.2.2.2.2⟩, fun h => hq.2.2.2.2.2.1 h.symm⟩
      simp only [takeFrom, hp', Bool.false_eq_true, if_false]
      refine ⟨h1, ?_, fun ap hap => ?_, fun a => ?_⟩
      · rw [List.map_cons, List.nodup_cons]
        refine ⟨fun hmem => ?_, h2⟩
        obtain ⟨ap, hap, he⟩ := List.mem_map.1 hmem
        obtain ⟨q, -, rfl, hq⟩ := h3 ap hap
        exact (hlater q hq).2 he
      · rcases List.mem_cons.1 hap with rfl | hap
        · exact ⟨p, List.mem_cons_self, rfl, hp'⟩
        · obtain ⟨q, hmem, hq, hav⟩ := h3 ap hap
          exact ⟨q, List.mem_cons_of_mem _ hmem, hq, (hlater q hav).1⟩
      · rw [h4 a, Std.ExtTreeSet.mem_insert, Std.LawfulEqCmp.compare_eq_iff_eq, List.map_cons, List.mem_cons]
        unfold Peer.addr
        rw [eq_comm (a := a)]
        tauto

/-- **The answer of `TakeAvailableAddresses`** and the pending set that it leaves. -/
theorem takeAvailableAddresses_spec {a : Answer (List AddrPort)} (h : r.takeAvailableAddresses now = .ok a) :
    a.registry.connections = r.connections ∧
    ((∃ e, a.result = .error e) ∧ a.registry.pending = r.pending ∨
      ∃ addresses, a.result = .ok addresses ∧ Takes r now addresses ∧
        ∀ b : Addr, b ∈ a.registry.pending ↔ b ∈ r.pending ∨ b ∈ addresses.map AddrPort.addr) := by
  unfold takeAvailableAddresses at h
  split at h
  · cases h
  · cases h
    exact ⟨rfl, .inl ⟨⟨_, rfl⟩, rfl⟩⟩
  · rename_i ps hps
    cases h
    obtain ⟨h1, h2, h3, h4⟩ := takeFrom_spec ps r
    refine ⟨h1, .inr ⟨_, rfl, ⟨h2, fun ap hap => ?_⟩, h4⟩⟩
    obtain ⟨p, hp, rfl, hav⟩ := h3 ap hap
    obtain ⟨hst, hport, hdecl, hnext, hconn, hpend⟩ := unavailable_eq_false.1 hav
    exact ⟨p, Storage.peer_of_mem_peers hps hp, rfl, hport, hst, hdecl, hnext, hconn, hpend⟩

end Registry

/-- **What an operation does to the two sets**: nothing, an address is released, or addresses are taken. -/
inductive Moves (r r' : Registry) (op : Op) : Prop where
  | kept : Untouched r r' → Moves r r' op
  | released (a : Addr) : Releases op a → r'.pending = r.pending.erase a →
      (∀ b : Addr, b ≠ a → r'.connections[b]? = r.connections[b]?) → Moves r r' op
  | took (now : Int) (addresses : List AddrPort) : Takes r now addresses → r'.connections = r.connections →
      (∀ b : Addr, b ∈ r'.pending ↔ b ∈ r.pending ∨ b ∈ addresses.map AddrPort.addr) → Moves r r' op

namespace Moves
variable {cmpMinor : Version → Version → Int} {r r' : Registry} {op : Op}

theorem of_step (h : Step cmpMinor r op r') : Moves r r' op := by
  cases op with
  | suggestVersion now addr =>
    obtain ⟨a, ha, he⟩ := Go.bind_eq_ok.1 h
    cases he
    exact .kept (Registry.suggestVersion_kept ha).1
  | registerPeer now addr np hs =>
    obtain ⟨a, ha, he⟩ := Go.bind_eq_ok.1 h
    cases he
    cases Registry.registerPeer_registered ha with
    | accepted p port hp hst _ =>
      have hu := Registry.store_untouched hst
      refine .released addr rfl hu.pending fun b hb => ?_
      rw [hu.connections, Go.getElem?_insert_eq, if_neg hb]
    | judged p hj hst _ =>
      have hu := Registry.store_untouched hst
      exact .released addr rfl hu.pending fun b _ => by rw [hu.connections]; rfl
    | refused e _ _ hreg =>
      rw [hreg]
      exact .released addr rfl rfl fun _ _ => rfl
  | unregisterPeer now addr =>
    obtain ⟨a, ha, he⟩ := Go.bind_eq_ok.1 h
    cases he
    unfold Registry.unregisterPeer at ha
    split at ha
    · cases ha
    · cases ha
      exact .kept ⟨rfl, rfl⟩
    · have hu := Registry.store_untouched ha
      refine .released addr rfl hu.pending fun b hb => ?_
      rw [hu.connections, Go.getElem?_erase_eq, if_neg hb]
  | updatePeerScore addr score =>
    obtain ⟨a, ha, he⟩ := Go.bind_eq_ok.1 h
    cases he
    exact .kept (Registry.updatePeerScore_kept ha).1
  | appendAddresses addresses =>
    obtain ⟨a, ha, he⟩ := Go.bind_eq_ok.1 h
    cases he
    exact .kept (Registry.appendAddresses_kept ha).1
  | takeAvailableAddresses now =>
    obtain ⟨a, ha, he⟩ := Go.bind_eq_ok.1 h
    cases he
    obtain ⟨hc, ⟨-, hp⟩ | ⟨addresses, -, ht, hp⟩⟩ := Registry.takeAvailableAddresses_spec ha
    · exact .kept ⟨hc, hp⟩
    · exact .took now addresses ht hc hp
  | markAsHostile addr =>
    obtain ⟨a, ha, he⟩ := Go.bind_eq_ok.1 h
    cases he
    unfold Registry.markAsHostile at ha
    split at ha
    · cases ha
      exact .kept ⟨rfl, rfl⟩
    · rename_i b
      have hstore : ∀ {p : Peer} {a : Answer Unit}, Registry.store { r with pending := r.pending.erase b } p = .ok a →
          Moves r a.registry (.markAsHostile (some b)) := fun hst =>
        have hu := Registry.store_untouched hst
        .released b rfl hu.pending fun c _ => by rw [hu.connections]
      simp only at ha
      split at ha
      · cases ha
      · split at ha
        · cases ha
          exact .released b rfl rfl fun _ _ => rfl
        · exact hstore ha
      · exact hstore ha

theorem disjoint (h : Moves r r' op) (hd : r.Disjoint) : r'.Disjoint := by
  intro a ha
  cases h with
  | kept hu =>
    rw [hu.connections]
    exact hd a (hu.pending ▸ ha)
  | released b _ hp hc =>
    rw [hp, Std.ExtTreeSet.mem_erase] at ha
    have hne : a ≠ b := fun h => ha.1 (by rw [h]; exact Std.ReflCmp.compare_self)
    rw [hc a hne]
    exact hd a ha.2
  | took now addresses ht hc hp =>
    rw [hc]
    rcases (hp a).1 ha with ha | ha
    · exact hd a ha
    · obtain ⟨ap, hap, rfl⟩ := List.mem_map.1 ha
      obtain ⟨p, -, -, -, -, -, -, hconn, -⟩ := ht.available ap hap
      exact hconn

/-- Only its own release takes an address out of the pending set. -/
theorem pending (h : Moves r r' op) {a : Addr} (ha : a ∈ r.pending) (hno : ¬ Releases op a) : a ∈ r'.pending := by
  cases h with
  | kept hu => rw [hu.pending]; exact ha
  | released b hb hp _ =>
    rw [hp, Std.ExtTreeSet.mem_erase]
    refine ⟨fun h => ?_, ha⟩
    obtain rfl := Std.LawfulEqCmp.compare_eq_iff_eq.1 h
    exact hno hb
  | took now addresses _ _ hp => exact (hp a).2 (.inl ha)

end Moves

/-! ## Runs -/

theorem Moves.pending_path {cmpMinor : Version → Version → Int} {r r' : Registry} {tr : List (Link Registry Op)}
    (h : Path (Step cmpMinor) r tr r') {a : Addr} (ha : a ∈ r.pending) (hno : ∀ z ∈ tr, ¬ Releases z.input a) :
    a ∈ r'.pending := by
  induction h with
  | nil => exact ha
  | cons hs _ ih =>
    obtain ⟨hz, hno⟩ := List.forall_mem_cons.1 hno
    exact ih ((Moves.of_step hs).pending ha hz) hno

theorem Returns.not_pending {x : Link Registry Op} {a : Addr} (h : Returns x a) : a ∉ x.pre.pending := by
  obtain ⟨now, ans, addresses, -, hans, hres, hmem⟩ := h
  obtain ⟨-, ⟨⟨e, he⟩, -⟩ | ⟨addresses', hr', ht, -⟩⟩ := Registry.takeAvailableAddresses_spec hans
  · rw [he] at hres; cases hres
  · rw [hr'] at hres
    cases hres
    obtain ⟨ap, hap, rfl⟩ := List.mem_map.1 hmem
    obtain ⟨p, -, -, -, -, -, -, -, hpend⟩ := ht.available ap hap
    exact hpend

theorem Returns.pending {cmpMinor : Version → Version → Int} {x : Link Registry Op} {a : Addr} (h : Returns x a)
    (hs : Step cmpMinor x.pre x.input x.post) : a ∈ x.post.pending := by
  obtain ⟨now, ans, addresses, hin, hans, hres, hmem⟩ := h
  rw [hin] at hs
  obtain ⟨ans', hans', he⟩ := Go.bind_eq_ok.1 hs
  obtain rfl := Except.ok.inj (hans.symm.trans hans')
  obtain ⟨-, ⟨⟨e, he⟩, -⟩ | ⟨addresses', hr', -, hp⟩⟩ := Registry.takeAvailableAddresses_spec hans
  · rw [he] at hres; cases hres
  · rw [hr'] at hres
    cases hres
    rw [← Except.ok.inj he]
    exact (hp a).2 (.inr hmem)

theorem newRegistry_empty {scheme : Proto.Scheme} {declared : Proto.TCPAddr} {versions : List Version} {s : Storage}
    {r : Registry} (h : newRegistry scheme declared versions s = .ok r) : r.Disjoint := by
  intro a _
  rw [newRegistry_connections h]
  exact Std.ExtTreeMap.getElem?_empty

/-- **No address is taken twice**: in every run from a fresh registry, the pending addresses are not connected, what is
taken may be dialled, and an address is taken again only after an operation on it. -/
theorem take_available {cmpMinor : Version → Version → Int} {scheme : Proto.Scheme} {declared : Proto.TCPAddr}
    {versions : List Version} {s : Storage} {r0 r : Registry} {tr : List (Link Registry Op)}
    (h0 : newRegistry scheme declared versions s = .ok r0) (h : Path (Step cmpMinor) r0 tr r) :
    r.Disjoint ∧
    (∀ now a addresses, r.takeAvailableAddresses now = .ok a → a.result = .ok addresses → Takes r now addresses) ∧
    ∀ tr1 x tr2 y tr3 a, tr = tr1 ++ x :: (tr2 ++ y :: tr3) → Returns x a → Returns y a →
      ∃ z ∈ tr2, Releases z.input a := by
  refine ⟨?_, fun now a addresses ha hr => ?_, fun tr1 x tr2 y tr3 a htr hx hy => ?_⟩
  · have hstep : ∀ s i s', Registry.Disjoint s → Step cmpMinor s i s' → s'.Disjoint :=
      fun _ _ _ hd hs => (Moves.of_step hs).disjoint hd
    exact (Path.invariant hstep (newRegistry_empty h0) h).2
  · obtain ⟨-, ⟨⟨e, he⟩, -⟩ | ⟨addresses', hr', ht, -⟩⟩ := Registry.takeAvailableAddresses_spec ha
    · rw [he] at hr; cases hr
    · rw [hr'] at hr
      cases hr
      exact ht
  · rw [htr] at h
    obtain ⟨s1, -, h⟩ := h.split
    cases h with
    | cons hx1 h =>
      obtain ⟨s2, hmid, h⟩ := h.split
      cases h with
      | cons hy1 _ =>
        -- pending right after the first step, and no longer before the second
        by_contra hno
        push Not at hno
        exact hy.not_pending (Moves.pending_path hmid (hx.pending hx1) hno)

/-- A peer that is taken, and taken again after its connection is lost. -/
theorem take_available_sample : ∃ r tr, Path (Step Sample.cmpMinor) Sample.registry tr r ∧ Sample.addr ∈ r.pending ∧
    r.connections[Sample.addr]? = none := by
  let ops : List Op := [.appendAddresses [some ⟨Sample.addr, 6868⟩], .takeAvailableAddresses 0,
    .unregisterPeer 0 Sample.addr, .takeAvailableAddresses (delay + second)]
  obtain ⟨r, h⟩ := Go.exists_of_isOk (x := Sample.run ops) (by decide +kernel)
  obtain ⟨tr, htr⟩ := Sample.run_path h
  have hpend : r.pending.contains Sample.addr = true :=
    Sample.run_reads (fun r => r.pending.contains Sample.addr) h (by decide +kernel)
  exact ⟨r, tr, htr, hpend, (take_available Sample.registry_new htr).1 Sample.addr hpend⟩

end Peers
end ForkDetector
