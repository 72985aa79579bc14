import ForkDetector.Peers.Registry
/-!
# States — what operations do to stored states and connections

Every operation but two leaves the connections alone and every stored state as it is.  `MarkAsHostile` makes one address
hostile.  `RegisterPeer` judges a peer hostile or accepts it (`registerPeer_registered`): it compares the stored state
with hostile only where no record was found, so a hostile address with a fresh connection is accepted.
-/
namespace ForkDetector
namespace Peers

open Proto (Version Handshake Conn)
open Run (Path Link)

/-- The stored states of IPv4 addresses are kept, and what could be read can be read. -/
structure StatesKept (s s' : Storage) : Prop where
  state : ∀ (a : Addr) (st : State), a.is4 = true → s.stateOf a = some st → s'.stateOf a = some st
  readable : ∀ a : Addr, a.is4 = true → (∃ p, s.peer a = .ok p) → ∃ p, s'.peer a = .ok p

theorem StatesKept.refl (s : Storage) : StatesKept s s := ⟨fun _ _ _ h => h, fun _ _ h => h⟩

theorem StatesKept.trans {s s' s'' : Storage} (h : StatesKept s s') (h' : StatesKept s' s'') : StatesKept s s'' :=
  ⟨fun a st ha hs => h'.state a st ha (h.state a st ha hs), fun a ha hr => h'.readable a ha (h.readable a ha hr)⟩

/-- Stored states are kept or made hostile, and what could be read can be read. -/
structure MadeHostile (s s' : Storage) : Prop where
  state : ∀ (a : Addr) (st : State), a.is4 = true → s.stateOf a = some st →
    s'.stateOf a = some st ∨ s'.stateOf a = some .hostile
  readable : ∀ a : Addr, a.is4 = true → (∃ p, s.peer a = .ok p) → ∃ p, s'.peer a = .ok p

theorem MadeHostile.refl (s : Storage) : MadeHostile s s := ⟨fun _ _ _ h => .inl h, fun _ _ h => h⟩

structure Untouched (r r' : Registry) : Prop where
  connections : r'.connections = r.connections
  pending : r'.pending = r.pending

theorem Untouched.refl (r : Registry) : Untouched r r := ⟨rfl, rfl⟩

theorem Untouched.trans {r r' r'' : Registry} (h : Untouched r r') (h' : Untouched r' r'') : Untouched r r'' :=
  ⟨h'.connections.trans h.connections, h'.pending.trans h.pending⟩

namespace Registry
variable {cmpMinor : Version → Version → Int} {now : Int} {r r' : Registry} {addr : Addr} {np : Conn} {hs : Handshake}

/-- **What storing a peer can do.** -/
theorem store_cases {p : Peer} {a : Answer Unit} (h : r.store p = .ok a) :
    (∃ s, r.storage.putPeer p = .ok s ∧ a = ⟨{ r with storage := s }, .ok ()⟩) ∨
    ∃ e, r.storage.putPeer p = .error (.err e) ∧ a = ⟨r, .error e⟩ := by
  unfold store at h
  split at h
  · rename_i s hs
    cases h
    exact .inl ⟨s, hs, rfl⟩
  · rename_i e he
    cases h
    exact .inr ⟨e, he, rfl⟩
  · cases h

theorem store_connections {p : Peer} {a : Answer Unit} (h : r.store p = .ok a) :
    a.registry.connections = r.connections := by
  rcases store_cases h with ⟨s, -, rfl⟩ | ⟨e, -, rfl⟩ <;> rfl

theorem store_untouched {p : Peer} {a : Answer Unit} (h : r.store p = .ok a) : Untouched r a.registry := by
  rcases store_cases h with ⟨s, -, rfl⟩ | ⟨e, -, rfl⟩ <;> exact ⟨rfl, rfl⟩

theorem store_readable {p : Peer} {a : Answer Unit} (h : r.store p = .ok a) {b : Addr} (hb : b.is4 = true)
    (hr : ∃ q, r.storage.peer b = .ok q) : ∃ q, a.registry.storage.peer b = .ok q := by
  rcases store_cases h with ⟨s, hs, rfl⟩ | ⟨e, -, rfl⟩
  · exact Storage.readable_putPeer hb hs hr
  · exact hr

theorem store_kept {p : Peer} {a : Answer Unit} (h : r.store p = .ok a)
    (hp : ∀ st, p.addr.is4 = true → r.storage.stateOf p.addr = some st → p.state = st) :
    StatesKept r.storage a.registry.storage := by
  refine ⟨fun b st hb hst => ?_, fun b hb hr => store_readable h hb hr⟩
  rcases store_cases h with ⟨s, hs, rfl⟩ | ⟨e, -, rfl⟩
  · show s.stateOf b = some st
    rw [Storage.stateOf_putPeer hb hs]
    split
    · rename_i hbp
      subst hbp
      rw [hp st hb hst]
    · exact hst
  · exact hst

/-- A peer read back, changed in other fields, is stored in the state it is stored in. -/
theorem state_of_read {p q : Peer} (h : r.storage.peer addr = .ok p) (hq : q.addr = p.addr) (hst : q.state = p.state)
    {st : State} (h4 : q.addr.is4 = true) (hs : r.storage.stateOf q.addr = some st) : q.state = st := by
  rw [hq] at h4 hs
  have ha : p.addr = addr := by
    rcases Storage.addr_of_peer h with ha | rfl
    · exact ha
    · cases h4
  rw [ha] at h4 hs
  rw [hst]
  exact (Storage.stateOf_of_peer h4 h hs).1

theorem store_read_kept {p q : Peer} {a : Answer Unit} (h : r.storage.peer addr = .ok p) (hq : q.addr = p.addr)
    (hst : q.state = p.state) (hstore : r.store q = .ok a) : StatesKept r.storage a.registry.storage :=
  store_kept hstore fun _ h4 hs => state_of_read h hq hst h4 hs

theorem stateOf_of_notFound {e : Go.Err Sentinel} (h : r.storage.peer addr = .error (.err e))
    (he : e.is .notFound = true) (h4 : addr.is4 = true) : r.storage.stateOf addr = none := by
  rw [Storage.stateOf_of_is4 h4]
  unfold Storage.peer at h
  rw [keyBytes_of_is4 h4] at h
  simp only [bind, Except.bind] at h
  split at h
  · rename_i hr
    rw [hr]
  · cases h
  · split at h
    · cases h; cases he
    · cases h

theorem suggestVersion_kept {a : Answer Version} (h : r.suggestVersion now addr = .ok a) :
    Untouched r a.registry ∧ StatesKept r.storage a.registry.storage := by
  have hans : ∀ (wrap : Go.Err Sentinel → Go.Err Sentinel) ver (b : Answer Unit),
      (answerVersion wrap ver b).registry = b.registry := fun wrap ver b => by
    unfold answerVersion; split <;> rfl
  unfold suggestVersion at h
  split at h
  · cases h
  · rename_i e he
    split at h
    · cases h
      exact ⟨.refl _, .refl _⟩
    · rename_i hnf
      obtain ⟨ver, -, h⟩ := Go.bind_eq_ok.1 h
      obtain ⟨b, hb, h⟩ := Go.bind_eq_ok.1 h
      cases h
      rw [hans]
      refine ⟨store_untouched hb, store_kept hb fun st h4 hst => ?_⟩
      have hnone : r.storage.stateOf addr = none := stateOf_of_notFound he (by simpa using hnf) h4
      exact absurd (hnone.symm.trans hst) (by simp)
  · rename_i p hp
    split at h
    · obtain ⟨ver, -, h⟩ := Go.bind_eq_ok.1 h
      obtain ⟨b, hb, h⟩ := Go.bind_eq_ok.1 h
      cases h
      rw [hans]
      exact ⟨store_untouched hb, store_read_kept hp (q := { p with
        version := ver, nextAttempt := roundSecond (now + delay) }) rfl rfl hb⟩
    all_goals
      cases h
      exact ⟨.refl _, .refl _⟩

theorem updatePeerScore_kept {score : Int} {a : Answer Unit} (h : r.updatePeerScore addr score = .ok a) :
    Untouched r a.registry ∧ StatesKept r.storage a.registry.storage := by
  unfold updatePeerScore at h
  split at h
  · cases h
  · cases h
    exact ⟨.refl _, .refl _⟩
  · rename_i p hp
    exact ⟨store_untouched h, store_read_kept hp (q := { p with score := some score }) rfl rfl h⟩

/-- `UnregisterPeer` removes the address from the connections when it can be looked up, and keeps all states. -/
theorem unregisterPeer_kept {a : Answer Unit} (h : r.unregisterPeer now addr = .ok a) :
    ((∃ p, r.storage.peer addr = .ok p) ∧ a.registry.connections = r.connections.erase addr ∨
      (∀ p, r.storage.peer addr ≠ .ok p) ∧ a.registry.connections = r.connections) ∧
      StatesKept r.storage a.registry.storage := by
  unfold unregisterPeer at h
  split at h
  · cases h
  · rename_i e he
    cases h
    refine ⟨.inr ⟨fun p hp => ?_, rfl⟩, .refl _⟩
    rw [he] at hp
    cases hp
  · rename_i p hp
    exact ⟨.inl ⟨⟨p, hp⟩, store_connections h⟩, store_read_kept (r := { r with
      pending := r.pending.erase addr, connections := r.connections.erase addr }) hp
      (q := { p with nextAttempt := roundSecond (now + delay), p := none }) rfl rfl h⟩

theorem appendAddresses_kept : ∀ {addresses : List (Option AddrPort)} {r : Registry} {count : Nat} {a : Answer Nat},
    r.appendAddresses count addresses = .ok a →
    Untouched r a.registry ∧ StatesKept r.storage a.registry.storage
  | [], r, count, a, h => by
    cases h
    exact ⟨.refl _, .refl _⟩
  | none :: addresses, r, count, a, h => @appendAddresses_kept addresses _ _ _ h
  | some ap :: addresses, r, count, a, h => by
    unfold appendAddresses at h
    split at h
    · exact appendAddresses_kept h
    · rename_i h4
      split at h
      · exact appendAddresses_kept h
      · split at h
        · exact appendAddresses_kept h
        · split at h
          · cases h
          · cases h
            exact ⟨.refl _, .refl _⟩
          · exact appendAddresses_kept h
          · rename_i hhas
            obtain ⟨b, hb, h⟩ := Go.bind_eq_ok.1 h
            -- the address has no record yet
            have hkept := store_kept hb fun st h4 hst => by
              have hnone : r.storage.stateOf ap.addr = none := Storage.stateOf_of_hasPeer h4 hhas
              exact absurd (hnone.symm.trans hst) (by simp)
            split at h
            · cases h
              exact ⟨store_untouched hb, hkept⟩
            · obtain ⟨h1, h2⟩ := appendAddresses_kept h
              exact ⟨(store_untouched hb).trans h1, hkept.trans h2⟩

theorem takeFrom_kept : ∀ (ps : List Peer) (r : Registry),
    (takeFrom now r ps).1.connections = r.connections ∧ (takeFrom now r ps).1.storage = r.storage
  | [], _ => ⟨rfl, rfl⟩
  | p :: ps, r => by
    unfold takeFrom
    split
    · exact takeFrom_kept ps r
    · exact takeFrom_kept ps { r with pending := r.pending.insert p.addr }

theorem takeAvailableAddresses_storage {a : Answer (List AddrPort)} (h : r.takeAvailableAddresses now = .ok a) :
    a.registry.storage = r.storage := by
  unfold takeAvailableAddresses at h
  split at h
  · cases h
  · cases h; rfl
  · cases h
    exact (takeFrom_kept _ r).2

theorem takeAvailableAddresses_kept {a : Answer (List AddrPort)} (h : r.takeAvailableAddresses now = .ok a) :
    a.registry.connections = r.connections ∧ StatesKept r.storage a.registry.storage := by
  have hs := takeAvailableAddresses_storage h
  unfold takeAvailableAddresses at h
  split at h
  · cases h
  · cases h
    exact ⟨rfl, .refl _⟩
  · cases h
    exact ⟨(takeFrom_kept _ r).1, by rw [hs]; exact .refl _⟩

/-- `MarkAsHostile` keeps the connections, and makes states hostile only. -/
theorem markAsHostile_kept {addr : Option Addr} {a : Answer Unit} (h : r.markAsHostile addr = .ok a) :
    a.registry.connections = r.connections ∧ MadeHostile r.storage a.registry.storage := by
  have hput : ∀ {r : Registry} {p : Peer} {a : Answer Unit}, p.state = .hostile → r.store p = .ok a →
      a.registry.connections = r.connections ∧ MadeHostile r.storage a.registry.storage := by
    intro r p a hp h
    refine ⟨store_connections h, fun b st hb hst => ?_, fun b hb hr => store_readable h hb hr⟩
    rcases store_cases h with ⟨s, hs, rfl⟩ | ⟨e, -, rfl⟩
    · show s.stateOf b = some st ∨ s.stateOf b = some .hostile
      rw [Storage.stateOf_putPeer hb hs]
      split
      · exact .inr (by rw [hp])
      · exact .inl hst
    · exact .inl hst
  unfold markAsHostile at h
  split at h
  · cases h
    exact ⟨rfl, .refl _⟩
  · rename_i a'
    simp only at h
    split at h
    · cases h
    · split at h
      · cases h
        exact ⟨rfl, .refl _⟩
      · exact hput (r := { r with pending := r.pending.erase a' }) rfl h
    · exact hput (r := { r with pending := r.pending.erase a' }) rfl h

/-- The peer that `RegisterPeer` goes on with. -/
def lookUp (r : Registry) (addr : Addr) : Option Peer :=
  match r.storage.peer addr with
  | .ok p => some p
  | .error (.err e) => if e.is .notFound then some .zero else none
  | .error (.panic _) => none

/-- **The checks that an accepted peer passes**; none reads the stored state. -/
structure Passes (cmpMinor : Version → Version → Int) (r : Registry) (addr : Addr) (np : Conn) (hs : Handshake)
    (p : Peer) (port : UInt16) : Prop where
  is4 : addr.is4 = true
  not_declared : addr ≠ r.declared
  looked : r.lookUp addr = some p
  minor : cmpMinor np.handshake.version p.version < 2
  app : np.handshake.appName.getLast? = some r.scheme
  port : (checkPort addr hs).2 = .ok port

structure Judged (cmpMinor : Version → Version → Int) (r : Registry) (addr : Addr) (np : Conn) (p : Peer) : Prop where
  is4 : addr.is4 = true
  not_declared : addr ≠ r.declared
  looked : r.lookUp addr = some p
  verdict : cmpMinor np.handshake.version p.version ≥ 2 ∨
    ∃ c, np.handshake.appName.getLast? = some c ∧ c ≠ r.scheme

/-- The registry with the pending address removed, as `RegisterPeer` starts. -/
def taken (r : Registry) (addr : Addr) : Registry := { r with pending := r.pending.erase addr }

/-- **What `RegisterPeer` can do**: accept the peer, judge it hostile, or refuse it. -/
inductive Registered (cmpMinor : Version → Version → Int) (now : Int) (r : Registry) (addr : Addr) (np : Conn)
    (hs : Handshake) (a : Bool × Answer Unit) : Prop where
  | accepted (p : Peer) (port : UInt16) : Passes cmpMinor r addr np hs p port →
      store { r.taken addr with connections := r.connections.insert addr np } (acceptedPeer p now addr port np hs) =
        .ok a.2 → a.1 = false → Registered cmpMinor now r addr np hs a
  | judged (p : Peer) : Judged cmpMinor r addr np p → (r.taken addr).store (hostilePeer p np) = .ok a.2 →
      a.1 = true → Registered cmpMinor now r addr np hs a
  | refused (e : Go.Err Sentinel) : (∀ p port, ¬ Passes cmpMinor r addr np hs p port) →
      (∀ p, ¬ Judged cmpMinor r addr np p) → a.2 = ⟨r.taken addr, .error e⟩ → Registered cmpMinor now r addr np hs a

theorem checkPort_open {closed : Bool} {port : UInt16} (h : checkPort addr hs = (closed, .ok port)) :
    closed = false := by
  unfold checkPort at h
  split at h
  · cases h; rfl
  · split at h
    · cases h
    · split at h
      · cases h
      · split at h
        · cases h
        · split at h <;> cases h <;> rfl

theorem judge_registered {p : Peer} {a : Bool × Answer Unit} (h4 : addr.is4 = true) (hd : addr ≠ r.declared)
    (hl : r.lookUp addr = some p) (h : (r.taken addr).judge cmpMinor now p addr np hs = .ok a) :
    Registered cmpMinor now r addr np hs a := by
  unfold judge at h
  split at h
  · rename_i hm
    obtain ⟨b, hb, h⟩ := Go.bind_eq_ok.1 h
    cases h
    exact .judged p ⟨h4, hd, hl, .inl hm⟩ hb rfl
  · rename_i hm
    split at h
    · cases h
    · rename_i c hc
      split at h
      · rename_i hne
        obtain ⟨b, hb, h⟩ := Go.bind_eq_ok.1 h
        cases h
        exact .judged p ⟨h4, hd, hl, .inr ⟨c, hc, hne⟩⟩ hb rfl
      · rename_i hne
        obtain rfl : c = r.scheme := not_not.1 hne
        split at h
        · rename_i closed e hport
          cases h
          refine .refused e (fun q port hq => ?_) (fun q hq => ?_) rfl
          · have := hq.port
            rw [hport] at this
            cases this
          · obtain rfl : p = q := Option.some.inj (hl.symm.trans hq.looked)
            rcases hq.verdict with hv | ⟨c, hc', hne'⟩
            · exact hm hv
            · rw [hc] at hc'
              exact hne' (Option.some.inj hc').symm
        · rename_i closed port hport
          obtain ⟨b, hb, h⟩ := Go.bind_eq_ok.1 h
          cases h
          exact .accepted p port ⟨h4, hd, hl, Int.lt_of_not_ge hm, hc, by rw [hport]⟩ hb (checkPort_open hport)

theorem registerPeer_registered {a : Bool × Answer Unit} (h : r.registerPeer cmpMinor now addr np hs = .ok a) :
    Registered cmpMinor now r addr np hs a := by
  unfold registerPeer at h
  simp only at h
  split at h
  · rename_i h4
    rw [Bool.not_eq_true'] at h4
    cases h
    refine .refused _ (fun p port hp => ?_) (fun p hp => ?_) rfl
    · rw [hp.is4] at h4; cases h4
    · rw [hp.is4] at h4; cases h4
  · rename_i h4
    simp only [Bool.not_eq_true', Bool.not_eq_false] at h4
    split at h
    · rename_i hd
      cases h
      exact .refused _ (fun p port hp => hp.not_declared hd) (fun p hp => hp.not_declared hd) rfl
    · rename_i hd
      split at h
      · cases h
      · rename_i e he
        have hl : r.lookUp addr = if e.is .notFound then some .zero else none := by
          unfold lookUp; rw [he]
        split at h
        · rename_i hnf
          cases h
          have hno : ∀ p, r.lookUp addr ≠ some p := fun p hp => by
            rw [hl, if_neg (by simpa using hnf)] at hp
            cases hp
          exact .refused _ (fun p port hp => hno p hp.looked) (fun p hp => hno p hp.looked) rfl
        · rename_i hnf
          split at h
          · rename_i hz
            cases hz
          · exact judge_registered h4 hd (by rw [hl, if_pos (by simpa using hnf)]) h
      · rename_i p hp
        exact judge_registered h4 hd (by unfold lookUp; rw [hp]) h

theorem Passes.not_judged {p q : Peer} {port : UInt16} (h : Passes cmpMinor r addr np hs p port) :
    ¬ Judged cmpMinor r addr np q := by
  intro hj
  obtain rfl : p = q := Option.some.inj (h.looked.symm.trans hj.looked)
  rcases hj.verdict with hv | ⟨c, hc, hne⟩
  · exact absurd h.minor (Int.not_lt.2 hv)
  · rw [h.app] at hc
    exact hne (Option.some.inj hc).symm

theorem addr_of_lookUp {p : Peer} (hl : r.lookUp addr = some p) : p.addr = addr ∨ p = .zero := by
  unfold lookUp at hl
  split at hl
  · rename_i q hq
    cases hl
    exact Storage.addr_of_peer hq
  · split at hl
    · cases hl
      exact .inr rfl
    · cases hl
  · cases hl

theorem state_of_lookUp {p : Peer} {st : State} (h4 : addr.is4 = true) (hl : r.lookUp addr = some p)
    (hst : r.storage.stateOf addr = some st) : p.state = st ∧ p.addr = addr ∧ r.storage.peer addr = .ok p := by
  unfold lookUp at hl
  split at hl
  · rename_i q hq
    cases hl
    obtain ⟨h1, h2, -⟩ := Storage.stateOf_of_peer h4 hq hst
    exact ⟨h1, h2, hq⟩
  · rename_i e he
    split at hl
    · rename_i hnf
      rw [stateOf_of_notFound he hnf h4] at hst
      cases hst
    · cases hl
  · cases hl

/-- **An accepted peer** is in the connections, and is stored as connected when its name is valid. -/
theorem store_accepted {p : Peer} {port : UInt16} {a : Answer Unit} (h4 : addr.is4 = true)
    (h : store { r.taken addr with connections := r.connections.insert addr np } (acceptedPeer p now addr port np hs) =
      .ok a) :
    a.registry.connections = r.connections.insert addr np ∧
    (validString hs.nodeName = true ∧ a.result = .ok () ∧ (∃ q, a.registry.storage.peer addr = .ok q) ∧
        (∀ b, b.is4 = true → a.registry.storage.stateOf b =
          if b = addr then some .connected else r.storage.stateOf b) ∨
      validString hs.nodeName = false ∧ (∃ e, a.result = .error e) ∧ a.registry.storage = r.storage) := by
  refine ⟨store_connections h, ?_⟩
  rcases store_cases h with ⟨s, hput, rfl⟩ | ⟨e, hput, rfl⟩
  · obtain ⟨-, hn, -⟩ := Storage.putPeer_eq_ok.1 hput
    exact .inl ⟨hn, rfl, Storage.readable_put hput, fun b hb => Storage.stateOf_putPeer hb hput⟩
  · refine .inr ⟨?_, ⟨e, rfl⟩, rfl⟩
    cases hn : validString hs.nodeName with
    | false => rfl
    | true =>
      have hok := (Storage.putPeer_eq_ok (s := r.storage) (p := acceptedPeer p now addr port np hs)).2 ⟨h4, hn, rfl⟩
      exact absurd (hok.symm.trans hput) (by simp)

/-- **A peer judged hostile** leaves the connections alone, and is stored as hostile when it can be stored. -/
theorem store_judged {p : Peer} {a : Answer Unit} (h : (r.taken addr).store (hostilePeer p np) = .ok a) :
    a.registry.connections = r.connections ∧
    (p.addr.is4 = true ∧ validString (combinedName np.handshake) = true ∧ (∀ b, b.is4 = true →
        a.registry.storage.stateOf b = if b = p.addr then some .hostile else r.storage.stateOf b) ∨
      ¬ (p.addr.is4 = true ∧ validString (combinedName np.handshake) = true) ∧ a.registry.storage = r.storage) := by
  have hconn : a.registry.connections = (r.taken addr).connections := store_connections h
  refine ⟨hconn, ?_⟩
  rcases store_cases h with ⟨s, hput, rfl⟩ | ⟨e, hput, rfl⟩
  · obtain ⟨h4, hn, -⟩ := Storage.putPeer_eq_ok.1 hput
    exact .inl ⟨h4, hn, fun b hb => Storage.stateOf_putPeer hb hput⟩
  · refine .inr ⟨fun ⟨h4, hn⟩ => ?_, rfl⟩
    have hok := (Storage.putPeer_eq_ok (s := r.storage) (p := hostilePeer p np)).2 ⟨h4, hn, rfl⟩
    exact absurd (hok.symm.trans hput) (by simp)

end Registry

theorem newRegistry_connections {scheme : Proto.Scheme} {declared : Proto.TCPAddr} {versions : List Version}
    {s : Storage} {r : Registry} (h : newRegistry scheme declared versions s = .ok r) : r.connections = ∅ := by
  unfold newRegistry at h
  split at h
  · cases h; rfl
  · split at h <;> cases h
    rfl

theorem newRegistry_storage {scheme : Proto.Scheme} {declared : Proto.TCPAddr} {versions : List Version} {s : Storage}
    {r : Registry} (h : newRegistry scheme declared versions s = .ok r) : r.storage = s := by
  unfold newRegistry at h
  split at h
  · cases h; rfl
  · split at h <;> cases h
    rfl

/-- **What a step can do**: unregister an address, make one hostile, register a peer, or neither touch the connections
nor change a state. -/
inductive Effect (cmpMinor : Version → Version → Int) (r : Registry) (r' : Registry) : Op → Prop where
  | quiet (op : Op) : (∀ now a, op ≠ .unregisterPeer now a) → (∀ now a np hs, op ≠ .registerPeer now a np hs) →
      (∀ a, op ≠ .markAsHostile a) → r'.connections = r.connections → StatesKept r.storage r'.storage →
      Effect cmpMinor r r' op
  | unregistered (now : Int) (a : Addr) :
      (∃ p, r.storage.peer a = .ok p) ∧ r'.connections = r.connections.erase a ∨
        (∀ p, r.storage.peer a ≠ .ok p) ∧ r'.connections = r.connections →
      StatesKept r.storage r'.storage → Effect cmpMinor r r' (.unregisterPeer now a)
  | marked (a : Option Addr) : r'.connections = r.connections → MadeHostile r.storage r'.storage →
      Effect cmpMinor r r' (.markAsHostile a)
  | registered (now : Int) (addr : Addr) (np : Conn) (hs : Handshake) (a : Bool × Answer Unit) :
      Registry.Registered cmpMinor now r addr np hs a → r' = a.2.registry →
      Effect cmpMinor r r' (.registerPeer now addr np hs)

theorem step_effect {cmpMinor : Version → Version → Int} {r r' : Registry} {op : Op} (h : Step cmpMinor r op r') :
    Effect cmpMinor r r' op := by
  cases op with
  | suggestVersion now addr =>
    obtain ⟨a, ha, he⟩ := Go.bind_eq_ok.1 h
    cases he
    obtain ⟨hc, hk⟩ := Registry.suggestVersion_kept ha
    exact .quiet _ (by simp) (by simp) (by simp) hc.connections hk
  | registerPeer now addr np hs =>
    obtain ⟨a, ha, he⟩ := Go.bind_eq_ok.1 h
    cases he
    exact .registered now addr np hs a (Registry.registerPeer_registered ha) rfl
  | unregisterPeer now addr =>
    obtain ⟨a, ha, he⟩ := Go.bind_eq_ok.1 h
    cases he
    obtain ⟨hc, hk⟩ := Registry.unregisterPeer_kept ha
    exact .unregistered now addr hc hk
  | updatePeerScore addr score =>
    obtain ⟨a, ha, he⟩ := Go.bind_eq_ok.1 h
    cases he
    obtain ⟨hc, hk⟩ := Registry.updatePeerScore_kept ha
    exact .quiet _ (by simp) (by simp) (by simp) hc.connections hk
  | appendAddresses addresses =>
    obtain ⟨a, ha, he⟩ := Go.bind_eq_ok.1 h
    cases he
    obtain ⟨hc, hk⟩ := Registry.appendAddresses_kept ha
    exact .quiet _ (by simp) (by simp) (by simp) hc.connections hk
  | takeAvailableAddresses now =>
    obtain ⟨a, ha, he⟩ := Go.bind_eq_ok.1 h
    cases he
    obtain ⟨hc, hk⟩ := Registry.takeAvailableAddresses_kept ha
    exact .quiet _ (by simp) (by simp) (by simp) hc hk
  | markAsHostile addr =>
    obtain ⟨a, ha, he⟩ := Go.bind_eq_ok.1 h
    cases he
    obtain ⟨hc, hk⟩ := Registry.markAsHostile_kept ha
    exact .marked addr hc hk

/-- **What could be read can be read** after every operation. -/
theorem step_readable {cmpMinor : Version → Version → Int} {r r' : Registry} {op : Op} (h : Step cmpMinor r op r')
    {b : Addr} (hb : b.is4 = true) (hr : ∃ p, r.storage.peer b = .ok p) : ∃ p, r'.storage.peer b = .ok p := by
  cases step_effect h with
  | quiet _ _ _ _ _ hk => exact hk.readable b hb hr
  | unregistered _ _ _ hk => exact hk.readable b hb hr
  | marked _ _ hk => exact hk.readable b hb hr
  | registered now addr np hs a ha he =>
    cases he
    cases ha with
    | accepted p port hp hst _ => exact Registry.store_readable hst hb hr
    | judged p hj hst _ => exact Registry.store_readable hst hb hr
    | refused e _ _ hreg =>
      rw [hreg]
      exact hr

end Peers
end ForkDetector
