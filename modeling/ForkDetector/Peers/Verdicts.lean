import ForkDetector.Peers.Refusals
/-!
# Verdicts — whether a peer that is turned away is stored as hostile

`RegisterPeer` judges the peer it has looked up.  A peer without a record is the zero peer, which has no address, and
the storage refuses it; and the check of the network byte reads the last byte of a name that may be empty.  So a peer
of another network or version is closed and stored as hostile exactly when its address has a record that can be put
back (`turned_away_iff`).
-/
namespace ForkDetector
namespace Peers

open Proto (Version Handshake Conn)

theorem validString_append {s s' : Bytes} (h : validString s = true) (h' : validString s' = true) :
    validString (s ++ s') = true := by
  have hbytes : ByteArray.mk (s ++ s').toArray = ByteArray.mk s.toArray ++ ByteArray.mk s'.toArray := by
    apply ByteArray.ext
    simp
  unfold validString at *
  rw [ByteArray.validateUTF8_eq_true_iff] at *
  rw [hbytes]
  exact h.append h'

namespace Registry
variable {cmpMinor : Version → Version → Int} {now : Int} {r : Registry} {addr : Addr} {np : Conn} {hs : Handshake}

theorem validString_combinedName (hn : validString np.handshake.nodeName = true)
    (ha : validString np.handshake.appName = true) : validString (combinedName np.handshake) = true := by
  have hopen : validString [40] = true := by decide
  have hclose : validString [41] = true := by decide
  exact validString_append (validString_append (validString_append hn hopen) ha) hclose

/-- The handshake names another network, or none, or a version too far ahead of the one looked up. -/
def Unacceptable (cmpMinor : Version → Version → Int) (r : Registry) (addr : Addr) (np : Conn) : Prop :=
  np.handshake.appName.getLast? ≠ some r.scheme ∨
    ∃ p, r.lookUp addr = some p ∧ cmpMinor np.handshake.version p.version ≥ 2

theorem Unacceptable.not_admitted {p : Peer} (h : Unacceptable cmpMinor r addr np) :
    ¬ Admitted cmpMinor r addr np p := by
  intro hadm
  rcases h with happ | ⟨q, hq, hv⟩
  · exact happ hadm.app
  · obtain rfl : p = q := Option.some.inj (hadm.looked.symm.trans hq)
    exact absurd hadm.minor (Int.not_lt.2 hv)

/-- What is looked up at an address with a record whose version parses. -/
theorem lookUp_of_value {v : Value} {ver : Version} (h4 : addr.is4 = true)
    (hr : r.storage.records[addr.bytes]? = some (.value v)) (hv : v.version = some ver) :
    r.lookUp addr = some ⟨⟨addr, v.port⟩, v.nonce, v.name, ver, v.state, v.nextAttempt, v.score, none⟩ := by
  unfold lookUp
  rw [(Storage.peer_eq_ok h4).2 (.inr ⟨v, ver, hr, hv, rfl⟩)]

/-- A peer looked up that has an IPv4 address has a record. -/
theorem value_of_lookUp {p : Peer} (h4 : addr.is4 = true) (hl : r.lookUp addr = some p) (hp : p.addr.is4 = true) :
    ∃ v, r.storage.records[addr.bytes]? = some (.value v) ∧ v.version = some p.version := by
  unfold lookUp at hl
  split at hl
  · rename_i q hq
    cases hl
    rcases (Storage.peer_eq_ok h4).1 hq with ⟨-, rfl⟩ | ⟨v, ver, hr, hv, rfl⟩
    · cases hp
    · exact ⟨v, hr, hv⟩
  · split at hl
    · cases hl
      cases hp
    · cases hl
  · cases hl

/-- A hostile address has a record in that state. -/
theorem IsHostile.value (h4 : addr.is4 = true) (h : r.IsHostile addr) :
    ∃ v, r.storage.records[addr.bytes]? = some (.value v) ∧ v.state = .hostile := by
  unfold IsHostile at h
  rw [Storage.stateOf_of_is4 h4] at h
  split at h
  · rename_i v hr
    exact ⟨v, hr, Option.some.inj h⟩
  · cases h

/-- A peer that can be put back is judged, closed and stored as hostile. -/
theorem registerPeer_judged {p : Peer} (h4 : addr.is4 = true) (hd : addr ≠ r.declared) (hl : r.lookUp addr = some p)
    (hp : p.addr = addr) (hname : validString (combinedName np.handshake) = true)
    (hu : Unacceptable cmpMinor r addr np)
    (hread : cmpMinor np.handshake.version p.version ≥ 2 ∨ np.handshake.appName ≠ []) :
    ∃ a, r.registerPeer cmpMinor now addr np hs = .ok (true, a) ∧ (r.taken addr).store (hostilePeer p np) = .ok a := by
  obtain ⟨a, ha⟩ : ∃ a, (r.taken addr).store (hostilePeer p np) = .ok a := by
    have hput := (Storage.putPeer_eq_ok (s := r.storage) (p := hostilePeer p np)).2 ⟨hp ▸ h4, hname, rfl⟩
    unfold store
    rw [show (r.taken addr).storage = r.storage from rfl, hput]
    exact ⟨_, rfl⟩
  refine ⟨a, ?_, ha⟩
  rw [registerPeer_of_lookUp h4 hd hl]
  unfold judge
  by_cases hv : cmpMinor np.handshake.version p.version ≥ 2
  · rw [if_pos hv, ha]
    rfl
  · obtain ⟨c, hc⟩ := Option.ne_none_iff_exists'.1 (List.getLast?_eq_none_iff.not.2 (hread.resolve_left hv))
    have hne : c ≠ (r.taken addr).scheme := fun he => by
      rcases hu with happ | ⟨q, hq, hv'⟩
      · exact happ (he ▸ hc)
      · obtain rfl : p = q := Option.some.inj (hl.symm.trans hq)
        exact hv hv'
    rw [if_neg hv, hc]
    simp only
    rw [if_pos hne, ha]
    rfl

/-- A record whose version does not parse ends the call, with the connection closed. -/
theorem registerPeer_of_unparsed {v : Value} (h4 : addr.is4 = true) (hd : addr ≠ r.declared)
    (hr : r.storage.records[addr.bytes]? = some (.value v)) (hv : v.version = none) :
    ∃ e, r.registerPeer cmpMinor now addr np hs = .ok (true, ⟨r.taken addr, .error e⟩) := by
  have hpeer : r.storage.peer addr = Go.fail (.text "invalid version") := by
    rw [Storage.peer_of_value h4 hr, hv]
  unfold registerPeer
  simp only [h4, Bool.not_true, Bool.false_eq_true, if_false]
  rw [if_neg hd, hpeer]
  exact ⟨_, rfl⟩

end Registry

/-- **A peer turned away**: closed, in no connection, and stored as hostile. -/
structure TurnedAway (addr : Addr) (np : Conn) (a : Bool × Answer Unit) : Prop where
  closed : a.1 = true
  not_connected : ∀ b : Addr, a.2.registry.connections[b]? ≠ some np
  hostile : a.2.registry.IsHostile addr

/-- **When an unacceptable peer is turned away**, at any IPv4 address but the declared one: it was not connected, and
the address has a record that decodes, which is already hostile when its version does not parse; with one that parses,
the application name is not empty or the version is too far ahead. -/
theorem turned_away_iff (cmpMinor : Version → Version → Int) (now : Int) (r : Registry) {addr : Addr} (np : Conn)
    (hs : Handshake) (h4 : addr.is4 = true) (hd : addr ≠ r.declared)
    (hname : validString np.handshake.nodeName = true) (happ : validString np.handshake.appName = true)
    (hu : Registry.Unacceptable cmpMinor r addr np) :
    (∃ a, r.registerPeer cmpMinor now addr np hs = .ok a ∧ TurnedAway addr np a) ↔
      (∀ b : Addr, r.connections[b]? ≠ some np) ∧ ∃ v, r.storage.records[addr.bytes]? = some (.value v) ∧
        match v.version with
        | some ver => cmpMinor np.handshake.version ver ≥ 2 ∨ np.handshake.appName ≠ []
        | none => v.state = .hostile := by
  have hcombined := Registry.validString_combinedName hname happ
  constructor
  · rintro ⟨a, ha, hturned⟩
    cases Registry.registerPeer_registered ha with
    | accepted p port hp _ _ => exact absurd hp.admitted hu.not_admitted
    | judged p hj hst _ =>
      obtain ⟨hconn, hstored⟩ := Registry.store_judged hst
      refine ⟨fun b => hconn ▸ hturned.not_connected b, ?_⟩
      rcases hstored with ⟨hp4, -, -⟩ | ⟨hno, hsame⟩
      · obtain ⟨v, hr, hv⟩ := Registry.value_of_lookUp h4 hj.looked hp4
        refine ⟨v, hr, ?_⟩
        rw [hv]
        refine hj.verdict.imp_right fun ⟨c, hc, _⟩ he => ?_
        rw [he] at hc
        cases hc
      · -- a peer that could not be put back has no record, and so none that is hostile
        have hhost : r.IsHostile addr := by
          have := hturned.hostile
          unfold Registry.IsHostile at this ⊢
          rwa [hsame] at this
        obtain ⟨-, hpa, -⟩ := Registry.state_of_lookUp h4 hj.looked hhost
        exact absurd ⟨hpa ▸ h4, hcombined⟩ hno
    | refused e _ hnoj hreg =>
      have hhost : r.IsHostile addr := by
        have := hturned.hostile
        rwa [hreg] at this
      obtain ⟨v, hr, hst⟩ := Registry.IsHostile.value h4 hhost
      refine ⟨fun b => ?_, v, hr, ?_⟩
      · have := hturned.not_connected b
        rwa [hreg] at this
      · cases hv : v.version with
        | none => exact hst
        | some ver =>
          have hl := Registry.lookUp_of_value h4 hr hv
          exact absurd (Registry.admitted_of_not_judged h4 hd hl (hnoj _) ha) hu.not_admitted
  · rintro ⟨hnot, v, hr, hcond⟩
    cases hv : v.version with
    | none =>
      rw [hv] at hcond
      obtain ⟨e, he⟩ : ∃ e, r.registerPeer cmpMinor now addr np hs = _ :=
        Registry.registerPeer_of_unparsed h4 hd hr hv
      refine ⟨_, he, rfl, hnot, ?_⟩
      show r.storage.stateOf addr = some .hostile
      rw [Storage.stateOf_of_is4 h4, hr]
      exact congrArg some hcond
    | some ver =>
      rw [hv] at hcond
      obtain ⟨a, ha, hst⟩ : ∃ a, r.registerPeer cmpMinor now addr np hs = .ok (true, a) ∧ _ :=
        Registry.registerPeer_judged h4 hd (Registry.lookUp_of_value h4 hr hv) rfl hcombined hu hcond
      obtain ⟨hconn, hstored⟩ := Registry.store_judged hst
      refine ⟨_, ha, rfl, fun b => ?_, ?_⟩
      · rw [hconn]
        exact hnot b
      · rcases hstored with ⟨-, -, hstate⟩ | ⟨hno, -⟩
        · exact (hstate addr h4).trans (if_pos rfl)
        · exact absurd ⟨h4, hcombined⟩ hno

/-- An address that was given a version, and a peer of another network from it. -/
theorem turned_away_iff_sample : ∃ r a, Sample.run [.suggestVersion 0 Sample.addr] = .ok r ∧
    Registry.Unacceptable Sample.cmpMinor r Sample.addr (Sample.conn 1 Sample.other) ∧
    r.registerPeer Sample.cmpMinor 0 Sample.addr (Sample.conn 1 Sample.other) Sample.other = .ok a ∧
    TurnedAway Sample.addr (Sample.conn 1 Sample.other) a := by
  obtain ⟨r, hr⟩ := Go.exists_of_isOk (x := Sample.run [.suggestVersion 0 Sample.addr]) (by decide +kernel)
  have hstored := Sample.run_reads (fun r => (r.scheme, r.declared, r.connections.isEmpty,
      r.storage.records[Sample.addr.bytes]?)) hr
    (v := (87, .zero, true, some (.value ⟨0, 0, [], some ⟨1, 5, 0⟩, .unknown, 600000000000, none, validString_nil⟩)))
    (by decide +kernel)
  obtain ⟨hscheme, hrest⟩ := Prod.mk.inj hstored
  obtain ⟨hdeclared, hrest⟩ := Prod.mk.inj hrest
  obtain ⟨hconn, hrecord⟩ := Prod.mk.inj hrest
  have hu : Registry.Unacceptable Sample.cmpMinor r Sample.addr (Sample.conn 1 Sample.other) :=
    .inl (by rw [hscheme]; decide)
  have hne : Sample.addr ≠ r.declared := by rw [hdeclared]; decide
  obtain ⟨a, ha, hturned⟩ := (turned_away_iff Sample.cmpMinor 0 r (Sample.conn 1 Sample.other) Sample.other rfl hne
    (by decide) (by decide) hu).2 ⟨fun b => by
      rw [Std.ExtTreeMap.isEmpty_iff.1 hconn]
      simp, _, hrecord, .inr (by decide)⟩
  exact ⟨r, a, hr, hu, ha, hturned⟩

/-- **A peer of another network at an unknown address** is closed and not stored, and one without an application name
panics at a known one. -/
theorem unknown_not_stored :
    (Sample.addr ≠ Sample.registry.declared ∧
      Registry.Unacceptable Sample.cmpMinor Sample.registry Sample.addr (Sample.conn 1 Sample.other) ∧
      ¬ ∃ a, Sample.registry.registerPeer Sample.cmpMinor 0 Sample.addr (Sample.conn 1 Sample.other) Sample.other =
        .ok a ∧ TurnedAway Sample.addr (Sample.conn 1 Sample.other) a) ∧
    ∃ r, Sample.run [.suggestVersion 0 Sample.addr] = .ok r ∧
      Registry.Unacceptable Sample.cmpMinor r Sample.addr (Sample.conn 1 (Sample.handshake [] [110])) ∧
      r.registerPeer Sample.cmpMinor 0 Sample.addr (Sample.conn 1 (Sample.handshake [] [110]))
        (Sample.handshake [] [110]) = Go.panic "index out of range" := by
  refine ⟨⟨by decide, .inl (by decide), ?_⟩, ?_⟩
  · rintro ⟨a, ha, hturned⟩
    have hstate : (Sample.registry.registerPeer Sample.cmpMinor 0 Sample.addr (Sample.conn 1 Sample.other)
        Sample.other).map (fun a => a.2.registry.storage.stateOf Sample.addr) = .ok none := by decide +kernel
    rw [ha] at hstate
    exact absurd (hturned.hostile.symm.trans (Except.ok.inj hstate)) (by simp)
  · obtain ⟨r, hr⟩ := Go.exists_of_isOk (x := Sample.run [.suggestVersion 0 Sample.addr]) (by decide +kernel)
    have hpanic := Sample.run_reads (fun r => (r.registerPeer Sample.cmpMinor 0 Sample.addr
        (Sample.conn 1 (Sample.handshake [] [110])) (Sample.handshake [] [110])).map Prod.fst) hr
      (v := Go.panic "index out of range") (by decide +kernel)
    refine ⟨r, hr, .inl (by simp [Sample.conn, Sample.handshake]), ?_⟩
    cases h : r.registerPeer Sample.cmpMinor 0 Sample.addr (Sample.conn 1 (Sample.handshake [] [110]))
        (Sample.handshake [] [110]) with
    | ok a => rw [h] at hpanic; cases hpanic
    | error f =>
      rw [h] at hpanic
      exact congrArg Except.error (Except.error.inj hpanic)

end Peers
end ForkDetector
