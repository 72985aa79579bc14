import ForkDetector.Peers.Hostile
/-!
# Refusals — what an error of `RegisterPeer` leaves behind

Every refusal closes the connection and leaves the registry as it is, but for the pending entry, except three: a
connection to the node itself and a declared address that does not parse leave the connection open, and a node name
that the storage refuses does so after the connection was added.
-/
namespace ForkDetector
namespace Peers

open Proto (Version Handshake Conn)

/-- **What an error of `RegisterPeer` should leave**: a closed connection, and all but the pending entry. -/
structure Undone (r : Registry) (addr : Addr) (a : Bool × Answer Unit) : Prop where
  closed : a.1 = true
  connections : a.2.registry.connections = r.connections
  storage : a.2.registry.storage = r.storage
  rest : a.2.registry = r ∨ a.2.registry = r.taken addr

namespace Registry
variable {cmpMinor : Version → Version → Int} {now : Int} {r : Registry} {addr : Addr} {np : Conn} {hs : Handshake}

theorem undone_of_taken {a : Bool × Answer Unit} (hc : a.1 = true) (hr : a.2.registry = r.taken addr) :
    Undone r addr a :=
  ⟨hc, by rw [hr]; rfl, by rw [hr]; rfl, .inr hr⟩

/-- The checks that a peer passes before its declared address is looked at. -/
structure Admitted (cmpMinor : Version → Version → Int) (r : Registry) (addr : Addr) (np : Conn) (p : Peer) : Prop where
  is4 : addr.is4 = true
  not_declared : addr ≠ r.declared
  looked : r.lookUp addr = some p
  minor : cmpMinor np.handshake.version p.version < 2
  app : np.handshake.appName.getLast? = some r.scheme

theorem Passes.admitted {p : Peer} {port : UInt16} (h : Passes cmpMinor r addr np hs p port) :
    Admitted cmpMinor r addr np p :=
  ⟨h.is4, h.not_declared, h.looked, h.minor, h.app⟩

theorem registerPeer_self (h4 : addr.is4 = true) (hd : addr = r.declared) :
    ∃ e, r.registerPeer cmpMinor now addr np hs = .ok (false, ⟨r.taken addr, .error e⟩) := by
  unfold registerPeer
  simp only [h4, Bool.not_true, Bool.false_eq_true, if_false]
  rw [if_pos hd]
  exact ⟨_, rfl⟩

theorem registerPeer_of_lookUp {p : Peer} (h4 : addr.is4 = true) (hd : addr ≠ r.declared)
    (hl : r.lookUp addr = some p) :
    r.registerPeer cmpMinor now addr np hs = (r.taken addr).judge cmpMinor now p addr np hs := by
  unfold registerPeer
  simp only [h4, Bool.not_true, Bool.false_eq_true, if_false]
  rw [if_neg hd]
  unfold lookUp at hl
  split at hl
  · rename_i q hq
    cases hl
    rw [hq]
    rfl
  · rename_i e he
    split at hl
    · rename_i hnf
      cases hl
      rw [he]
      simp only [hnf, Bool.not_true, Bool.false_eq_true, if_false]
      rw [if_neg (by simp [Peer.zero])]
      rfl
    · cases hl
  · cases hl

theorem Admitted.refused {p : Peer} {closed : Bool} {e : Go.Err Sentinel} (h : Admitted cmpMinor r addr np p)
    (hport : checkPort addr hs = (closed, .error e)) :
    r.registerPeer cmpMinor now addr np hs = .ok (closed, ⟨r.taken addr, .error e⟩) := by
  rw [registerPeer_of_lookUp h.is4 h.not_declared h.looked]
  unfold judge
  rw [if_neg (Int.not_le.2 h.minor), h.app, hport]
  simp only [taken, ne_eq, not_true_eq_false, if_false]

/-- A peer with an invalid name is not stored. -/
theorem store_of_invalid {p : Peer} (h4 : p.addr.is4 = true) (hn : validString p.name = false) :
    ∃ e, r.store p = .ok ⟨r, .error e⟩ := by
  have hput : r.storage.putPeer p = Go.fail (.text "invalid peer name") := by
    unfold Storage.putPeer
    rw [show p.addressPort.addr.is4 = true from h4, if_neg (by simp), dif_neg (by simp [hn])]
  unfold store
  rw [hput]
  exact ⟨_, rfl⟩

theorem Passes.stored {p : Peer} {port : UInt16} (h : Passes cmpMinor r addr np hs p port) :
    r.registerPeer cmpMinor now addr np hs = (do
      let a ← store { r.taken addr with connections := r.connections.insert addr np }
        (acceptedPeer p now addr port np hs)
      .ok (false, a)) := by
  have hport : checkPort addr hs = (false, .ok port) := by
    have hopen : (checkPort addr hs).1 = false := checkPort_open (Prod.ext rfl h.port)
    exact Prod.ext hopen h.port
  rw [registerPeer_of_lookUp h.is4 h.not_declared h.looked]
  unfold judge
  rw [if_neg (Int.not_le.2 h.minor), h.app, hport]
  simp only [taken, ne_eq, not_true_eq_false, if_false]

theorem checkPort_unparsed (he : hs.declaredAddr.empty = false) (hp : hs.declaredAddr.parsed = none) :
    ∃ e, checkPort addr hs = (false, .error e) := by
  unfold checkPort
  rw [he, hp]
  exact ⟨_, rfl⟩

/-- Of the errors of `checkPort`, one leaves the connection open. -/
theorem unparsed_of_checkPort {e : Go.Err Sentinel} (h : checkPort addr hs = (false, .error e)) :
    hs.declaredAddr.empty = false ∧ hs.declaredAddr.parsed = none := by
  unfold checkPort at h
  split at h
  · cases h
  · rename_i he
    split at h
    · rename_i hp
      exact ⟨by simpa using he, hp⟩
    · split at h
      · cases h
      · split at h
        · cases h
        · split at h <;> cases h

theorem closed_of_not_is4 {a : Bool × Answer Unit} (h4 : addr.is4 = false)
    (h : r.registerPeer cmpMinor now addr np hs = .ok a) : a.1 = true := by
  unfold registerPeer at h
  simp only [h4, Bool.not_false, if_true] at h
  cases h
  rfl

theorem closed_of_not_lookUp {a : Bool × Answer Unit} (h4 : addr.is4 = true) (hd : addr ≠ r.declared)
    (hl : r.lookUp addr = none) (h : r.registerPeer cmpMinor now addr np hs = .ok a) : a.1 = true := by
  unfold registerPeer at h
  simp only [h4, Bool.not_true, Bool.false_eq_true, if_false] at h
  rw [if_neg hd] at h
  unfold lookUp at hl
  split at hl
  · cases hl
  · rename_i e he
    split at hl
    · cases hl
    · rename_i hnf
      rw [he] at h
      simp only [hnf, Bool.not_false, if_true] at h
      cases h
      rfl
  · rename_i msg hp
    rw [hp] at h
    cases h

/-- A peer that was looked up is judged, or admitted, unless its application name is empty. -/
theorem admitted_of_not_judged {p : Peer} {a : Bool × Answer Unit} (h4 : addr.is4 = true) (hd : addr ≠ r.declared)
    (hl : r.lookUp addr = some p) (hj : ¬ Judged cmpMinor r addr np p)
    (h : r.registerPeer cmpMinor now addr np hs = .ok a) : Admitted cmpMinor r addr np p := by
  have hm : ¬ cmpMinor np.handshake.version p.version ≥ 2 := fun hv => hj ⟨h4, hd, hl, .inl hv⟩
  refine ⟨h4, hd, hl, Int.not_le.1 hm, ?_⟩
  rw [registerPeer_of_lookUp h4 hd hl] at h
  unfold judge at h
  rw [if_neg hm] at h
  cases happ : np.handshake.appName.getLast? with
  | none =>
    rw [happ] at h
    cases h
  | some c =>
    by_cases hc : c = r.scheme
    · rw [hc]
    · exact absurd ⟨h4, hd, hl, .inr ⟨c, happ, hc⟩⟩ hj

/-- **The errors of `RegisterPeer`**: those that undo, and the three that do not. -/
theorem registerPeer_error {a : Bool × Answer Unit} {e : Go.Err Sentinel}
    (h : r.registerPeer cmpMinor now addr np hs = .ok a) (he : a.2.result = .error e) :
    Undone r addr a ∨ (addr.is4 = true ∧ addr = r.declared) ∨
      (∃ p, Admitted cmpMinor r addr np p ∧ hs.declaredAddr.empty = false ∧ hs.declaredAddr.parsed = none) ∨
      ∃ p port, Passes cmpMinor r addr np hs p port ∧ validString hs.nodeName = false := by
  cases registerPeer_registered h with
  | accepted p port hp hst _ =>
    rcases (store_accepted hp.is4 hst).2 with ⟨-, hok, -⟩ | ⟨hn, -⟩
    · rw [hok] at he
      cases he
    · exact .inr (.inr (.inr ⟨p, port, hp, hn⟩))
  | judged p hj hst hclosed =>
    rcases store_cases hst with ⟨s, -, ha⟩ | ⟨e', -, ha⟩
    · rw [ha] at he
      cases he
    · exact .inl (undone_of_taken hclosed (by rw [ha]))
  | refused e' hnp hnj ha =>
    have hundone : a.1 = true → Undone r addr a := fun hclosed => undone_of_taken hclosed (by rw [ha])
    by_cases h4 : addr.is4 = true
    · by_cases hd : addr = r.declared
      · exact .inr (.inl ⟨h4, hd⟩)
      · cases hl : r.lookUp addr with
        | none => exact .inl (hundone (closed_of_not_lookUp h4 hd hl h))
        | some p =>
          have hadm := admitted_of_not_judged h4 hd hl (hnj p) h
          rcases hport : checkPort addr hs with ⟨closed, e'' | port⟩
          · rw [hadm.refused hport] at h
            cases h
            cases closed with
            | true => exact .inl (hundone rfl)
            | false => exact .inr (.inr (.inl ⟨p, hadm, unparsed_of_checkPort hport⟩))
          · exact absurd ⟨h4, hd, hl, hadm.minor, hadm.app, by rw [hport]⟩ (hnp p port)
    · exact .inl (hundone (closed_of_not_is4 (Bool.eq_false_iff.2 h4) h))

end Registry

/-- **An error of `RegisterPeer` closes the connection and changes nothing** but the pending entry, exactly when the
address is not the declared one, an admitted peer declares no address or one that parses, and the node name of a peer
that passes all checks is valid. -/
theorem errors_undone_iff (cmpMinor : Version → Version → Int) (now : Int) (r : Registry) (addr : Addr) (np : Conn)
    (hs : Handshake) :
    (∀ a e, r.registerPeer cmpMinor now addr np hs = .ok a → a.2.result = .error e → Undone r addr a) ↔
      (addr.is4 = true → addr ≠ r.declared) ∧
      (∀ p, r.Admitted cmpMinor addr np p → hs.declaredAddr.empty = true ∨ hs.declaredAddr.parsed ≠ none) ∧
      ∀ p port, r.Passes cmpMinor addr np hs p port → validString hs.nodeName = true := by
  constructor
  · intro h
    refine ⟨fun h4 hd => ?_, fun p hadm => ?_, fun p port hp => ?_⟩
    · obtain ⟨e, hreg⟩ : ∃ e, r.registerPeer cmpMinor now addr np hs = _ := Registry.registerPeer_self h4 hd
      exact absurd (h _ e hreg rfl).closed (by simp)
    · by_contra hno
      obtain ⟨hne, hp⟩ := not_or.1 hno
      obtain ⟨e, hport⟩ : ∃ e, Registry.checkPort addr hs = _ :=
        Registry.checkPort_unparsed (Bool.eq_false_iff.2 hne) (not_not.1 hp)
      exact absurd (h _ e (hadm.refused hport) rfl).closed (by simp)
    · by_contra hn
      obtain ⟨e, hst⟩ := Registry.store_of_invalid (r := { r.taken addr with
        connections := r.connections.insert addr np }) (p := Registry.acceptedPeer p now addr port np hs) hp.is4
        (Bool.eq_false_iff.2 hn)
      have hstored : r.registerPeer cmpMinor now addr np hs = _ := hp.stored
      rw [hst] at hstored
      exact absurd (h _ e hstored rfl).closed (by simp)
  · rintro ⟨hself, hparsed, hname⟩ a e h he
    rcases Registry.registerPeer_error h he with hu | ⟨h4, hd⟩ | ⟨p, hadm, hne, hnone⟩ | ⟨p, port, hp, hn⟩
    · exact hu
    · exact absurd hd (hself h4)
    · rcases hparsed p hadm with h' | h'
      · rw [hne] at h'
        cases h'
      · exact absurd hnone h'
    · rw [hname p port hp] at hn
      cases hn

/-- A handshake of this network with a node name that is no UTF-8 text. -/
def Sample.unnamed : Handshake := Sample.handshake [119, 87] [255]

def Sample.refuse (r : Registry) : Res (Bool × Answer Unit) :=
  r.registerPeer Sample.cmpMinor 0 Sample.addr (Sample.conn 1 Sample.unnamed) Sample.unnamed

/-- A peer whose name is no UTF-8 text is refused, with its connection left open and in the connections. -/
theorem refused_name_connected : ∃ r a e, Sample.run [.suggestVersion 0 Sample.addr] = .ok r ∧
    Sample.refuse r = .ok a ∧ a.2.result = .error e ∧ r.connections[Sample.addr]? = none ∧
    a.2.registry.connections[Sample.addr]? = some (Sample.conn 1 Sample.unnamed) ∧ ¬ Undone r Sample.addr a := by
  obtain ⟨r, hr⟩ := Go.exists_of_isOk (x := Sample.run [.suggestVersion 0 Sample.addr]) (by decide +kernel)
  have hread := Sample.run_reads (fun r => (Sample.refuse r).map fun a =>
    (a.1, a.2.result.isOk, r.connections[Sample.addr]?, a.2.registry.connections[Sample.addr]?)) hr
    (v := .ok (false, false, none, some (Sample.conn 1 Sample.unnamed))) (by decide +kernel)
  cases ha : Sample.refuse r with
  | error e =>
    rw [ha] at hread
    cases hread
  | ok a =>
    rw [ha] at hread
    obtain ⟨hopen, hres, hbefore, hafter⟩ : a.1 = false ∧ a.2.result.isOk = false ∧
        r.connections[Sample.addr]? = none ∧
        a.2.registry.connections[Sample.addr]? = some (Sample.conn 1 Sample.unnamed) := by
      simpa [Except.map] using hread
    cases he : a.2.result with
    | ok u =>
      rw [he] at hres
      cases hres
    | error e =>
      refine ⟨r, a, e, hr, ha, he, hbefore, hafter, fun hu => ?_⟩
      exact absurd (hopen.symm.trans hu.closed) (by simp)

end Peers
end ForkDetector
