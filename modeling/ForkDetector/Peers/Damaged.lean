import ForkDetector.Peers.Keys
/-!
# Damaged — records that do not decode

`peers` fails on a record whose bytes or whose version it cannot read.  `peer` fails on the version, but for the bytes
it returns the zero peer and no error, so that `MarkAsHostile` and `RegisterPeer` go on and write over the record
(`sound_iff`).
-/
namespace ForkDetector
namespace Peers

open Proto (Version Handshake Conn)

/-- The bytes of the record decode, and its version parses. -/
def Record.Reads (rec : Record) : Prop := ∃ v ver, rec = .value v ∧ v.version = some ver

/-- The operation returns an error and leaves the database unchanged. -/
def Registry.Refuses {α : Type} (r : Registry) (x : Res (Answer α)) : Prop :=
  ∃ a e, x = .ok a ∧ a.result = .error e ∧ a.registry.storage = r.storage

/-- **The two readers agree on the record of an address**, and a record that they cannot read is not written over. -/
structure Sound (cmpMinor : Version → Version → Int) (s : Storage) (a : Addr) (rec : Record) : Prop where
  fails : (∃ e, s.peer a = .error (.err e)) ↔ ∃ e, Storage.listed (a.bytes, rec) = .error (.err e)
  agrees : ∀ p, s.peer a = .ok p ↔ Storage.listed (a.bytes, rec) = .ok p
  registerPeer : ¬ rec.Reads → ∀ (r : Registry) now np hs, r.storage = s →
    ∃ closed b, r.registerPeer cmpMinor now a np hs = .ok (closed, b) ∧ r.Refuses (.ok b)
  updatePeerScore : ¬ rec.Reads → ∀ (r : Registry) score, r.storage = s → r.Refuses (r.updatePeerScore a score)
  unregisterPeer : ¬ rec.Reads → ∀ (r : Registry) now, r.storage = s → r.Refuses (r.unregisterPeer now a)
  markAsHostile : ¬ rec.Reads → ∀ r : Registry, r.storage = s → r.Refuses (r.markAsHostile (some a))
  suggestVersion : ¬ rec.Reads → ∀ (r : Registry) now, r.storage = s → r.Refuses (r.suggestVersion now a)

section
variable {s : Storage} {a : Addr} {v : Value}

theorem listed_of_value (h4 : a.is4 = true) : Storage.listed (a.bytes, .value v) =
    match v.version with
    | none => Go.fail (.wrap "failed to collect peers" (.text "invalid version"))
    | some ver => .ok ⟨⟨a, v.port⟩, v.nonce, v.name, ver, v.state, v.nextAttempt, v.score, none⟩ := by
  unfold Storage.listed
  rw [keyFromBytes_of_is4 h4]
  rfl

theorem listed_of_undecodable (h4 : a.is4 = true) : Storage.listed (a.bytes, .undecodable) =
    Go.fail (.wrap "failed to collect peers" (.text "cannot decode")) := by
  unfold Storage.listed
  rw [keyFromBytes_of_is4 h4]
  rfl

/-- A version that does not parse fails `peer`. -/
theorem peer_of_unparsed (h4 : a.is4 = true) (hr : s.records[a.bytes]? = some (.value v))
    (hn : ¬ (Record.value v).Reads) : s.peer a = Go.fail (.text "invalid version") := by
  rw [Storage.peer_of_value h4 hr]
  cases hv : v.version with
  | none => rfl
  | some ver => exact absurd ⟨v, ver, rfl, hv⟩ hn

end

namespace Registry
variable {cmpMinor : Version → Version → Int} {now : Int} {r : Registry} {a : Addr} {e : Go.Err Sentinel}

/-! ## An error of the storage ends every operation -/

theorem updatePeerScore_of_error {score : Int} (h : r.storage.peer a = .error (.err e)) :
    r.Refuses (r.updatePeerScore a score) := by
  unfold updatePeerScore
  rw [h]
  exact ⟨_, _, rfl, rfl, rfl⟩

theorem unregisterPeer_of_error (h : r.storage.peer a = .error (.err e)) : r.Refuses (r.unregisterPeer now a) := by
  unfold unregisterPeer
  rw [h]
  exact ⟨_, _, rfl, rfl, rfl⟩

theorem markAsHostile_of_error (h : r.storage.peer a = .error (.err e)) (he : e.is .notFound = false) :
    r.Refuses (r.markAsHostile (some a)) := by
  unfold markAsHostile
  simp only [h, he, Bool.not_false, if_true]
  exact ⟨_, _, rfl, rfl, rfl⟩

theorem suggestVersion_of_error (h : r.storage.peer a = .error (.err e)) (he : e.is .notFound = false) :
    r.Refuses (r.suggestVersion now a) := by
  unfold suggestVersion
  simp only [h, he, Bool.not_false, if_true]
  exact ⟨_, _, rfl, rfl, rfl⟩

theorem registerPeer_of_error {np : Conn} {hs : Handshake} (h4 : a.is4 = true)
    (h : r.storage.peer a = .error (.err e)) (he : e.is .notFound = false) :
    ∃ closed b, r.registerPeer cmpMinor now a np hs = .ok (closed, b) ∧ r.Refuses (.ok b) := by
  unfold registerPeer
  simp only [h4, Bool.not_true, Bool.false_eq_true, if_false, h, he, Bool.not_false, if_true]
  split
  · exact ⟨_, _, rfl, _, _, rfl, rfl, rfl⟩
  · exact ⟨_, _, rfl, _, _, rfl, rfl, rfl⟩

/-- **`MarkAsHostile` writes over a record** whose bytes do not decode. -/
theorem markAsHostile_of_undecodable (h4 : a.is4 = true) (hr : r.storage.records[a.bytes]? = some .undecodable) :
    ∃ b, r.markAsHostile (some a) = .ok b ∧ b.result = .ok () ∧ b.registry.storage.stateOf a = some .hostile := by
  have hput := putPeer_storable (s := r.storage) (p := { Peer.zero with addressPort := ⟨a, 0⟩, state := .hostile })
    ⟨h4, validString_nil⟩
  have hmark : r.markAsHostile (some a) = store { r with pending := r.pending.erase a }
      { Peer.zero with addressPort := ⟨a, 0⟩, state := .hostile } := by
    unfold markAsHostile
    simp only [Storage.peer_of_undecodable h4 hr]
  rw [hmark]
  unfold store
  rw [hput]
  exact ⟨_, rfl, rfl, (Storage.stateOf_putPeer h4 hput).trans (if_pos rfl)⟩

end Registry

/-- The readers do not agree on a record whose bytes do not decode. -/
theorem not_sound {cmpMinor : Version → Version → Int} {s : Storage} {a : Addr} (h4 : a.is4 = true)
    (hr : s.records[a.bytes]? = some .undecodable) : ¬ Sound cmpMinor s a .undecodable := fun h => by
  have hzero := (h.agrees .zero).1 (Storage.peer_of_undecodable h4 hr)
  rw [listed_of_undecodable h4] at hzero
  cases hzero

/-- **When the readers agree on a record**: when its bytes decode. -/
theorem sound_iff (cmpMinor : Version → Version → Int) {s : Storage} {a : Addr} {rec : Record} (h4 : a.is4 = true)
    (hr : s.records[a.bytes]? = some rec) : Sound cmpMinor s a rec ↔ rec ≠ .undecodable := by
  cases rec with
  | undecodable => exact iff_of_false (not_sound h4 hr) (not_not.2 rfl)
  | value v =>
    refine iff_of_true ?_ (fun h => by cases h)
    have herr : ¬ (Record.value v).Reads → ∀ r : Registry, r.storage = s →
        r.storage.peer a = Go.fail (.text "invalid version") := fun hn r hs => hs ▸ peer_of_unparsed h4 hr hn
    refine ⟨?_, fun p => ?_, fun hn r now np hs hrs => Registry.registerPeer_of_error h4 (herr hn r hrs) rfl,
      fun hn r score hrs => Registry.updatePeerScore_of_error (herr hn r hrs),
      fun hn r now hrs => Registry.unregisterPeer_of_error (herr hn r hrs),
      fun hn r hrs => Registry.markAsHostile_of_error (herr hn r hrs) rfl,
      fun hn r now hrs => Registry.suggestVersion_of_error (herr hn r hrs) rfl⟩
    all_goals
      rw [Storage.peer_of_value h4 hr, listed_of_value h4]
      generalize v.version = version
      cases version <;> simp [Go.fail]

/-- A record of an address with a version that does not parse. -/
def Sample.unparsed : Record := .value ⟨6868, 0, [], none, .unknown, 0, none, validString_nil⟩

def Sample.holding (rec : Record) : Storage := ⟨(∅ : Std.ExtTreeMap Bytes Record).insert Sample.addr.bytes rec⟩

theorem Sample.holding_record (rec : Record) : (Sample.holding rec).records[Sample.addr.bytes]? = some rec :=
  Std.ExtTreeMap.getElem?_insert_self

theorem sound_iff_sample : Sound Sample.cmpMinor (Sample.holding Sample.unparsed) Sample.addr Sample.unparsed :=
  (sound_iff _ rfl (Sample.holding_record _)).2 (by decide)

/-- **A record that does not decode** is read as the zero peer, and `MarkAsHostile` writes over it. -/
theorem damaged_written_over : (Sample.holding .undecodable).records[Sample.addr.bytes]? = some .undecodable ∧
    (Sample.holding .undecodable).peer Sample.addr = .ok .zero ∧
    ¬ Sound Sample.cmpMinor (Sample.holding .undecodable) Sample.addr .undecodable ∧
    ∃ b, Registry.markAsHostile { Sample.registry with storage := Sample.holding .undecodable } (some Sample.addr) =
      .ok b ∧ b.result = .ok () ∧ b.registry.storage.stateOf Sample.addr = some .hostile := by
  have hrec := Sample.holding_record .undecodable
  have hover := Registry.markAsHostile_of_undecodable
    (r := { Sample.registry with storage := Sample.holding .undecodable }) rfl hrec
  exact ⟨hrec, Storage.peer_of_undecodable rfl hrec, not_sound rfl hrec, hover⟩

end Peers
end ForkDetector
