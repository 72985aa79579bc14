import ForkDetector.Proto
/-!
# Storage — the peers database

The records of `peers/storage.go` by the first four bytes of an address.  CBOR and the text of a version read back what
was written, so that a record holds the fields themselves; a record that something else wrote may not decode, or hold
a version that does not parse.  A decoded name is valid UTF-8.  Times are nanoseconds since the zero time.
-/
namespace ForkDetector
namespace Peers

open Std (ExtTreeMap)
open Proto (Version Conn)

/-- `State` of `state.go`, a byte: a record may hold one that has no name. -/
inductive State where
  | unknown
  | connected
  | hostile
  | other (code : UInt8) (unnamed : 3 ≤ code)
deriving DecidableEq

structure Peer where
  addressPort : AddrPort
  nonce : UInt64
  name : Bytes
  version : Version
  state : State
  nextAttempt : Int
  score : Option Int
  p : Option Conn
deriving DecidableEq

def Peer.zero : Peer := ⟨⟨Addr.zero, 0⟩, 0, [], ⟨0, 0, 0⟩, .unknown, 0, none, none⟩

def Peer.addr (p : Peer) : Addr := p.addressPort.addr

/-- `utf8.ValidString`. -/
def validString (s : Bytes) : Bool := (ByteArray.mk s.toArray).validateUTF8

theorem validString_nil : validString [] = true := by decide

/-- `value` of `storage.go`; the version is what its text parses to. -/
structure Value where
  port : UInt16
  nonce : UInt64
  name : Bytes
  version : Option Version
  state : State
  nextAttempt : Int
  score : Option Int
  name_valid : validString name = true
deriving DecidableEq

inductive Record where
  | undecodable
  | value (v : Value)
deriving DecidableEq

structure Storage where
  records : ExtTreeMap Bytes Record
deriving DecidableEq

def newStorage : Storage := ⟨∅⟩

def addrSize : Nat := 4

/-- `key.bytes`: the zero address has no bytes to slice. -/
def keyBytes (addr : Addr) : Res Bytes :=
  if addr.bytes.length < addrSize then Go.panic "slice bounds out of range" else .ok (addr.bytes.take addrSize)

def keyFromBytes (data : Bytes) : Res Addr :=
  if h : data.length = addrSize then .ok ⟨data, "", .inr (.inl h), Addr.not_zoned data⟩
  else Go.panic "invalid key size of peers storage"

namespace Storage

/-- A record that does not decode yields the zero peer and, as `err` is still nil there, no error. -/
def peer (s : Storage) (addr : Addr) : Res Peer := do
  let k ← keyBytes addr
  match s.records[k]? with
  | none => Go.fail (.sentinel .notFound)
  | some .undecodable => .ok .zero
  | some (.value v) =>
    match v.version with
    | none => Go.fail (.text "invalid version")
    | some ver => .ok ⟨⟨addr, v.port⟩, v.nonce, v.name, ver, v.state, v.nextAttempt, v.score, none⟩

def putPeer (s : Storage) (peer : Peer) : Res Storage :=
  if !peer.addressPort.addr.is4 then Go.fail (.text "invalid IP address length")
  else if h : validString peer.name = true then do
    let k ← keyBytes peer.addressPort.addr
    let v : Value := ⟨peer.addressPort.port, peer.nonce, peer.name, some peer.version, peer.state, peer.nextAttempt,
      peer.score, h⟩
    .ok ⟨s.records.insert k (.value v)⟩
  else Go.fail (.text "invalid peer name")

def peers (s : Storage) : Res (List Peer) :=
  s.records.toList.mapM fun r => do
    let addr ← keyFromBytes r.1
    match r.2 with
    | .undecodable => Go.fail (.wrap "failed to collect peers" (.text "cannot decode"))
    | .value v =>
      match v.version with
      | none => Go.fail (.wrap "failed to collect peers" (.text "invalid version"))
      | some ver => .ok ⟨⟨addr, v.port⟩, v.nonce, v.name, ver, v.state, v.nextAttempt, v.score, none⟩

def hasPeer (s : Storage) (addr : Addr) : Res Bool := do
  let k ← keyBytes addr
  .ok s.records[k]?.isSome

def stateOf (s : Storage) (addr : Addr) : Option State :=
  match s.records[addr.bytes.take addrSize]? with
  | some (.value v) => some v.state
  | _ => none

end Storage

/-! ## Records of IPv4 addresses -/

theorem take_of_is4 {a : Addr} (h : a.is4 = true) : a.bytes.take addrSize = a.bytes :=
  List.take_of_length_le (Nat.le_of_eq (of_decide_eq_true h))

theorem keyBytes_of_is4 {a : Addr} (h : a.is4 = true) : keyBytes a = .ok a.bytes := by
  unfold keyBytes
  rw [take_of_is4 h, if_neg]
  have := of_decide_eq_true h
  unfold addrSize
  omega

namespace Storage
variable {s s' : Storage} {a b : Addr} {p : Peer}

theorem peer_of_none (ha : a.is4 = true) (hr : s.records[a.bytes]? = none) :
    s.peer a = Go.fail (.sentinel .notFound) := by
  unfold peer
  rw [keyBytes_of_is4 ha]
  simp only [bind, Except.bind, hr]

theorem peer_of_undecodable (ha : a.is4 = true) (hr : s.records[a.bytes]? = some .undecodable) :
    s.peer a = .ok .zero := by
  unfold peer
  rw [keyBytes_of_is4 ha]
  simp only [bind, Except.bind, hr]

theorem peer_of_value {v : Value} (ha : a.is4 = true) (hr : s.records[a.bytes]? = some (.value v)) : s.peer a =
    match v.version with
    | none => Go.fail (.text "invalid version")
    | some ver => .ok ⟨⟨a, v.port⟩, v.nonce, v.name, ver, v.state, v.nextAttempt, v.score, none⟩ := by
  unfold peer
  rw [keyBytes_of_is4 ha]
  simp only [bind, Except.bind, hr]

theorem peer_eq_ok (ha : a.is4 = true) : s.peer a = .ok p ↔
    (s.records[a.bytes]? = some .undecodable ∧ p = .zero) ∨
    ∃ v ver, s.records[a.bytes]? = some (.value v) ∧ v.version = some ver ∧
      p = ⟨⟨a, v.port⟩, v.nonce, v.name, ver, v.state, v.nextAttempt, v.score, none⟩ := by
  unfold peer
  rw [keyBytes_of_is4 ha]
  simp only [bind, Except.bind]
  cases hr : s.records[a.bytes]? with
  | none => simp [Go.fail]
  | some r =>
    cases r with
    | undecodable => simp [eq_comm]
    | value v =>
      cases hv : v.version with
      | none => simp [Go.fail, hv]
      | some ver => simp [hv, eq_comm]

/-- **What a put writes**: the record of its own address, and only with a valid name. -/
theorem putPeer_eq_ok : s.putPeer p = .ok s' ↔ p.addr.is4 = true ∧ ∃ h : validString p.name = true,
    s' = ⟨s.records.insert p.addr.bytes (.value ⟨p.addressPort.port, p.nonce, p.name, some p.version, p.state,
      p.nextAttempt, p.score, h⟩)⟩ := by
  unfold putPeer Peer.addr
  by_cases h4 : p.addressPort.addr.is4 = true
  · rw [h4, if_neg (by simp)]
    by_cases hn : validString p.name = true
    · rw [dif_pos hn, keyBytes_of_is4 h4]
      simp only [bind, Except.bind, Except.ok.injEq, true_and, exists_prop_of_true hn]
      exact eq_comm
    · rw [dif_neg hn]
      simp [Go.fail, hn]
  · rw [Bool.not_eq_true] at h4
    simp [h4, Go.fail]

theorem stateOf_of_is4 (ha : a.is4 = true) : s.stateOf a = match s.records[a.bytes]? with
    | some (.value v) => some v.state
    | _ => none := by
  unfold stateOf
  rw [take_of_is4 ha]

theorem stateOf_of_hasPeer (ha : a.is4 = true) (h : s.hasPeer a = .ok false) : s.stateOf a = none := by
  unfold hasPeer at h
  rw [keyBytes_of_is4 ha] at h
  rw [stateOf_of_is4 ha, Option.isSome_eq_false_iff.1 (Except.ok.inj h) |> Option.isNone_iff_eq_none.1]

theorem peer_of_hasPeer (h : s.hasPeer a = .ok false) : s.peer a = .error (.err (.sentinel .notFound)) := by
  obtain ⟨k, hk, h⟩ := Go.bind_eq_ok.1 h
  have hnone : s.records[k]? = none := Option.isNone_iff_eq_none.1 (Option.isSome_eq_false_iff.1 (Except.ok.inj h))
  unfold peer
  rw [hk]
  simp only [bind, Except.bind, hnone]
  rfl

theorem stateOf_putPeer (ha : a.is4 = true) (h : s.putPeer p = .ok s') :
    s'.stateOf a = if a = p.addr then some p.state else s.stateOf a := by
  obtain ⟨hp, hn, rfl⟩ := putPeer_eq_ok.1 h
  rw [stateOf_of_is4 ha, stateOf_of_is4 ha]
  simp only [Go.getElem?_insert_eq]
  by_cases hab : a = p.addr
  · subst hab; simp
  · rw [if_neg hab, if_neg fun he => hab (Addr.eq_of_is4 ha hp he)]

/-- A peer that was read has the address it was read at, or is the zero peer. -/
theorem addr_of_peer (h : s.peer a = .ok p) : p.addr = a ∨ p = .zero := by
  obtain ⟨k, -, h⟩ := Go.bind_eq_ok.1 h
  split at h
  · cases h
  · cases h
    exact .inr rfl
  · split at h
    · cases h
    · cases h
      exact .inl rfl

theorem readable_put (h : s.putPeer p = .ok s') : ∃ q, s'.peer p.addr = .ok q := by
  obtain ⟨hp, hn, rfl⟩ := putPeer_eq_ok.1 h
  exact ⟨_, (peer_eq_ok hp).2 (.inr ⟨_, _, by rw [Go.getElem?_insert_eq, if_pos rfl], rfl, rfl⟩)⟩

/-- A peer that can be read can be read after a put. -/
theorem readable_putPeer (ha : a.is4 = true) (h : s.putPeer p = .ok s') (hr : ∃ q, s.peer a = .ok q) :
    ∃ q, s'.peer a = .ok q := by
  obtain ⟨hp, hn, rfl⟩ := putPeer_eq_ok.1 h
  obtain ⟨q, hq⟩ := hr
  by_cases hap : a.bytes = p.addr.bytes
  · exact ⟨_, (peer_eq_ok ha).2 (.inr ⟨_, _, by rw [Go.getElem?_insert_eq, if_pos hap], rfl, rfl⟩)⟩
  · refine ⟨q, (peer_eq_ok ha).2 ?_⟩
    rw [Go.getElem?_insert_eq, if_neg hap]
    exact (peer_eq_ok ha).1 hq

/-- A peer read in another state than unknown is stored in that state. -/
theorem stateOf_of_known (ha : a.is4 = true) (h : s.peer a = .ok p) (hst : p.state ≠ .unknown) :
    s.stateOf a = some p.state := by
  rw [stateOf_of_is4 ha]
  rcases (peer_eq_ok ha).1 h with ⟨-, rfl⟩ | ⟨v, ver, hr, -, rfl⟩
  · exact absurd rfl hst
  · rw [hr]

theorem stateOf_of_peer (ha : a.is4 = true) {st : State} (h : s.peer a = .ok p) (hs : s.stateOf a = some st) :
    p.state = st ∧ p.addr = a ∧ validString p.name = true := by
  rw [stateOf_of_is4 ha] at hs
  rcases (peer_eq_ok ha).1 h with ⟨hr, -⟩ | ⟨v, ver, hr, -, rfl⟩
  · rw [hr] at hs; cases hs
  · rw [hr] at hs
    exact ⟨Option.some.inj hs, rfl, v.name_valid⟩

end Storage

end Peers
end ForkDetector
