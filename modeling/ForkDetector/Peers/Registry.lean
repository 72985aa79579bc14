import Std.Data.ExtTreeSet
import Mathlib.Data.List.Sort
import ForkDetector.Lib.Run
import ForkDetector.Peers.Storage
/-!
# Registry — the peers and their connections

`peers/registry.go` and `peers/version_provider.go` over the peers database.  An operation returns an answer with the
registry it leaves, and a panic ends the process.  The clock is an argument, and the comparison of versions that the
node library makes stays a parameter (`cmpMinor`).
-/
namespace ForkDetector
namespace Peers

open Std (ExtTreeMap ExtTreeSet)
open Proto (Version Handshake Conn TCPAddr)

structure Registry where
  scheme : Proto.Scheme
  versions : List Version
  declared : Addr
  storage : Storage
  connections : ExtTreeMap Addr Conn
  pending : ExtTreeSet Addr

/-- What an operation answers, and the registry it leaves. -/
structure Answer (α : Type) where
  registry : Registry
  result : Except (Go.Err Sentinel) α

/-! ## Versions -/

/-- `proto.ByVersion` reversed. -/
def Newer (v w : Version) : Prop :=
  w.major < v.major ∨ v.major = w.major ∧ (w.minor < v.minor ∨ v.minor = w.minor ∧ w.patch ≤ v.patch)

instance : DecidableRel Newer := fun v w => inferInstanceAs (Decidable
  (w.major < v.major ∨ v.major = w.major ∧ (w.minor < v.minor ∨ v.minor = w.minor ∧ w.patch ≤ v.patch)))

def newVersions (vs : List Version) : List Version :=
  (vs.insertionSort Newer).map fun v => ⟨v.major, v.minor, 0⟩

def bestVersion (vs : List Version) : Res Version := Go.index vs 0

def nextVersion (vs : List Version) (v : Version) : Res Version :=
  let i := vs.findIdx fun x => v.major == x.major && v.minor == x.minor
  if i + 1 ≥ vs.length then Go.index vs 0 else Go.index vs (i + 1)

def newRegistry (scheme : Proto.Scheme) (declared : TCPAddr) (versions : List Version) (storage : Storage) :
    Except (Go.Err Sentinel) Registry :=
  if declared.empty then .ok ⟨scheme, newVersions versions, Addr.zero, storage, ∅, ∅⟩
  else match declared.parsed with
    | none => .error (.text "failed to parse declared address")
    | some ap => .ok ⟨scheme, newVersions versions, ap.addr, storage, ∅, ∅⟩

/-! ## Times -/

def second : Int := 1000000000
def delay : Int := 600 * second

/-- `t.Round(time.Second)`: the nearest second, halfway up. -/
def roundSecond (t : Int) : Int := (t + second / 2) / second * second

namespace Registry

/-- `return r.storage.putPeer(p)`. -/
def store (r : Registry) (p : Peer) : Res (Answer Unit) :=
  match r.storage.putPeer p with
  | .ok s => .ok ⟨{ r with storage := s }, .ok ()⟩
  | .error (.err e) => .ok ⟨r, .error e⟩
  | .error (.panic msg) => Go.panic msg

/-- Whether the connection is closed, and the port of the declared address. -/
def checkPort (addr : Addr) (handshake : Handshake) : Bool × Except (Go.Err Sentinel) UInt16 :=
  if handshake.declaredAddr.empty then (false, .ok 0)
  else match handshake.declaredAddr.parsed with
    | none => (false, .error (.text "failed to register peer: invalid declared address: %w"))
    | some ha =>
      if ha.addr.isLoopback then (true, .error (.text "failed to regiester peer: declared address is loopback: '%s'"))
      else if !ha.addr.is4 then (true, .error (.text "failed to register peer: declared address is not IPv4: '%s'"))
      else if ha.addr = addr then (false, .ok ha.port)
      else (false, .ok 0)

/-- `fmt.Sprintf("%s(%s)", NodeName, AppName)`. -/
def combinedName (hs : Handshake) : Bytes := hs.nodeName ++ [40] ++ hs.appName ++ [41]

def hostilePeer (p : Peer) (np : Conn) : Peer :=
  { p with state := .hostile, version := np.handshake.version, name := combinedName np.handshake }

def acceptedPeer (p : Peer) (now : Int) (addr : Addr) (port : UInt16) (np : Conn) (handshake : Handshake) : Peer :=
  { p with
    addressPort := ⟨addr, port⟩
    nonce := handshake.nodeNonce
    name := handshake.nodeName
    version := handshake.version
    state := .connected
    nextAttempt := roundSecond now
    p := some np }

/-- What `RegisterPeer` does with the peer it has looked up; the flag says whether the connection is closed. -/
def judge (cmpMinor : Version → Version → Int) (now : Int) (r : Registry) (p : Peer) (addr : Addr) (np : Conn)
    (handshake : Handshake) : Res (Bool × Answer Unit) :=
  if cmpMinor np.handshake.version p.version ≥ 2 then do
    let a ← r.store (hostilePeer p np)
    .ok (true, a)
  else match np.handshake.appName.getLast? with
    | none => Go.panic "index out of range"
    | some c =>
      if c ≠ r.scheme then do
        let a ← r.store (hostilePeer p np)
        .ok (true, a)
      else match checkPort addr handshake with
        | (closed, .error e) => .ok (closed, ⟨r, .error e⟩)
        | (closed, .ok port) => do
          let a ← store { r with connections := r.connections.insert addr np }
            (acceptedPeer p now addr port np handshake)
          .ok (closed, a)

def registerPeer (cmpMinor : Version → Version → Int) (now : Int) (r0 : Registry) (addr : Addr) (np : Conn)
    (handshake : Handshake) : Res (Bool × Answer Unit) :=
  let r := { r0 with pending := r0.pending.erase addr }
  if !addr.is4 then .ok (true, ⟨r, .error (.text "failed to register peer: not an IPv4 address: '%s'")⟩)
  else if addr = r.declared then .ok (false, ⟨r, .error (.text "failed to register peer: connection to itself")⟩)
  else match r.storage.peer addr with
    | .error (.panic msg) => Go.panic msg
    | .error (.err e) =>
      if !e.is .notFound then .ok (true, ⟨r, .error (.wrap "failed to register peer" e)⟩)
      -- the peer returned with the error is the zero peer
      else if Peer.zero.state = .hostile then
        .ok (true, ⟨r, .error (.text "peer '%s' already registered as hostile")⟩)
      else r.judge cmpMinor now .zero addr np handshake
    | .ok p => r.judge cmpMinor now p addr np handshake

def updatePeerScore (r : Registry) (addr : Addr) (score : Int) : Res (Answer Unit) :=
  match r.storage.peer addr with
  | .error (.panic msg) => Go.panic msg
  | .error (.err e) => .ok ⟨r, .error (.wrap "failed to update peer score" e)⟩
  | .ok p => r.store { p with score := some score }

def unregisterPeer (now : Int) (r : Registry) (addr : Addr) : Res (Answer Unit) :=
  match r.storage.peer addr with
  | .error (.panic msg) => Go.panic msg
  | .error (.err e) => .ok ⟨r, .error (.wrap "failed to unregister peer '%s'" e)⟩
  | .ok p =>
    store { r with pending := r.pending.erase addr, connections := r.connections.erase addr }
      { p with nextAttempt := roundSecond (now + delay), p := none }

/-- The argument is what the text of the address parses to. -/
def markAsHostile (r0 : Registry) (addr : Option Addr) : Res (Answer Unit) :=
  match addr with
  | none => .ok ⟨r0, .error (.text "failed to register peer as hostile")⟩
  | some a =>
    let r := { r0 with pending := r0.pending.erase a }
    match r.storage.peer a with
    | .error (.panic msg) => Go.panic msg
    | .error (.err e) =>
      if !e.is .notFound then .ok ⟨r, .error (.wrap "failed to register peer as hostile" e)⟩
      else r.store { Peer.zero with addressPort := ⟨a, 0⟩, state := .hostile }
    | .ok p => r.store { p with addressPort := ⟨a, 0⟩, state := .hostile }

/-- The answer to a version that was stored, or the error of the storage. -/
def answerVersion (wrap : Go.Err Sentinel → Go.Err Sentinel) (ver : Version) (a : Answer Unit) : Answer Version :=
  match a.result with
  | .ok () => ⟨a.registry, .ok ver⟩
  | .error e => ⟨a.registry, .error (wrap e)⟩

def suggestVersion (now : Int) (r : Registry) (addr : Addr) : Res (Answer Version) :=
  match r.storage.peer addr with
  | .error (.panic msg) => Go.panic msg
  | .error (.err e) =>
    if !e.is .notFound then .ok ⟨r, .error e⟩
    else do
      let ver ← bestVersion r.versions
      let a ← r.store { Peer.zero with
        addressPort := ⟨addr, 0⟩, version := ver, nextAttempt := roundSecond (now + delay), state := .unknown }
      .ok (answerVersion (.wrap "failed to save peer") ver a)
  | .ok peer =>
    match peer.state with
    | .unknown => do
      let ver ← nextVersion r.versions peer.version
      let a ← r.store { peer with version := ver, nextAttempt := roundSecond (now + delay) }
      .ok (answerVersion id ver a)
    | .connected => .ok ⟨r, .ok peer.version⟩
    | .hostile => .ok ⟨r, .error (.text "peer is hostile")⟩
    | .other _ _ => .ok ⟨r, .error (.text "impossible peer state")⟩

/-- The loop of `AppendAddresses`, from the count so far; the arguments are what the texts of addresses parse to. -/
def appendAddresses (r : Registry) (count : Nat) : List (Option AddrPort) → Res (Answer Nat)
  | [] => .ok ⟨r, .ok count⟩
  | none :: addresses => r.appendAddresses count addresses
  | some ap :: addresses =>
    if !ap.addr.is4 then r.appendAddresses count addresses
    else if ap.addr.isLoopback then r.appendAddresses count addresses
    else if ap.addr = r.declared then r.appendAddresses count addresses
    else match r.storage.hasPeer ap.addr with
      | .error (.panic msg) => Go.panic msg
      | .error (.err _) => .ok ⟨r, .ok count⟩
      | .ok true => r.appendAddresses count addresses
      | .ok false => do
        let a ← r.store { Peer.zero with addressPort := ap, state := .unknown }
        match a.result with
        | .error _ => .ok ⟨a.registry, .ok count⟩
        | .ok () => a.registry.appendAddresses (count + 1) addresses

/-- Whether `TakeAvailableAddresses` passes a peer over. -/
def unavailable (now : Int) (r : Registry) (p : Peer) : Bool :=
  decide (p.state = .hostile) || decide (p.addressPort.port = 0) || decide (p.addr = r.declared) ||
    decide (p.nextAttempt > now) || r.connections.contains p.addr || r.pending.contains p.addr

def takeFrom (now : Int) (r : Registry) : List Peer → Registry × List AddrPort
  | [] => (r, [])
  | p :: ps =>
    if r.unavailable now p then takeFrom now r ps
    else
      let (r', addresses) := takeFrom now { r with pending := r.pending.insert p.addr } ps
      (r', p.addressPort :: addresses)

def takeAvailableAddresses (now : Int) (r : Registry) : Res (Answer (List AddrPort)) :=
  match r.storage.peers with
  | .error (.panic msg) => Go.panic msg
  | .error (.err e) => .ok ⟨r, .error (.wrap "failed to get available addresses from storage" e)⟩
  | .ok ps =>
    let (r', addresses) := takeFrom now r ps
    .ok ⟨r', .ok addresses⟩

/-- `Connections`; `srt` is the sort by upper-case name. -/
def listConnections {byName : Peer → Peer → Bool} (rng : Go.MapRange Addr Conn) (srt : Go.UnstableSort Peer byName)
    (r : Registry) : Res (List Peer) := do
  let connections ← (rng.entries r.connections.toList).mapM fun e => do
    let sp ← Go.wrap "failed to get active connetcions" (r.storage.peer e.1)
    .ok { sp with p := some e.2 }
  .ok (srt.sort connections)

end Registry

/-! ## Operations -/

/-- The operations that change a registry, each with the clock where it reads it. -/
inductive Op where
  | suggestVersion (now : Int) (addr : Addr)
  | registerPeer (now : Int) (addr : Addr) (np : Conn) (handshake : Handshake)
  | unregisterPeer (now : Int) (addr : Addr)
  | updatePeerScore (addr : Addr) (score : Int)
  | appendAddresses (addresses : List (Option AddrPort))
  | takeAvailableAddresses (now : Int)
  | markAsHostile (addr : Option Addr)

def Registry.apply (cmpMinor : Version → Version → Int) (r : Registry) : Op → Res Registry
  | .suggestVersion now addr => do let a ← r.suggestVersion now addr; .ok a.registry
  | .registerPeer now addr np handshake => do
    let a ← r.registerPeer cmpMinor now addr np handshake
    .ok a.2.registry
  | .unregisterPeer now addr => do let a ← r.unregisterPeer now addr; .ok a.registry
  | .updatePeerScore addr score => do let a ← r.updatePeerScore addr score; .ok a.registry
  | .appendAddresses addresses => do let a ← r.appendAddresses 0 addresses; .ok a.registry
  | .takeAvailableAddresses now => do let a ← r.takeAvailableAddresses now; .ok a.registry
  | .markAsHostile addr => do let a ← r.markAsHostile addr; .ok a.registry

/-- A step of a registry: an operation that returns. -/
def Step (cmpMinor : Version → Version → Int) (r : Registry) (op : Op) (r' : Registry) : Prop :=
  r.apply cmpMinor op = .ok r'

end Peers
end ForkDetector
