import Std.Data.ExtTreeMap
import ForkDetector.Lib.Go
/-!
# Proto — the values that come from outside the repository

Block IDs, blocks, micro-block announcements, network addresses, handshakes and connections, as far as the repository
reads them, and the two address functions of the node library, which stay parameters (`Gowaves`).  Databases and Go
maps are extensional ordered maps: two maps with the same records are equal, and they list their records in key order.
-/
namespace ForkDetector

open Std (ExtTreeMap)

abbrev Bytes := List UInt8

/-- The errors that the repository tells apart with `errors.Is`. -/
inductive Sentinel where
  | notFound
  | parentNotFound
  | refNotFound
deriving DecidableEq

abbrev Res (α : Type) := Go.Outcome Sentinel α

namespace Proto

def digestSize : Nat := 32
def signatureSize : Nat := 64

/-- A block ID: a digest or a signature. -/
structure BlockID where
  bytes : Bytes
  size : bytes.length = digestSize ∨ bytes.length = signatureSize
deriving DecidableEq

instance : Ord BlockID := ⟨compareOn BlockID.bytes⟩
instance : Std.TransOrd BlockID := inferInstanceAs (Std.TransCmp (compareOn BlockID.bytes))

theorem BlockID.ext_bytes {a b : BlockID} (h : a.bytes = b.bytes) : a = b := by
  cases a; cases b; cases h; rfl

theorem BlockID.bytes_ne_nil (id : BlockID) : id.bytes ≠ [] := by
  intro h
  have := id.size
  rw [h] at this
  simp [digestSize, signatureSize] at this

instance : Std.LawfulEqOrd BlockID where
  eq_of_compare h := BlockID.ext_bytes (Std.LawfulEqOrd.eq_of_compare (α := Bytes) h)

/-- The zero value of a block ID variable: the signature type, all bytes zero. -/
def BlockID.zero : BlockID := ⟨List.replicate signatureSize 0, .inr (List.length_replicate ..)⟩

def newBlockIDFromBytes (b : Bytes) : Res BlockID :=
  if h : b.length = digestSize ∨ b.length = signatureSize then .ok ⟨b, h⟩
  else Go.fail (.text "invalid block ID size")

@[simp] theorem newBlockIDFromBytes_bytes (id : BlockID) : newBlockIDFromBytes id.bytes = .ok id := by
  simp [newBlockIDFromBytes, id.size]

abbrev Scheme := UInt8
abbrev PublicKey := Bytes

structure WavesAddress where
  bytes : Bytes
deriving DecidableEq

instance : Ord WavesAddress := ⟨compareOn WavesAddress.bytes⟩
instance : Std.TransOrd WavesAddress := inferInstanceAs (Std.TransCmp (compareOn WavesAddress.bytes))

instance : Std.LawfulEqOrd WavesAddress where
  eq_of_compare {a b} h := by
    cases a; cases b
    exact congrArg WavesAddress.mk (Std.LawfulEqOrd.eq_of_compare (α := Bytes) h)

/-- The address functions of the node library. -/
structure Gowaves where
  newAddressFromPublicKey : Scheme → PublicKey → Except (Go.Err Sentinel) WavesAddress
  newAddressFromBytes : Bytes → Except (Go.Err Sentinel) WavesAddress

/-- An address reads back from its own bytes. -/
def Gowaves.RoundTrips (gw : Gowaves) : Prop :=
  ∀ scheme pk a, gw.newAddressFromPublicKey scheme pk = .ok a → gw.newAddressFromBytes a.bytes = .ok a

/-- Every public key has an address: it is a hash of the key. -/
def Gowaves.Addresses (gw : Gowaves) : Prop := ∀ scheme pk, ∃ a, gw.newAddressFromPublicKey scheme pk = .ok a

structure Block where
  blockID : BlockID
  parent : BlockID
  timestamp : UInt64
  baseTarget : UInt64
  generatorPublicKey : PublicKey
deriving DecidableEq

structure MicroBlockInv where
  totalBlockID : BlockID
  reference : BlockID
deriving DecidableEq

end Proto

/-! ## Network addresses -/

/-- A `netip.Addr`: no bytes for the zero value, four for IPv4, sixteen and perhaps a zone for IPv6. -/
structure Addr where
  bytes : Bytes
  zone : String
  size : bytes.length = 0 ∨ bytes.length = 4 ∨ bytes.length = 16
  zoned : zone ≠ "" → bytes.length = 16
deriving DecidableEq

namespace Addr

instance : Ord Addr := ⟨compareLex (compareOn Addr.bytes) (compareOn Addr.zone)⟩
instance : Std.TransOrd Addr :=
  inferInstanceAs (Std.TransCmp (compareLex (compareOn Addr.bytes) (compareOn Addr.zone)))

theorem ext_fields {a b : Addr} (hb : a.bytes = b.bytes) (hz : a.zone = b.zone) : a = b := by
  cases a; cases b; cases hb; cases hz; rfl

instance : Std.LawfulEqOrd Addr where
  eq_of_compare {a b} h := by
    have hlex := Ordering.then_eq_eq.1 h
    exact ext_fields (Std.LawfulEqOrd.eq_of_compare (α := Bytes) hlex.1)
      (Std.LawfulEqOrd.eq_of_compare (α := String) hlex.2)

def is4 (a : Addr) : Bool := decide (a.bytes.length = 4)

def from4 (b0 b1 b2 b3 : UInt8) : Addr := ⟨[b0, b1, b2, b3], "", .inr (.inl rfl), fun h => absurd rfl h⟩

def zero : Addr := ⟨[], "", .inl rfl, fun h => absurd rfl h⟩

/-- No zone needs no length. -/
theorem not_zoned (b : Bytes) (hz : "" ≠ "") : b.length = 16 := absurd rfl hz

/-- `netip.AddrFromSlice`: four or sixteen bytes, and no zone. -/
def fromSlice (b : Bytes) : Option Addr :=
  if h : b.length = 4 ∨ b.length = 16 then some ⟨b, "", .inr h, not_zoned b⟩ else none

def isLoopback (a : Addr) : Bool :=
  if a.bytes.length = 4 then a.bytes.head? == some 127
  else a.bytes == List.replicate 15 0 ++ [1]

theorem zone_of_is4 {a : Addr} (h : a.is4 = true) : a.zone = "" := by
  by_contra hz
  have := a.zoned hz
  simp only [is4, decide_eq_true_eq] at h
  omega

/-- IPv4 addresses with the same bytes are the same. -/
theorem eq_of_is4 {a b : Addr} (ha : a.is4 = true) (hb : b.is4 = true) (h : a.bytes = b.bytes) : a = b :=
  ext_fields h (by rw [zone_of_is4 ha, zone_of_is4 hb])

end Addr

structure AddrPort where
  addr : Addr
  port : UInt16
deriving DecidableEq

/-! ## Connections -/

namespace Proto

structure Version where
  major : UInt32
  minor : UInt32
  patch : UInt32
deriving DecidableEq

/-- A `proto.TCPAddr`, as far as it is read: whether it is empty, and what its text parses to. -/
structure TCPAddr where
  empty : Bool
  parsed : Option AddrPort
deriving DecidableEq

structure Handshake where
  appName : Bytes
  version : Version
  nodeName : Bytes
  nodeNonce : UInt64
  declaredAddr : TCPAddr
deriving DecidableEq

/-- A `peer.Peer`: a connection, told apart from others by a number, with the handshake that the other side sent and
what the text of its remote address parses to. -/
structure Conn where
  id : Nat
  handshake : Handshake
  remote : Option AddrPort
deriving DecidableEq

end Proto

end ForkDetector
