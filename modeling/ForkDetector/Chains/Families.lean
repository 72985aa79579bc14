import ForkDetector.Lib.Keyspace
import ForkDetector.Chains.Database
/-!
# Families — the typed maps behind the keys

What the database is for: a typed map for each family of records.  Each family has keys of its own: a prefix byte tells
most of them apart, and blocks and numbers of IDs, which share one, differ in the length of their keys
(`Key.bytes_injective`).  So the database holds the records of the typed maps and no others (`Represents`), its reads
return the same, and a write to the maps is a write to the database.
-/
namespace ForkDetector
namespace Chains

open Proto (BlockID newBlockIDFromBytes Gowaves MicroBlockInv)
open Keyspace (Holds)

/-- The typed maps. -/
structure Families where
  scheme : Proto.Scheme
  counter : UInt8 → Option UInt64
  block : UInt64 → Option StoredBlock
  num : BlockID → Option UInt64
  link : UInt64 → Option Link
  leash : Addr → Option BlockID
  headToBlock : UInt64 → Option UInt64
  blockToHead : UInt64 → Option UInt64

def newFamilies (scheme : Proto.Scheme) : Families :=
  ⟨scheme, fun _ => none, fun _ => none, fun _ => none, fun _ => none, fun _ => none, fun _ => none, fun _ => none⟩

namespace Families

open Function (update)

def apply (f : Families) : Write → Families
  | .putBlocksCounter v => { f with counter := update f.counter blocksCounter (some (.ofNat v)) }
  | .putHeadsCounter v => { f with counter := update f.counter headsCounter (some (.ofNat v)) }
  | .putID id n => { f with num := update f.num id (some (.ofNat n)) }
  | .putBlock n b => { f with block := update f.block (.ofNat n) (some b) }
  | .putLink n l => { f with link := update f.link (.ofNat n) (some l) }
  | .putLeash addr id => { f with leash := update f.leash addr (some id) }
  | .putHeadToBlock h n => { f with headToBlock := update f.headToBlock (.ofNat h) (some (.ofNat n)) }
  | .putBlockToHead n h => { f with blockToHead := update f.blockToHead (.ofNat n) (some (.ofNat h)) }
  | .deleteBlockToHead n => { f with blockToHead := update f.blockToHead (.ofNat n) none }

def write (f : Families) (batch : List Write) : Families := batch.foldl apply f

/-- What a lookup in a typed map returns. -/
def found {α : Type} (msg : String) : Option α → Res α
  | some a => .ok a
  | none => Go.fail (.wrap msg (.sentinel .notFound))

def snapshot (f : Families) : Snapshot where
  getCounter counterID := .ok ((f.counter counterID).elim 0 UInt64.toNat)
  getNumOfBlockID id := found "failed to get number for ID '%s'" ((f.num id).map UInt64.toNat)
  getBlock num := found "failed to get block # %d" (f.block (.ofNat num))
  getLink num := found "failed to get link by number %d" (f.link (.ofNat num))
  getHeadByBlockNum blockNum :=
    found "failed to get head by block number %d" ((f.blockToHead (.ofNat blockNum)).map UInt64.toNat)

def getLeash (f : Families) (addr : Addr) : Res BlockID := found "failed to get leash for '%s'" (f.leash addr)

def exec (gw : Gowaves) (f : Families) (op : StorageOp) : Res Families :=
  (op.batch gw f.scheme f.snapshot).map f.write

def left (gw : Gowaves) (f : Families) (op : StorageOp) : Families :=
  match f.exec gw op with
  | .ok f' => f'
  | .error _ => f

def run (gw : Gowaves) (f : Families) (ops : List StorageOp) : Families := ops.foldl (left gw) f

end Families

/-! ## Keys -/

/-- The key of a record, with its arguments. -/
inductive Key where
  | counter (counterID : UInt8)
  | block (n : UInt64)
  | numOfID (id : BlockID)
  | link (n : UInt64)
  | leash (addr : Addr)
  | headToBlock (n : UInt64)
  | blockToHead (n : UInt64)
deriving DecidableEq

namespace Key

def pre : Key → UInt8
  | .counter _ => counterPrefix
  | .block _ | .numOfID _ => blockPrefix
  | .link _ => chainPrefix
  | .leash _ => leashPrefix
  | .headToBlock _ => headToBlockPrefix
  | .blockToHead _ => blockToHeadPrefix

def bytes : Key → Bytes
  | .counter counterID => counterKey counterID
  | .block n => numKeyBytes blockPrefix n.toNat
  | .numOfID id => idKeyBytes blockPrefix id
  | .link n => numKeyBytes chainPrefix n.toNat
  | .leash addr => addrKeyBytes addr
  | .headToBlock n => numKeyBytes headToBlockPrefix n.toNat
  | .blockToHead n => numKeyBytes blockToHeadPrefix n.toNat

/-- Addresses are IPv4. -/
def Fits : Key → Prop
  | .leash addr => addr.is4 = true
  | _ => True

theorem bytes_eq (k : Key) : ∃ rest, k.bytes = k.pre :: rest := by
  cases k <;> exact ⟨_, rfl⟩

end Key

theorem pow_uint64Size : 256 ^ uint64Size = 2 ^ 64 := by decide

theorem toNat_lt_pow (n : UInt64) : n.toNat < 256 ^ uint64Size := by
  rw [pow_uint64Size]
  exact n.toNat_lt

@[simp] theorem length_putUint64 (n : Nat) : (putUint64 n).length = uint64Size := BigEndian.length_encode _ _

theorem putUint64_ofNat (n : Nat) : putUint64 (UInt64.ofNat n).toNat = putUint64 n := by
  rw [UInt64.toNat_ofNat']
  exact BigEndian.encode_mod uint64Size n

theorem numKeyBytes_ofNat (p : UInt8) (n : Nat) : numKeyBytes p (UInt64.ofNat n).toNat = numKeyBytes p n :=
  congrArg (List.cons p) (putUint64_ofNat n)

theorem uint64_putUint64 (n : UInt64) : uint64 (putUint64 n.toNat) = .ok n.toNat := by
  unfold uint64
  rw [length_putUint64, if_neg (Nat.lt_irrefl _), List.take_of_length_le (Nat.le_of_eq (length_putUint64 _))]
  exact congrArg Except.ok (BigEndian.decode_encode (toNat_lt_pow n))

theorem numKeyBytes_injective {p : UInt8} {m n : UInt64} (h : numKeyBytes p m.toNat = numKeyBytes p n.toNat) : m = n :=
  UInt64.toNat_inj.1 (BigEndian.encode_injective (toNat_lt_pow m) (toNat_lt_pow n) (List.cons.inj h).2)

/-- A number of a block ID is not stored under the key of a block. -/
theorem numKeyBytes_ne_idKeyBytes (p : UInt8) (n : Nat) (id : BlockID) : numKeyBytes p n ≠ idKeyBytes p id := by
  intro h
  have hlen := congrArg List.length (List.cons.inj h).2
  rw [length_putUint64] at hlen
  have := id.size
  unfold uint64Size at hlen
  unfold Proto.digestSize Proto.signatureSize at this
  omega

/-- **Keys of different families or different arguments never coincide.** -/
theorem Key.bytes_injective {k k' : Key} (h : k.Fits) (h' : k'.Fits) (he : k.bytes = k'.bytes) : k = k' := by
  have hp : k.pre = k'.pre := by
    obtain ⟨rest, hk⟩ := k.bytes_eq
    obtain ⟨rest', hk'⟩ := k'.bytes_eq
    rw [hk, hk'] at he
    exact (List.cons.inj he).1
  cases k <;> cases k'
  case counter.counter i j => exact congrArg Key.counter (List.cons.inj (List.cons.inj he).2).1
  case block.block m n => exact congrArg Key.block (numKeyBytes_injective he)
  case block.numOfID m id => exact absurd he (numKeyBytes_ne_idKeyBytes blockPrefix _ id)
  case numOfID.block id n => exact absurd he.symm (numKeyBytes_ne_idKeyBytes blockPrefix _ id)
  case numOfID.numOfID id id' => exact congrArg Key.numOfID (Proto.BlockID.ext_bytes (List.cons.inj he).2)
  case link.link m n => exact congrArg Key.link (numKeyBytes_injective he)
  case leash.leash a b => exact congrArg Key.leash (Addr.eq_of_is4 h h' (List.cons.inj he).2)
  case headToBlock.headToBlock m n => exact congrArg Key.headToBlock (numKeyBytes_injective he)
  case blockToHead.blockToHead m n => exact congrArg Key.blockToHead (numKeyBytes_injective he)
  all_goals exact absurd hp (by simp only [Key.pre]; decide)

/-! ## Values -/

/-- The value under a key, as the typed maps have it. -/
def Families.value (cbor : Codecs) (f : Families) : Key → Option Bytes
  | .counter counterID => (f.counter counterID).map fun v => putUint64 v.toNat
  | .block n => (f.block n).map cbor.block.marshal
  | .numOfID id => (f.num id).map fun n => putUint64 n.toNat
  | .link n => (f.link n).map cbor.link.marshal
  | .leash addr => (f.leash addr).map BlockID.bytes
  | .headToBlock h => (f.headToBlock h).map fun n => putUint64 n.toNat
  | .blockToHead n => (f.blockToHead n).map fun h => putUint64 h.toNat

/-- **The database holds the records of the typed maps**, and no others. -/
structure Represents (cbor : Codecs) (db : Database) (f : Families) : Prop where
  scheme : db.scheme = f.scheme
  holds : Holds Key.bytes Key.Fits db.records (f.value cbor)

theorem represents_new (cbor : Codecs) (scheme : Proto.Scheme) :
    Represents cbor (newDatabase scheme) (newFamilies scheme) := by
  have hnone : (newFamilies scheme).value cbor = fun _ => none := by
    funext k
    cases k <;> rfl
  exact ⟨rfl, hnone ▸ Holds.empty⟩

/-! ## Writes -/

namespace Write

def key : Write → Key
  | .putBlocksCounter _ => .counter blocksCounter
  | .putHeadsCounter _ => .counter headsCounter
  | .putID id _ => .numOfID id
  | .putBlock n _ => .block (.ofNat n)
  | .putLink n _ => .link (.ofNat n)
  | .putLeash addr _ => .leash addr
  | .putHeadToBlock h _ => .headToBlock (.ofNat h)
  | .putBlockToHead n _ => .blockToHead (.ofNat n)
  | .deleteBlockToHead n => .blockToHead (.ofNat n)

def value (cbor : Codecs) : Write → Option Bytes
  | .putBlocksCounter v | .putHeadsCounter v => some (putUint64 v)
  | .putID _ n => some (putUint64 n)
  | .putBlock _ b => some (cbor.block.marshal b)
  | .putLink _ l => some (cbor.link.marshal l)
  | .putLeash _ id => some id.bytes
  | .putHeadToBlock _ n => some (putUint64 n)
  | .putBlockToHead _ h => some (putUint64 h)
  | .deleteBlockToHead _ => none

theorem entry_eq (cbor : Codecs) (w : Write) : w.entry cbor = match w.value cbor with
    | some v => .put w.key.bytes v
    | none => .delete w.key.bytes := by
  cases w <;> simp only [entry, value, key, Key.bytes, numKeyBytes_ofNat] <;> rfl

end Write

/-- **A write changes the value under its own key**, and no other. -/
theorem Families.value_apply (cbor : Codecs) (f : Families) (w : Write) :
    (f.apply w).value cbor = Function.update (f.value cbor) w.key (w.value cbor) := by
  funext k
  cases w <;> cases k <;> simp [apply, value, Write.key, Write.value, Function.update_apply, apply_ite (Option.map _),
    putUint64_ofNat, -UInt64.toNat_ofNat']

section
variable {cbor : Codecs} {db : Database} {f : Families}

theorem Represents.apply (h : Represents cbor db f) {w : Write} (hw : w.key.Fits) :
    Represents cbor (db.apply (w.entry cbor)) (f.apply w) := by
  have hinj : ∀ k k' : Key, k.Fits → k'.Fits → k.bytes = k'.bytes → k = k' := fun _ _ => Key.bytes_injective
  have hscheme : (f.apply w).scheme = f.scheme := by cases w <;> rfl
  have hvalue := Families.value_apply cbor f w
  rw [Write.entry_eq]
  cases hv : w.value cbor with
  | some v =>
    rw [hv] at hvalue
    exact ⟨h.scheme.trans hscheme.symm, hvalue ▸ h.holds.insert hinj hw v⟩
  | none =>
    rw [hv] at hvalue
    exact ⟨h.scheme.trans hscheme.symm, hvalue ▸ h.holds.erase hinj hw⟩

/-- **A batch of writes to the typed maps is the batch of its entries to the database.** -/
theorem Represents.write (h : Represents cbor db f) {batch : List Write} (hb : ∀ w ∈ batch, w.key.Fits) :
    Represents cbor (db.write cbor batch) (f.write batch) := by
  induction batch generalizing db f with
  | nil => exact h
  | cons w batch ih =>
    obtain ⟨hw, hrest⟩ := List.forall_mem_cons.1 hb
    exact ih (h.apply hw) hrest

/-! ## Reads -/

namespace Represents
variable (h : Represents cbor db f)
include h

theorem counter_record (counterID : UInt8) :
    db.records[counterKey counterID]? = (f.counter counterID).map fun v => putUint64 v.toNat :=
  h.holds.get (.counter counterID) trivial

theorem num_record (id : BlockID) :
    db.records[idKeyBytes blockPrefix id]? = (f.num id).map fun n => putUint64 n.toNat :=
  h.holds.get (.numOfID id) trivial

theorem block_record (n : Nat) :
    db.records[numKeyBytes blockPrefix n]? = (f.block (.ofNat n)).map cbor.block.marshal := by
  rw [← numKeyBytes_ofNat]
  exact h.holds.get (.block (.ofNat n)) trivial

theorem link_record (n : Nat) :
    db.records[numKeyBytes chainPrefix n]? = (f.link (.ofNat n)).map cbor.link.marshal := by
  rw [← numKeyBytes_ofNat]
  exact h.holds.get (.link (.ofNat n)) trivial

theorem leash_record {addr : Addr} (ha : addr.is4 = true) :
    db.records[addrKeyBytes addr]? = (f.leash addr).map BlockID.bytes := h.holds.get (.leash addr) ha

theorem blockToHead_record (n : Nat) :
    db.records[numKeyBytes blockToHeadPrefix n]? = (f.blockToHead (.ofNat n)).map fun h => putUint64 h.toNat := by
  rw [← numKeyBytes_ofNat]
  exact h.holds.get (.blockToHead (.ofNat n)) trivial

/-- **The reads of a snapshot are lookups in the typed maps.** -/
theorem snapshot : db.snapshot cbor = f.snapshot := by
  unfold Database.snapshot Families.snapshot
  congr 1
  · funext counterID
    rw [Database.getCounter, h.counter_record]
    cases f.counter counterID <;> simp [uint64_putUint64]
  · funext id
    rw [Database.getNumOfBlockID, h.num_record]
    cases f.num id <;> simp [Families.found, uint64_putUint64]
  · funext n
    rw [Database.getBlock, h.block_record]
    cases f.block (.ofNat n) <;> simp [Families.found, cbor.block.unmarshal_marshal]
  · funext n
    rw [Database.getLink, h.link_record]
    cases f.link (.ofNat n) <;> simp [Families.found, cbor.link.unmarshal_marshal]
  · funext n
    rw [Database.getHeadByBlockNum, h.blockToHead_record]
    cases f.blockToHead (.ofNat n) <;> simp [Families.found, uint64_putUint64]

theorem getLeash {addr : Addr} (ha : addr.is4 = true) : db.getLeash addr = f.getLeash addr := by
  rw [Database.getLeash, Families.getLeash, h.leash_record ha]
  cases f.leash addr with
  | none => rfl
  | some id =>
    have hsize : ¬ (id.bytes.length ≠ Proto.digestSize ∧ id.bytes.length ≠ Proto.signatureSize) := by
      have := id.size
      omega
    simp [Families.found, hsize]

end Represents

end

end Chains
end ForkDetector
