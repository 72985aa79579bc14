import ForkDetector.Lib.BigEndian
import ForkDetector.Chains.Crash
/-!
# Database — the blocks database as bytes

The storage of `chains/storage.go` over the one database that it has: an ordered map from keys to values, both of them
bytes.  Keys are built by hand from a prefix byte and a number, an ID or an address; numbers are `uint64`, the most
significant byte first, and blocks and links are CBOR.  An operation reads a snapshot and builds a batch.  A scan goes
over a range of keys in their bytewise order, its limit left out.
-/
namespace ForkDetector
namespace Chains

open Std (ExtTreeMap)
open Proto (BlockID newBlockIDFromBytes Gowaves MicroBlockInv)

/-- `cbor.Marshal` and `cbor.Unmarshal` of a type: what was marshalled reads back. -/
structure Cbor (α : Type) where
  marshal : α → Bytes
  unmarshal : Bytes → Option α
  unmarshal_marshal : ∀ a, unmarshal (marshal a) = some a

structure Codecs where
  block : Cbor StoredBlock
  link : Cbor Link

structure Database where
  scheme : Proto.Scheme
  records : ExtTreeMap Bytes Bytes

def newDatabase (scheme : Proto.Scheme) : Database := ⟨scheme, ∅⟩

def counterPrefix : UInt8 := 0
def blockPrefix : UInt8 := 1
def chainPrefix : UInt8 := 2
def headToBlockPrefix : UInt8 := 4
def blockToHeadPrefix : UInt8 := 5

def blocksCounter : UInt8 := 0
def headsCounter : UInt8 := 1

def uint64Size : Nat := 8
def maxUint64 : Nat := 2 ^ 64 - 1

/-! ## Keys -/

/-- `binary.BigEndian.PutUint64` into a new buffer. -/
def putUint64 (value : Nat) : Bytes := BigEndian.encode uint64Size value

/-- `binary.BigEndian.Uint64`: of the first eight bytes. -/
def uint64 (v : Bytes) : Res Nat :=
  if v.length < uint64Size then Go.panic "index out of range" else .ok (BigEndian.decode (v.take uint64Size))

def counterKey (counterID : UInt8) : Bytes := [counterPrefix, counterID]

def idKeyBytes (pre : UInt8) (id : BlockID) : Bytes := pre :: id.bytes

def numKeyBytes (pre : UInt8) (num : Nat) : Bytes := pre :: putUint64 num

def numKeyFromBytes (data : Bytes) : Res (UInt8 × Nat) :=
  match data with
  | [] => Go.panic "invalid size of block key"
  | pre :: rest =>
    if rest.length ≠ uint64Size then Go.panic "invalid size of block key"
    else do
      let num ← uint64 rest
      .ok (pre, num)

/-! ## Snapshots -/

/-- What an operation reads of a snapshot. -/
structure Snapshot where
  getCounter : UInt8 → Res Nat
  getNumOfBlockID : BlockID → Res Nat
  getBlock : Nat → Res StoredBlock
  getLink : Nat → Res Link
  getHeadByBlockNum : Nat → Res Nat

namespace Snapshot

def collectParents (sn : Snapshot) : (k l pn : Nat) → Res (List Nat)
  | 0, _, _ => .ok []
  | k + 1, l, pn => do
    let pl ← sn.getLink pn
    let pn' := if pl.parents.length > l then pl.parents.getD l pn else pn
    let rest ← sn.collectParents k (l + 1) pn'
    .ok (pn :: rest)

def putNewLinkForBlock (sn : Snapshot) (num : Nat) (id : BlockID) (h : Nat) (parentID : BlockID) :
    Res (List Write) := do
  let pn ← sn.getNumOfBlockID parentID
  let maxParents ← Storage.maxParents h
  let parents ← sn.collectParents maxParents 0 pn
  .ok [.putLink num ⟨h, id.bytes, parents⟩]

def putNewHead (sn : Snapshot) (blockNum : Nat) : Res (List Write) := do
  let headsCnt ← Go.wrap "failed to put new head" (sn.getCounter headsCounter)
  let headNum := (headsCnt + 1) % 2 ^ 64
  .ok [.putHeadsCounter headNum, .putHeadToBlock headNum blockNum, .putBlockToHead blockNum headNum]

def putHead (sn : Snapshot) (blockNum parentNum : Nat) : Res (List Write) :=
  match sn.getHeadByBlockNum parentNum with
  | .ok headNum =>
    .ok [.deleteBlockToHead parentNum, .putHeadToBlock headNum blockNum, .putBlockToHead blockNum headNum]
  | .error (.err e) =>
    if e.is .notFound then sn.putNewHead blockNum else Go.fail (.wrap "failed to put head" e)
  | .error (.panic msg) => Go.panic msg

def initializeStorage (gw : Gowaves) (scheme : Proto.Scheme) (sn : Snapshot) (genesis : Proto.Block) :
    Res (List Write) := do
  let blocks ← Go.wrap "failed to initialize blocks storage" (sn.getCounter blocksCounter)
  if blocks = 0 then do
    let ga ← Go.wrap "failed to initialize blocks storage"
      (Go.lift (gw.newAddressFromPublicKey scheme genesis.generatorPublicKey))
    let score ← calculateScore genesis.baseTarget
    let b : StoredBlock := ⟨1, genesis.timestamp, score, genesis.blockID.bytes, [], ga.bytes⟩
    .ok [.putBlock 1 b, .putBlocksCounter 1, .putID genesis.blockID 1, .putLink 1 ⟨1, genesis.blockID.bytes, []⟩,
      .putHeadsCounter 1, .putHeadToBlock 1 1, .putBlockToHead 1 1]
  else .ok []

def putProtoBlock (gw : Gowaves) (scheme : Proto.Scheme) (sn : Snapshot) (block : Proto.Block) :
    Res (List Write) := do
  let n ← Go.wrap "failed to put block" (sn.getCounter blocksCounter)
  let parentNum ← Go.wrap "failed to put block" (sn.getNumOfBlockID block.parent)
  let parent ← Go.wrap "failed to put block" (sn.getBlock parentNum)
  let n := (n + 1) % 2 ^ 64
  let b ← Go.wrap "failed to put block"
    (newBlock gw scheme block ((parent.height + 1) % 2 ^ 32) (some parent.score))
  let link ← Go.wrap "failed to put block" (sn.putNewLinkForBlock n block.blockID b.height block.parent)
  let head ← Go.wrap "failed to put block" (sn.putHead n parentNum)
  .ok ([.putBlocksCounter n, .putID block.blockID n, .putBlock n b] ++ link ++ head)

def putMicroBlock (sn : Snapshot) (inv : MicroBlockInv) : Res (List Write) := do
  let n ← Go.wrap "failed to put micro-block" (sn.getCounter blocksCounter)
  let refNum ← Go.wrap "failed to put micro-block" (sn.getNumOfBlockID inv.reference)
  let ref ← Go.wrap "failed to put micro-block" (sn.getBlock refNum)
  let parentID ← Go.wrap "failed to put micro-block" (newBlockIDFromBytes ref.parent)
  let n := (n + 1) % 2 ^ 64
  let b : StoredBlock :=
    ⟨ref.height, ref.timestamp, ref.score, inv.totalBlockID.bytes, ref.parent, ref.generator⟩
  let link ← Go.wrap "failed to put micro-block" (sn.putNewLinkForBlock n inv.totalBlockID b.height parentID)
  let head ← Go.wrap "failed to put micro-block" (sn.putHead n refNum)
  .ok ([.putBlocksCounter n, .putID inv.totalBlockID n, .putBlock n b] ++ link ++ head)

end Snapshot

/-- The operations of the storage that write. -/
inductive StorageOp where
  | initializeStorage (genesis : Proto.Block)
  | putProtoBlock (block : Proto.Block)
  | putMicroBlock (inv : MicroBlockInv)
  | updateLeash (addr : Addr) (id : BlockID)

/-- The batch that an operation hands to `db.Write`. -/
def StorageOp.batch (gw : Gowaves) (scheme : Proto.Scheme) (sn : Snapshot) : StorageOp → Res (List Write)
  | .initializeStorage genesis => sn.initializeStorage gw scheme genesis
  | .putProtoBlock block => sn.putProtoBlock gw scheme block
  | .putMicroBlock inv => sn.putMicroBlock inv
  | .updateLeash addr id => .ok [.putLeash addr id]

/-! ## Batches -/

/-- An entry of a `leveldb.Batch`. -/
inductive Entry where
  | put (key value : Bytes)
  | delete (key : Bytes)

def putCounter (counterID : UInt8) (value : Nat) : Entry := .put (counterKey counterID) (putUint64 value)

def putID (pre : UInt8) (id : BlockID) (num : Nat) : Entry := .put (idKeyBytes pre id) (putUint64 num)

def putBlock (cbor : Codecs) (num : Nat) (b : StoredBlock) : Entry :=
  .put (numKeyBytes blockPrefix num) (cbor.block.marshal b)

def putLink (cbor : Codecs) (num : Nat) (l : Link) : Entry :=
  .put (numKeyBytes chainPrefix num) (cbor.link.marshal l)

def putLeash (addr : Addr) (id : BlockID) : Entry := .put (addrKeyBytes addr) id.bytes

def putNum (pre : UInt8) (key value : Nat) : Entry := .put (numKeyBytes pre key) (putUint64 value)

def Write.entry (cbor : Codecs) : Write → Entry
  | .putBlocksCounter v => putCounter blocksCounter v
  | .putHeadsCounter v => putCounter headsCounter v
  | .putID id n => Chains.putID blockPrefix id n
  | .putBlock n b => Chains.putBlock cbor n b
  | .putLink n l => Chains.putLink cbor n l
  | .putLeash addr id => Chains.putLeash addr id
  | .putHeadToBlock h n => putNum headToBlockPrefix h n
  | .putBlockToHead n h => putNum blockToHeadPrefix n h
  | .deleteBlockToHead n => .delete (numKeyBytes blockToHeadPrefix n)

namespace Database

def apply (db : Database) : Entry → Database
  | .put key value => { db with records := db.records.insert key value }
  | .delete key => { db with records := db.records.erase key }

/-- `db.Write`. -/
def write (cbor : Codecs) (db : Database) (batch : List Write) : Database :=
  (batch.map (Write.entry cbor)).foldl apply db

/-- The records of a range, its limit left out, in the order of the keys. -/
def scan (db : Database) (start limit : Bytes) : List (Bytes × Bytes) :=
  db.records.toList.filter fun r => (compare start r.1).isLE && compare r.1 limit == .lt

/-! ## Reads -/

def getCounter (db : Database) (counterID : UInt8) : Res Nat :=
  match db.records[counterKey counterID]? with
  | none => .ok 0
  | some v => if v.length ≠ uint64Size then Go.panic "invalid size of blocks counter" else uint64 v

def getNumOfBlockID (db : Database) (id : BlockID) : Res Nat :=
  match db.records[idKeyBytes blockPrefix id]? with
  | none => Go.fail (.wrap "failed to get number for ID '%s'" (.sentinel .notFound))
  | some v => if v.length ≠ uint64Size then Go.fail (.text "invalid size %d of number for ID '%s'") else uint64 v

def getBlock (cbor : Codecs) (db : Database) (num : Nat) : Res StoredBlock :=
  match db.records[numKeyBytes blockPrefix num]? with
  | none => Go.fail (.wrap "failed to get block # %d" (.sentinel .notFound))
  | some v =>
    match cbor.block.unmarshal v with
    | none => Go.fail (.wrap "failed to get block #  %d" (.text "cannot decode"))
    | some b => .ok b

def getLink (cbor : Codecs) (db : Database) (num : Nat) : Res Link :=
  match db.records[numKeyBytes chainPrefix num]? with
  | none => Go.fail (.wrap "failed to get link by number %d" (.sentinel .notFound))
  | some v =>
    match cbor.link.unmarshal v with
    | none => Go.fail (.wrap "failed to unmarshal link by number %d" (.text "cannot decode"))
    | some l => .ok l

def getLeash (db : Database) (addr : Addr) : Res BlockID :=
  match db.records[addrKeyBytes addr]? with
  | none => Go.fail (.wrap "failed to get leash for '%s'" (.sentinel .notFound))
  | some v =>
    if v.length ≠ Proto.digestSize ∧ v.length ≠ Proto.signatureSize then
      Go.fail (.text "invalid size %d of leash for '%s'")
    else Go.wrap "failed to get leash for '%s'" (newBlockIDFromBytes v)

def getHeadByBlockNum (db : Database) (blockNum : Nat) : Res Nat :=
  match db.records[numKeyBytes blockToHeadPrefix blockNum]? with
  | none => Go.fail (.wrap "failed to get head by block number %d" (.sentinel .notFound))
  | some v => if v.length ≠ uint64Size then Go.fail (.text "invalid size %d of head for block number %d") else uint64 v

/-- All heads numbers with corresponding block numbers pointed by heads. -/
def getHeads (db : Database) : Res (List (Nat × Nat)) :=
  (db.scan (numKeyBytes headToBlockPrefix 0) (numKeyBytes headToBlockPrefix maxUint64)).mapM fun r => do
    let (pre, num) ← numKeyFromBytes r.1
    if pre ≠ headToBlockPrefix then Go.fail (.text "unexpected prefix: %d")
    else do
      let blockNum ← uint64 r.2
      .ok (num, blockNum)

def snapshot (cbor : Codecs) (db : Database) : Snapshot :=
  ⟨db.getCounter, db.getNumOfBlockID, db.getBlock cbor, db.getLink cbor, db.getHeadByBlockNum⟩

/-! ## Operations -/

def exec (gw : Gowaves) (cbor : Codecs) (db : Database) (op : StorageOp) : Res Database :=
  (op.batch gw db.scheme (db.snapshot cbor)).map (db.write cbor)

/-- The database after an operation; one that does not return writes nothing. -/
def left (gw : Gowaves) (cbor : Codecs) (db : Database) (op : StorageOp) : Database :=
  match db.exec gw cbor op with
  | .ok db' => db'
  | .error _ => db

def run (gw : Gowaves) (cbor : Codecs) (db : Database) (ops : List StorageOp) : Database :=
  ops.foldl (left gw cbor) db

def lastAddr : Addr := ⟨List.replicate 16 255, "", .inr (.inr rfl), Addr.not_zoned _⟩

def leashes (db : Database) : Res (List Leash) :=
  (db.scan (addrKeyBytes (Addr.from4 0 0 0 0)) (addrKeyBytes lastAddr)).mapM fun r => do
    let addr ← addrKeyFromBytes r.1
    let id ← Go.wrap "failed to get leashes" (newBlockIDFromBytes r.2)
    .ok ⟨addr, id⟩

/-- A round of the loop of `heads`. -/
def head (cbor : Codecs) (db : Database) (r : Nat × Nat) : Res Head := do
  let bl ← Go.wrap "failed to get heads" (db.getBlock cbor r.2)
  let id ← Go.wrap "failed to get heads" (newBlockIDFromBytes bl.id)
  .ok ⟨r.1, id⟩

def heads (cbor : Codecs) (db : Database) : Res (List Head) := do
  let heads ← Go.wrap "failed to get heads" db.getHeads
  heads.mapM (db.head cbor)

end Database

end Chains
end ForkDetector
