import Mathlib.Algebra.Group.Nat.Defs
import Mathlib.Data.Nat.Log
import ForkDetector.Proto
/-!
# Storage — the blocks database

The database of `chains/storage.go`, one ordered map for each family of records: blocks and links by number, numbers by
ID, leashes by address key, heads to blocks and blocks to heads.  A read takes the records as they stand (a snapshot);
a write collects a batch and applies it at once.  Counters and block numbers are unbounded: no database holds `2^64`
blocks.  A height is a `uint32`, so that `parent.Height+1` is taken modulo `2^32`.
-/
namespace ForkDetector
namespace Chains

open Std (ExtTreeMap)
open Proto (BlockID newBlockIDFromBytes WavesAddress Gowaves MicroBlockInv)

/-- `block` of `storage_entities.go`: what is stored of a block. -/
structure StoredBlock where
  height : Nat
  timestamp : UInt64
  score : Int
  id : Bytes
  parent : Bytes
  generator : Bytes
deriving DecidableEq

/-- `link` of `storage_entities.go`: a block's place in the tree. -/
structure Link where
  height : Nat
  blockID : Bytes
  parents : List Nat
deriving DecidableEq

structure Leash where
  addr : Addr
  blockID : BlockID
deriving DecidableEq

structure Head where
  id : Nat
  blockID : BlockID
deriving DecidableEq

structure Storage where
  scheme : Proto.Scheme
  blocksCounter : Nat
  headsCounter : Nat
  blocks : ExtTreeMap Nat StoredBlock
  nums : ExtTreeMap BlockID Nat
  links : ExtTreeMap Nat Link
  leashRecords : ExtTreeMap Bytes BlockID
  headToBlock : ExtTreeMap Nat Nat
  blockToHead : ExtTreeMap Nat Nat
deriving DecidableEq

def newStorage (scheme : Proto.Scheme) : Storage := ⟨scheme, 0, 0, ∅, ∅, ∅, ∅, ∅, ∅⟩

/-! ## Scores -/

def maxBlockScore : Int := 18446744073709551616

def calculateScore (baseTarget : UInt64) : Res Int :=
  if baseTarget = 0 then .ok 0
  else if baseTarget.toNat > 9223372036854775807 then Go.panic "base target is too big"
  else .ok (maxBlockScore / baseTarget.toNat)

def calculateCumulativeScore (parentScore : Option Int) (baseTarget : UInt64) : Res Int := do
  let s ← calculateScore baseTarget
  match parentScore with
  | none => .ok s
  | some p => .ok (s + p)

def newBlock (gw : Gowaves) (scheme : Proto.Scheme) (b : Proto.Block) (height : Nat) (parentScore : Option Int) :
    Res StoredBlock := do
  let ga ← Go.wrap "failed to create new block" (Go.lift (gw.newAddressFromPublicKey scheme b.generatorPublicKey))
  let score ← calculateCumulativeScore parentScore b.baseTarget
  .ok ⟨height, b.timestamp, score, b.blockID.bytes, b.parent.bytes, ga.bytes⟩

theorem calculateScore_nonneg {baseTarget : UInt64} {score : Int} (h : calculateScore baseTarget = .ok score) :
    0 ≤ score := by
  unfold calculateScore at h
  split at h
  · cases h; exact Int.le_refl _
  · split at h
    · cases h
    · cases h
      exact Int.ediv_nonneg (by decide) (Int.natCast_nonneg _)

theorem newBlock_eq_ok {gw : Gowaves} {scheme : Proto.Scheme} {block : Proto.Block} {h : Nat} {ps : Int}
    {b : StoredBlock} (hb : newBlock gw scheme block h (some ps) = .ok b) : ∃ ga score,
      gw.newAddressFromPublicKey scheme block.generatorPublicKey = .ok ga ∧
      calculateScore block.baseTarget = .ok score ∧
      b = ⟨h, block.timestamp, score + ps, block.blockID.bytes, block.parent.bytes, ga.bytes⟩ := by
  unfold newBlock at hb
  obtain ⟨ga, hga, hb⟩ := Go.bind_eq_ok.1 hb
  obtain ⟨total, htotal, hb⟩ := Go.bind_eq_ok.1 hb
  rw [Go.wrap_eq_ok, Go.lift_eq_ok] at hga
  unfold calculateCumulativeScore at htotal
  obtain ⟨score, hscore, htotal⟩ := Go.bind_eq_ok.1 htotal
  cases htotal
  cases hb
  exact ⟨ga, score, hga, hscore, rfl⟩

/-! ## Keys -/

def leashPrefix : UInt8 := 3

def addrKeyBytes (addr : Addr) : Bytes := leashPrefix :: addr.bytes

def addrKeyFromBytes (data : Bytes) : Res Addr :=
  if data.length ≠ 5 ∧ data.length ≠ 17 then Go.panic "invalid size of key"
  else match data with
    | [] => Go.panic "index out of range"
    | p :: rest =>
      if p ≠ leashPrefix then Go.panic "invalid key prefix"
      else match Addr.fromSlice rest with
        | some addr => .ok addr
        | none => Go.panic "invalid IP address"

/-! ## Batches -/

inductive Write where
  | putBlocksCounter (value : Nat)
  | putHeadsCounter (value : Nat)
  | putID (id : BlockID) (num : Nat)
  | putBlock (num : Nat) (b : StoredBlock)
  | putLink (num : Nat) (l : Link)
  | putLeash (addr : Addr) (id : BlockID)
  | putHeadToBlock (headNum blockNum : Nat)
  | putBlockToHead (blockNum headNum : Nat)
  | deleteBlockToHead (blockNum : Nat)

namespace Storage

def apply (s : Storage) : Write → Storage
  | .putBlocksCounter v => { s with blocksCounter := v }
  | .putHeadsCounter v => { s with headsCounter := v }
  | .putID id n => { s with nums := s.nums.insert id n }
  | .putBlock n b => { s with blocks := s.blocks.insert n b }
  | .putLink n l => { s with links := s.links.insert n l }
  | .putLeash addr id => { s with leashRecords := s.leashRecords.insert (addrKeyBytes addr) id }
  | .putHeadToBlock h n => { s with headToBlock := s.headToBlock.insert h n }
  | .putBlockToHead n h => { s with blockToHead := s.blockToHead.insert n h }
  | .deleteBlockToHead n => { s with blockToHead := s.blockToHead.erase n }

/-- `db.Write`: the entries of the batch, in order. -/
def write (s : Storage) (batch : List Write) : Storage := batch.foldl apply s

/-! ## Reads -/

def getNumOfBlockID (s : Storage) (id : BlockID) : Res Nat :=
  match s.nums[id]? with
  | some n => .ok n
  | none => Go.fail (.wrap "failed to get number for ID '%s'" (.sentinel .notFound))

def getBlock (s : Storage) (num : Nat) : Res StoredBlock :=
  match s.blocks[num]? with
  | some b => .ok b
  | none => Go.fail (.wrap "failed to get block # %d" (.sentinel .notFound))

def getLink (s : Storage) (num : Nat) : Res Link :=
  match s.links[num]? with
  | some l => .ok l
  | none => Go.fail (.wrap "failed to get link by number %d" (.sentinel .notFound))

def getBlockByID (s : Storage) (id : BlockID) : Res StoredBlock := do
  let n ← Go.wrap "failed to get block by ID '%s'" (s.getNumOfBlockID id)
  Go.wrap "failed to get block by ID '%s'" (s.getBlock n)

def getLinkByID (s : Storage) (id : BlockID) : Res Link := do
  let n ← Go.wrap "failed to get link" (s.getNumOfBlockID id)
  s.getLink n

def getLeash (s : Storage) (addr : Addr) : Res BlockID :=
  match s.leashRecords[addrKeyBytes addr]? with
  | some id => .ok id
  | none => Go.fail (.wrap "failed to get leash for '%s'" (.sentinel .notFound))

def getHeadByBlockNum (s : Storage) (blockNum : Nat) : Res Nat :=
  match s.blockToHead[blockNum]? with
  | some h => .ok h
  | none => Go.fail (.wrap "failed to get head by block number %d" (.sentinel .notFound))

/-- All heads numbers with corresponding block numbers pointed by heads, in the order of their keys. -/
def getHeads (s : Storage) : List (Nat × Nat) := s.headToBlock.toList

/-! ## `storage` methods -/

def block (s : Storage) (id : BlockID) : Res StoredBlock := s.getBlockByID id

def hasBlock (s : Storage) (id : BlockID) : Res Bool :=
  match s.getNumOfBlockID id with
  | .ok _ => .ok true
  | .error (.err e) =>
    if e.is .notFound then .ok false else Go.fail (.wrap "failed to check block existence" e)
  | .error (.panic msg) => Go.panic msg

/-- The round `l` of the loop of `putNewLinkForBlock`, and the `k - 1` rounds after it: `pn` is the ancestor reached,
appended before its link is read for the next one. -/
def collectParents (s : Storage) : (k l pn : Nat) → Res (List Nat)
  | 0, _, _ => .ok []
  | k + 1, l, pn => do
    let pl ← s.getLink pn
    let pn' := if pl.parents.length > l then pl.parents.getD l pn else pn
    let rest ← s.collectParents k (l + 1) pn'
    .ok (pn :: rest)

/-- `int(math.Ceil(math.Log2(float64(h))))`, as the capacity of the slice of parents.  For height zero the logarithm is
minus infinity and the conversion yields no valid capacity. -/
def maxParents (h : Nat) : Res Nat :=
  if h = 0 then Go.panic "makeslice: cap out of range" else .ok (Nat.clog 2 h)

def putNewLinkForBlock (s : Storage) (num : Nat) (id : BlockID) (h : Nat) (parentID : BlockID) : Res (List Write) := do
  let pn ← s.getNumOfBlockID parentID
  let maxParents ← maxParents h
  let parents ← s.collectParents maxParents 0 pn
  .ok [.putLink num ⟨h, id.bytes, parents⟩]

def putNewHead (s : Storage) (blockNum : Nat) : List Write :=
  let headNum := s.headsCounter + 1
  [.putHeadsCounter headNum, .putHeadToBlock headNum blockNum, .putBlockToHead blockNum headNum]

def putHead (s : Storage) (blockNum parentNum : Nat) : Res (List Write) :=
  match s.getHeadByBlockNum parentNum with
  | .ok headNum =>
    .ok [.deleteBlockToHead parentNum, .putHeadToBlock headNum blockNum, .putBlockToHead blockNum headNum]
  | .error (.err e) =>
    if e.is .notFound then .ok (s.putNewHead blockNum) else Go.fail (.wrap "failed to put head" e)
  | .error (.panic msg) => Go.panic msg

/-- `storage.initialize`: the genesis block, its link and its head, on an empty database only. -/
def initializeStorage (gw : Gowaves) (s : Storage) (genesis : Proto.Block) : Res Storage :=
  if s.blocksCounter = 0 then do
    let ga ← Go.wrap "failed to initialize blocks storage"
      (Go.lift (gw.newAddressFromPublicKey s.scheme genesis.generatorPublicKey))
    let score ← calculateScore genesis.baseTarget
    let b : StoredBlock := ⟨1, genesis.timestamp, score, genesis.blockID.bytes, [], ga.bytes⟩
    .ok (s.write [.putBlock 1 b, .putBlocksCounter 1, .putID genesis.blockID 1,
      .putLink 1 ⟨1, genesis.blockID.bytes, []⟩,
      .putHeadsCounter 1, .putHeadToBlock 1 1, .putBlockToHead 1 1])
  else .ok s

def putProtoBlock (gw : Gowaves) (s : Storage) (block : Proto.Block) : Res Storage := do
  let parentNum ← Go.wrap "failed to put block" (s.getNumOfBlockID block.parent)
  let parent ← Go.wrap "failed to put block" (s.getBlock parentNum)
  let n := s.blocksCounter + 1
  let b ← Go.wrap "failed to put block"
    (newBlock gw s.scheme block ((parent.height + 1) % 2 ^ 32) (some parent.score))
  let link ← Go.wrap "failed to put block" (s.putNewLinkForBlock n block.blockID b.height block.parent)
  let head ← Go.wrap "failed to put block" (s.putHead n parentNum)
  .ok (s.write ([.putBlocksCounter n, .putID block.blockID n, .putBlock n b] ++ link ++ head))

def putMicroBlock (s : Storage) (inv : MicroBlockInv) : Res Storage := do
  let refNum ← Go.wrap "failed to put micro-block" (s.getNumOfBlockID inv.reference)
  let ref ← Go.wrap "failed to put micro-block" (s.getBlock refNum)
  let parentID ← Go.wrap "failed to put micro-block" (newBlockIDFromBytes ref.parent)
  let n := s.blocksCounter + 1
  let b : StoredBlock :=
    ⟨ref.height, ref.timestamp, ref.score, inv.totalBlockID.bytes, ref.parent, ref.generator⟩
  let link ← Go.wrap "failed to put micro-block" (s.putNewLinkForBlock n inv.totalBlockID b.height parentID)
  let head ← Go.wrap "failed to put micro-block" (s.putHead n refNum)
  .ok (s.write ([.putBlocksCounter n, .putID inv.totalBlockID n, .putBlock n b] ++ link ++ head))

/-- The loop of `getAncestors` from the block number `n`, for at most `k` more blocks. -/
def ancestorsFrom (s : Storage) : (k n : Nat) → Res (List BlockID)
  | 0, _ => .ok []
  | k + 1, n => do
    let l ← Go.wrap "failed to get ancestors" (s.getLink n)
    let pid ← Go.wrap "failed to get ancestors" (newBlockIDFromBytes l.blockID)
    match l.parents with
    | [] => .ok [pid]
    | p :: _ => do
      let rest ← s.ancestorsFrom k p
      .ok (pid :: rest)

def getAncestors (s : Storage) (id : BlockID) (count : Nat) : Res (List BlockID) := do
  let n ← Go.wrap "failed to get ancestors" (s.getNumOfBlockID id)
  s.ancestorsFrom count n

def sub32 (a b : Nat) : Nat := (a + 2 ^ 32 - b % 2 ^ 32) % 2 ^ 32

/-- The loop of `fastBackwardFarthest` with the indices `k - 1` down to `0` to go.  When the list of the link jumped to
has no entry for the index, the index restarts at its last one. -/
def fastBackward (s : Storage) (farthest other : Link) (k : Nat) : Res Link :=
  match k with
  | 0 => .ok farthest
  | i + 1 =>
    if other.height ≤ sub32 farthest.height (2 ^ i) then
      match Go.index farthest.parents i with
      | .error f => .error f
      | .ok n =>
        match s.getLink n with
        | .error f => .error f
        | .ok l => if l.parents.length ≤ i then fastBackward s l other l.parents.length else fastBackward s l other i
    else fastBackward s farthest other i
termination_by k
decreasing_by
  · exact Nat.lt_succ_of_le ‹_›
  · exact Nat.lt_succ_self i
  · exact Nat.lt_succ_self i

def fastBackwardFarthest (s : Storage) (farthest other : Link) : Res Link :=
  s.fastBackward farthest other farthest.parents.length

/-- The descent of `lca` with the indices `k - 1` down to `0` to go. -/
def descend (s : Storage) (farthest other : Link) : (k : Nat) → Res (Link × Link)
  | 0 => .ok (farthest, other)
  | i + 1 => do
    let p ← Go.index farthest.parents i
    let q ← Go.index other.parents i
    if p ≠ q then do
      let farthest ← Go.wrap "failed to find common ancestor" (s.getLink p)
      let other ← Go.wrap "failed to find common ancestor" (s.getLink q)
      s.descend farthest other i
    else s.descend farthest other i

/-- What `lca` does with its two links, the one farther from the genesis block first. -/
def lcaOfLinks (s : Storage) (farthest other : Link) : Res BlockID := do
  let farthest ← Go.wrap "failed to find common ancestor" (s.fastBackwardFarthest farthest other)
  if farthest.blockID = other.blockID then newBlockIDFromBytes farthest.blockID
  else do
    let (farthest, _) ← s.descend farthest other farthest.parents.length
    let p ← Go.index farthest.parents 0
    let l ← Go.wrap "failed to find common ancestor" (s.getLink p)
    newBlockIDFromBytes l.blockID

def lca (s : Storage) (id1 id2 : BlockID) : Res BlockID := do
  let l1 ← Go.wrap "failed to find common ancestor" (s.getLinkByID id1)
  let l2 ← Go.wrap "failed to find common ancestor" (s.getLinkByID id2)
  if l1.height < l2.height then s.lcaOfLinks l2 l1 else s.lcaOfLinks l1 l2

def leash (s : Storage) (addr : Addr) : Res BlockID := s.getLeash addr

def updateLeash (s : Storage) (addr : Addr) (id : BlockID) : Storage := s.write [.putLeash addr id]

/-- The bounds of the scan of `leashes`: the key of `0.0.0.0`, and, left out, the last key of all. -/
def inLeashRange (key : Bytes) : Bool :=
  (compare (addrKeyBytes (Addr.from4 0 0 0 0)) key).isLE &&
    compare key (leashPrefix :: List.replicate 16 255) == .lt

def leashes (s : Storage) : Res (List Leash) :=
  (s.leashRecords.toList.filter (fun r => inLeashRange r.1)).mapM fun r => do
    let addr ← addrKeyFromBytes r.1
    .ok ⟨addr, r.2⟩

def heads (s : Storage) : Res (List Head) :=
  s.getHeads.mapM fun r => do
    let bl ← Go.wrap "failed to get heads" (s.getBlock r.2)
    let id ← Go.wrap "failed to get heads" (newBlockIDFromBytes bl.id)
    .ok ⟨r.1, id⟩

/-! ## What the reads return -/

section
variable {s : Storage}

@[simp] theorem getNumOfBlockID_eq_ok {id : BlockID} {n : Nat} :
    s.getNumOfBlockID id = .ok n ↔ s.nums[id]? = some n := by
  unfold getNumOfBlockID
  cases s.nums[id]? <;> simp [Go.fail]

@[simp] theorem getBlock_eq_ok {n : Nat} {b : StoredBlock} : s.getBlock n = .ok b ↔ s.blocks[n]? = some b := by
  unfold getBlock
  cases s.blocks[n]? <;> simp [Go.fail]

@[simp] theorem getLink_eq_ok {n : Nat} {l : Link} : s.getLink n = .ok l ↔ s.links[n]? = some l := by
  unfold getLink
  cases s.links[n]? <;> simp [Go.fail]

theorem hasBlock_eq (s : Storage) (id : BlockID) : s.hasBlock id = .ok s.nums[id]?.isSome := by
  unfold hasBlock getNumOfBlockID
  cases s.nums[id]? <;> simp [Go.fail, Go.Err.is]

theorem getLeash_eq (s : Storage) (addr : Addr) : s.leash addr = match s.leashRecords[addrKeyBytes addr]? with
    | some id => .ok id
    | none => Go.fail (.wrap "failed to get leash for '%s'" (.sentinel .notFound)) := rfl

theorem getBlockByID_eq_ok {id : BlockID} {b : StoredBlock} :
    s.getBlockByID id = .ok b ↔ ∃ n, s.nums[id]? = some n ∧ s.blocks[n]? = some b := by
  unfold getBlockByID
  refine Go.bind_eq_ok.trans (exists_congr fun n => ?_)
  rw [Go.wrap_eq_ok, Go.wrap_eq_ok, getNumOfBlockID_eq_ok, getBlock_eq_ok]

theorem getLinkByID_eq_ok {id : BlockID} {l : Link} :
    s.getLinkByID id = .ok l ↔ ∃ n, s.nums[id]? = some n ∧ s.links[n]? = some l := by
  unfold getLinkByID
  refine Go.bind_eq_ok.trans (exists_congr fun n => ?_)
  rw [Go.wrap_eq_ok, getNumOfBlockID_eq_ok, getLink_eq_ok]

/-- **The two ways a head is put**: the head of the extended block moves, or a new one is counted. -/
theorem putHead_eq (s : Storage) (n e : Nat) : s.putHead n e = .ok (match s.blockToHead[e]? with
    | some h => [.deleteBlockToHead e, .putHeadToBlock h n, .putBlockToHead n h]
    | none => s.putNewHead n) := by
  unfold putHead getHeadByBlockNum
  cases s.blockToHead[e]? <;> simp [Go.fail, Go.Err.is]

end

/-- **An insertion**: the block record `b` of `id`, standing on `parentID` and extending the block number `ext`, is
written with the next number, its link, and the move of a head. -/
structure Inserted (s s' : Storage) (id parentID : BlockID) (ext : Nat) (b : StoredBlock) (parents : List Nat) :
    Prop where
  collected : ∃ pn, s.nums[parentID]? = some pn ∧ s.collectParents (Nat.clog 2 b.height) 0 pn = .ok parents
  height_ne_zero : b.height ≠ 0
  state : ∃ head, s.putHead (s.blocksCounter + 1) ext = .ok head ∧
    s' = s.write ([.putBlocksCounter (s.blocksCounter + 1), .putID id (s.blocksCounter + 1),
      .putBlock (s.blocksCounter + 1) b] ++ [.putLink (s.blocksCounter + 1) ⟨b.height, id.bytes, parents⟩] ++ head)

theorem putNewLinkForBlock_eq_ok {s : Storage} {n h : Nat} {id parentID : BlockID} {w : List Write} :
    s.putNewLinkForBlock n id h parentID = .ok w ↔ ∃ pn parents, s.nums[parentID]? = some pn ∧ h ≠ 0 ∧
      s.collectParents (Nat.clog 2 h) 0 pn = .ok parents ∧ w = [.putLink n ⟨h, id.bytes, parents⟩] := by
  unfold putNewLinkForBlock
  constructor
  · intro hw
    obtain ⟨pn, hpn, hw⟩ := Go.bind_eq_ok.1 hw
    obtain ⟨m, hm, hw⟩ := Go.bind_eq_ok.1 hw
    obtain ⟨parents, hps, hw⟩ := Go.bind_eq_ok.1 hw
    unfold maxParents at hm
    split at hm
    · cases hm
    · rename_i h0
      cases hw
      cases hm
      exact ⟨pn, parents, getNumOfBlockID_eq_ok.1 hpn, h0, hps, rfl⟩
  · rintro ⟨pn, parents, hpn, h0, hps, rfl⟩
    refine Go.bind_eq_ok.2 ⟨pn, getNumOfBlockID_eq_ok.2 hpn, Go.bind_eq_ok.2 ⟨Nat.clog 2 h, if_neg h0, ?_⟩⟩
    exact Go.bind_eq_ok.2 ⟨parents, hps, rfl⟩

/-- **What an accepted key block writes.** -/
theorem putProtoBlock_eq_ok {gw : Gowaves} {s s' : Storage} {block : Proto.Block}
    (h : s.putProtoBlock gw block = .ok s') : ∃ pn pb b parents, s.nums[block.parent]? = some pn ∧
      s.blocks[pn]? = some pb ∧ newBlock gw s.scheme block ((pb.height + 1) % 2 ^ 32) (some pb.score) = .ok b ∧
      Inserted s s' block.blockID block.parent pn b parents := by
  unfold putProtoBlock at h
  obtain ⟨pn, hpn, h⟩ := Go.bind_eq_ok.1 h
  obtain ⟨pb, hpb, h⟩ := Go.bind_eq_ok.1 h
  obtain ⟨b, hb, h⟩ := Go.bind_eq_ok.1 h
  obtain ⟨link, hl, h⟩ := Go.bind_eq_ok.1 h
  obtain ⟨head, hh, h⟩ := Go.bind_eq_ok.1 h
  rw [Go.wrap_eq_ok, getNumOfBlockID_eq_ok] at hpn
  rw [Go.wrap_eq_ok, getBlock_eq_ok] at hpb
  rw [Go.wrap_eq_ok] at hb hh
  obtain ⟨pn', parents, hpn', h0, hps, rfl⟩ := putNewLinkForBlock_eq_ok.1 (Go.wrap_eq_ok.1 hl)
  cases h
  exact ⟨pn, pb, b, parents, hpn, hpb, hb, ⟨pn', hpn', hps⟩, h0, head, hh, rfl⟩

/-- **What an accepted micro-block writes.** -/
theorem putMicroBlock_eq_ok {s s' : Storage} {inv : MicroBlockInv} (h : s.putMicroBlock inv = .ok s') :
    ∃ rn rb parentID parents, s.nums[inv.reference]? = some rn ∧ s.blocks[rn]? = some rb ∧
      newBlockIDFromBytes rb.parent = .ok parentID ∧
      Inserted s s' inv.totalBlockID parentID rn { rb with id := inv.totalBlockID.bytes } parents := by
  unfold putMicroBlock at h
  obtain ⟨rn, hrn, h⟩ := Go.bind_eq_ok.1 h
  obtain ⟨rb, hrb, h⟩ := Go.bind_eq_ok.1 h
  obtain ⟨parentID, hpid, h⟩ := Go.bind_eq_ok.1 h
  obtain ⟨link, hl, h⟩ := Go.bind_eq_ok.1 h
  obtain ⟨head, hh, h⟩ := Go.bind_eq_ok.1 h
  rw [Go.wrap_eq_ok, getNumOfBlockID_eq_ok] at hrn
  rw [Go.wrap_eq_ok, getBlock_eq_ok] at hrb
  rw [Go.wrap_eq_ok] at hpid hh
  obtain ⟨pn, parents, hpn, h0, hps, rfl⟩ := putNewLinkForBlock_eq_ok.1 (Go.wrap_eq_ok.1 hl)
  cases h
  exact ⟨rn, rb, parentID, parents, hrn, hrb, hpid, ⟨pn, hpn, hps⟩, h0, head, hh, rfl⟩

namespace Inserted
variable {s s' : Storage} {id parentID : BlockID} {ext : Nat} {b : StoredBlock} {parents : List Nat}
  (h : Inserted s s' id parentID ext b parents)
include h

/-- The families of records after an insertion; the heads are told apart by whether the extended block was one. -/
theorem fields : s'.scheme = s.scheme ∧ s'.blocksCounter = s.blocksCounter + 1 ∧
    s'.nums = s.nums.insert id (s.blocksCounter + 1) ∧ s'.blocks = s.blocks.insert (s.blocksCounter + 1) b ∧
    s'.links = s.links.insert (s.blocksCounter + 1) ⟨b.height, id.bytes, parents⟩ ∧
    s'.leashRecords = s.leashRecords := by
  obtain ⟨head, hh, rfl⟩ := h.state
  rw [putHead_eq] at hh
  cases hh
  cases s.blockToHead[ext]? <;> exact ⟨rfl, rfl, rfl, rfl, rfl, rfl⟩

theorem moved_head {hn : Nat} (he : s.blockToHead[ext]? = some hn) : s'.headsCounter = s.headsCounter ∧
    s'.headToBlock = s.headToBlock.insert hn (s.blocksCounter + 1) ∧
    s'.blockToHead = (s.blockToHead.erase ext).insert (s.blocksCounter + 1) hn := by
  obtain ⟨head, hh, rfl⟩ := h.state
  rw [putHead_eq, he] at hh
  cases hh
  exact ⟨rfl, rfl, rfl⟩

theorem new_head (he : s.blockToHead[ext]? = none) : s'.headsCounter = s.headsCounter + 1 ∧
    s'.headToBlock = s.headToBlock.insert (s.headsCounter + 1) (s.blocksCounter + 1) ∧
    s'.blockToHead = s.blockToHead.insert (s.blocksCounter + 1) (s.headsCounter + 1) := by
  obtain ⟨head, hh, rfl⟩ := h.state
  rw [putHead_eq, he] at hh
  cases hh
  exact ⟨rfl, rfl, rfl⟩

end Inserted

end Storage

end Chains
end ForkDetector
