import Std.Data.ExtTreeSet
import ForkDetector.Chains.Storage
/-!
# Linkage — the block graph and the leashes

`chains/linkage.go` over the blocks database.  A call that changes the database returns the state it leaves; a call
that fails leaves the state it found.  A Go map is grouped into an ordered map and ranged over in an arbitrary order
(`rng`), and `sort.Sort` is an arbitrary unstable sort (`srt`).
-/
namespace ForkDetector
namespace Chains

open Std (ExtTreeMap ExtTreeSet)
open Proto (BlockID newBlockIDFromBytes WavesAddress Gowaves MicroBlockInv)

structure Block where
  id : BlockID
  parent : BlockID
  height : Nat
  generator : WavesAddress
  score : Int
  timestamp : Int
deriving DecidableEq

structure Fork where
  longest : Bool
  headBlock : BlockID
  headTimestamp : Int
  headGenerator : WavesAddress
  headHeight : Nat
  score : Int
  peersCount : Nat
  peers : List Addr
  lastCommonBlock : BlockID
  length : Int
deriving DecidableEq

/-- The zero value, with the milliseconds of the zero time. -/
def Fork.zero : Fork := ⟨false, .zero, -62135596800000, ⟨List.replicate 26 0⟩, 0, 0, 0, [], .zero, 0⟩

/-- `byScoreAndPeersDesc.Less`. -/
def byScoreAndPeersDesc (a b : Fork) : Bool :=
  if a.score = b.score then decide (a.peers.length > b.peers.length) else decide (a.score > b.score)

/-- The peers to look up; the empty set asks for every peer. -/
abbrev LookupPeers := ExtTreeSet Addr

structure Linkage where
  genesis : BlockID
  st : Storage
deriving DecidableEq

def newLinkage (gw : Gowaves) (scheme : Proto.Scheme) (genesis : Proto.Block) : Res Linkage := do
  let st ← Go.wrap "failed to initialize Linkage" ((newStorage scheme).initializeStorage gw genesis)
  .ok ⟨genesis.blockID, st⟩

def safeTimestamp (ts : UInt64) : Res Int :=
  if ts.toNat < 9223372036854775807 then .ok ts.toNat else Go.panic "timestamp is too large"

/-- A record as `Linkage.block` and `getBlocks` hand it out, each with its own text around an error. -/
def StoredBlock.toBlock (gw : Gowaves) (msg : String) (b : StoredBlock) : Res Block := do
  let bID ← Go.wrap msg (newBlockIDFromBytes b.id)
  let pID ← (if b.parent.length > 0 then Go.wrap msg (newBlockIDFromBytes b.parent) else .ok .zero : Res BlockID)
  let ga ← Go.wrap msg (Go.lift (gw.newAddressFromBytes b.generator))
  let timestamp ← safeTimestamp b.timestamp
  .ok ⟨bID, pID, b.height, ga, b.score, timestamp⟩

namespace Storage

/-- The loop of `getBlocks` from the block number `n`, for at most `k` more blocks. -/
def blocksFrom (gw : Gowaves) (s : Storage) : (k n : Nat) → Res (List Block)
  | 0, _ => .ok []
  | k + 1, n => do
    let b ← Go.wrap "failed to get blocks" (s.getBlock n)
    let bb ← b.toBlock gw "failed to get blocks"
    if b.parent.length = 0 then .ok [bb]
    else do
      let l ← Go.wrap "failed to get blocks" (s.getLink n)
      let p ← Go.index l.parents 0
      let rest ← s.blocksFrom gw k p
      .ok (bb :: rest)

def getBlocks (gw : Gowaves) (s : Storage) (id : BlockID) (count : Nat) : Res (List Block) := do
  let n ← Go.wrap "failed to get blocks" (s.getNumOfBlockID id)
  s.blocksFrom gw count n

end Storage

/-- The peers of each leashed block, in the order of the leashes. -/
def groupByBlock (leashes : List Leash) : ExtTreeMap BlockID (List Addr) :=
  leashes.foldl (fun m lsh => m.insert lsh.blockID (m.getD lsh.blockID [] ++ [lsh.addr])) ∅

/-- The chain taken as the longest so far: its score, the number of its peers, and its block. -/
structure Longest where
  score : Int
  peers : Nat
  block : BlockID

/-- The comparison that `LCB` and `Fork` make at each leashed block. -/
def Longest.next (acc : Longest) (score : Int) (peers : Nat) (k : BlockID) : Longest :=
  if acc.score = score then
    if peers > acc.peers then ⟨score, peers, k⟩ else acc
  else if acc.score < score then ⟨score, peers, k⟩
  else acc

/-- The fork of a leashed block, its length still the height of the block. -/
def newFork (b : Block) (v : List Addr) : Fork :=
  { longest := false
    headBlock := b.id
    headTimestamp := b.timestamp
    headGenerator := b.generator
    headHeight := b.height
    score := b.score
    peersCount := v.length
    peers := v
    lastCommonBlock := b.id
    length := b.height }

/-- Whether `forks` keeps a leash: with no peers to look up every leash is kept. -/
def LookupPeers.keeps (peers : LookupPeers) (lsh : Leash) : Bool := peers.isEmpty || peers.contains lsh.addr

namespace Linkage

def putBlock (gw : Gowaves) (l : Linkage) (block : Proto.Block) (addr : Addr) : Res Linkage := do
  let ok ← l.st.hasBlock block.blockID
  if ok then .ok { l with st := l.st.updateLeash addr block.blockID }
  else do
    let hasParent ← l.st.hasBlock block.parent
    if !hasParent then Go.fail (.sentinel .parentNotFound)
    else do
      let st ← l.st.putProtoBlock gw block
      .ok { l with st := st.updateLeash addr block.blockID }

def putMicroBlock (l : Linkage) (inv : MicroBlockInv) (addr : Addr) : Res Linkage := do
  let ok ← l.st.hasBlock inv.totalBlockID
  if ok then .ok { l with st := l.st.updateLeash addr inv.totalBlockID }
  else do
    let hasRef ← l.st.hasBlock inv.reference
    if !hasRef then Go.fail (.sentinel .refNotFound)
    else do
      let st ← l.st.putMicroBlock inv
      .ok { l with st := st.updateLeash addr inv.totalBlockID }

def leash (l : Linkage) (addr : Addr) : Res BlockID :=
  match l.st.leash addr with
  | .error (.err e) => if e.is .notFound then .ok l.genesis else Go.fail e
  | r => r

/-- The score of the peer's leash, or of the genesis block.  On any other failure the zero ID is looked up. -/
def leashScore (l : Linkage) (addr : Addr) : Res Int :=
  match l.st.leash addr with
  | .error (.panic msg) => Go.panic msg
  | .error (.err e) => do
    let bl ← Go.wrap "failed to get block by ID '%s'" (l.st.block (if e.is .notFound then l.genesis else .zero))
    .ok bl.score
  | .ok id => do
    let bl ← Go.wrap "failed to get block by ID '%s'" (l.st.block id)
    .ok bl.score

def heads (l : Linkage) : Res (List Head) := l.st.heads

def lastIDs (l : Linkage) (id : BlockID) (count : Nat) : Res (List BlockID) := l.st.getAncestors id count

def hasBlock (l : Linkage) (id : BlockID) : Res Bool := l.st.hasBlock id

def moveLeash (l : Linkage) (id : BlockID) (addr : Addr) : Linkage := { l with st := l.st.updateLeash addr id }

def leashes (l : Linkage) : Res (List Leash) := l.st.leashes

def block (gw : Gowaves) (l : Linkage) (id : BlockID) : Res Block := do
  let b ← l.st.block id
  let bID ← Go.wrap "failed to get block" (newBlockIDFromBytes b.id)
  let pID ← (if b.parent.length > 0 then Go.wrap "failed to get block" (newBlockIDFromBytes b.parent)
    else .ok .zero : Res BlockID)
  let ga ← Go.wrap "failed to get block" (Go.lift (gw.newAddressFromBytes b.generator))
  let timestamp ← safeTimestamp b.timestamp
  .ok ⟨bID, pID, b.height, ga, b.score, timestamp⟩

def lcbStep (gw : Gowaves) (l : Linkage) (acc : Longest) (e : BlockID × List Addr) : Res Longest := do
  let b ← Go.wrap "failed to get last common block of '%s'" (l.block gw e.1)
  .ok (acc.next b.score e.2.length e.1)

/-- The last common block with the longest chain. For the unleashed peer the genesis block ID is returned. -/
def lcb (gw : Gowaves) (rng : Go.MapRange BlockID (List Addr)) (l : Linkage) (peer : Addr) : Res BlockID :=
  match l.st.leash peer with
  | .error (.panic msg) => Go.panic msg
  | .error (.err e) =>
    if e.is .notFound then .ok l.genesis
    else Go.fail (.wrap "failed to get last common block of '%s'" e)
  | .ok head => do
    let leashes ← Go.wrap "failed to get last common block of '%s'" l.st.leashes
    let m := groupByBlock leashes
    let acc ← (rng.entries m.toList).foldlM (l.lcbStep gw) ⟨0, 0, .zero⟩
    if head = acc.block then .ok head
    else Go.wrap "failed to get last common block of '%s'" (l.st.lca acc.block head)

def forkStep (gw : Gowaves) (l : Linkage) (peer : Addr) (acc : Longest × Fork) (e : BlockID × List Addr) :
    Res (Longest × Fork) := do
  let b ← Go.wrap "failed to get fork of '%s'" (l.block gw e.1)
  .ok (acc.1.next b.score e.2.length e.1, if peer ∈ e.2 then newFork b e.2 else acc.2)

/-- The end of `Fork`, once the loop has chosen the longest chain and found the fork of the peer. -/
def finishFork (l : Linkage) (longest : BlockID) (fork : Fork) : Res Fork :=
  if fork.headBlock = longest then .ok { fork with longest := true, length := 0 }
  else do
    let lcaID ← Go.wrap "failed to get fork of '%s'" (l.st.lca longest fork.headBlock)
    let lcaBlock ← Go.wrap "failed to get fork of '%s'" (l.st.block lcaID)
    .ok { fork with lastCommonBlock := lcaID, length := fork.length - lcaBlock.height }

def fork (gw : Gowaves) (rng : Go.MapRange BlockID (List Addr)) (l : Linkage) (peer : Addr) : Res Fork := do
  let leashes ← Go.wrap "failed to get fork of '%s'" l.st.leashes
  let m := groupByBlock leashes
  let acc ← (rng.entries m.toList).foldlM (l.forkStep gw peer) (⟨0, 0, .zero⟩, .zero)
  l.finishFork acc.1.block acc.2

/-- The last common block and the length that `forks` sets in an entry, against the longest one. -/
def setLastCommonBlock (l : Linkage) (longest : BlockID) (f : Fork) : Res Fork := do
  let lcaID ← Go.wrap "failed to get forks" (l.st.lca longest f.headBlock)
  let lcaBlock ← Go.wrap "failed to get forks" (l.st.block lcaID)
  .ok { f with lastCommonBlock := lcaID, length := f.length - lcaBlock.height }

/-- The entry that `forks` builds for a leashed block before sorting. -/
def forkOf (gw : Gowaves) (l : Linkage) (e : BlockID × List Addr) : Res Fork := do
  let b ← Go.wrap "failed to get forks" (l.block gw e.1)
  .ok (newFork b e.2)

def forks (gw : Gowaves) (rng : Go.MapRange BlockID (List Addr)) (srt : Go.UnstableSort Fork byScoreAndPeersDesc)
    (l : Linkage) (peers : LookupPeers) : Res (List Fork) := do
  let leashes ← Go.wrap "failed to get forks" l.st.leashes
  let m := groupByBlock (leashes.filter peers.keeps)
  let r ← (rng.entries m.toList).mapM (l.forkOf gw)
  match srt.sort r with
  | [] => Go.panic "index out of range"
  | longest :: rest => ({ longest with longest := true } :: rest).mapM (l.setLastCommonBlock longest.headBlock)

/-! ## What the calls return -/

section
variable {gw : Gowaves} {l l' : Linkage}

/-- **What a put block does**: the leash of a known block is moved, and a new block on a known parent is inserted. -/
theorem putBlock_eq_ok {b : Proto.Block} {addr : Addr} (h : l.putBlock gw b addr = .ok l') :
    (l.st.nums[b.blockID]?.isSome = true ∧ l' = l.moveLeash b.blockID addr) ∨
    (l.st.nums[b.blockID]? = none ∧ l.st.nums[b.parent]?.isSome = true ∧
      ∃ st, l.st.putProtoBlock gw b = .ok st ∧ l' = (⟨l.genesis, st⟩ : Linkage).moveLeash b.blockID addr) := by
  unfold putBlock at h
  obtain ⟨ok, hok, h⟩ := Go.bind_eq_ok.1 h
  rw [Storage.hasBlock_eq] at hok
  cases hok
  split at h
  · rename_i hs
    cases h
    exact .inl ⟨hs, rfl⟩
  · rename_i hs
    obtain ⟨hp, hhp, h⟩ := Go.bind_eq_ok.1 h
    rw [Storage.hasBlock_eq] at hhp
    cases hhp
    split at h
    · cases h
    · rename_i hps
      obtain ⟨st, hst, h⟩ := Go.bind_eq_ok.1 h
      cases h
      exact .inr ⟨by simpa using hs, by simpa using hps, st, hst, rfl⟩

/-- **What a put micro-block does.** -/
theorem putMicroBlock_eq_ok {inv : MicroBlockInv} {addr : Addr} (h : l.putMicroBlock inv addr = .ok l') :
    (l.st.nums[inv.totalBlockID]?.isSome = true ∧ l' = l.moveLeash inv.totalBlockID addr) ∨
    (l.st.nums[inv.totalBlockID]? = none ∧ l.st.nums[inv.reference]?.isSome = true ∧
      ∃ st, l.st.putMicroBlock inv = .ok st ∧ l' = (⟨l.genesis, st⟩ : Linkage).moveLeash inv.totalBlockID addr) := by
  unfold putMicroBlock at h
  obtain ⟨ok, hok, h⟩ := Go.bind_eq_ok.1 h
  rw [Storage.hasBlock_eq] at hok
  cases hok
  split at h
  · rename_i hs
    cases h
    exact .inl ⟨hs, rfl⟩
  · rename_i hs
    obtain ⟨hr, hhr, h⟩ := Go.bind_eq_ok.1 h
    rw [Storage.hasBlock_eq] at hhr
    cases hhr
    split at h
    · cases h
    · rename_i hrs
      obtain ⟨st, hst, h⟩ := Go.bind_eq_ok.1 h
      cases h
      exact .inr ⟨by simpa using hs, by simpa using hrs, st, hst, rfl⟩

end

end Linkage

/-- **The linkage of a fresh database.** -/
theorem newLinkage_eq_ok {gw : Gowaves} {scheme : Proto.Scheme} {genesis : Proto.Block} {l : Linkage}
    (h : newLinkage gw scheme genesis = .ok l) : ∃ ga score,
      gw.newAddressFromPublicKey scheme genesis.generatorPublicKey = .ok ga ∧
      calculateScore genesis.baseTarget = .ok score ∧
      l = ⟨genesis.blockID, ⟨scheme, 1, 1,
        (∅ : ExtTreeMap Nat StoredBlock).insert 1 ⟨1, genesis.timestamp, score, genesis.blockID.bytes, [], ga.bytes⟩,
        (∅ : ExtTreeMap BlockID Nat).insert genesis.blockID 1,
        (∅ : ExtTreeMap Nat Link).insert 1 ⟨1, genesis.blockID.bytes, []⟩, ∅,
        (∅ : ExtTreeMap Nat Nat).insert 1 1, (∅ : ExtTreeMap Nat Nat).insert 1 1⟩⟩ := by
  unfold newLinkage at h
  obtain ⟨st, hst, h⟩ := Go.bind_eq_ok.1 h
  cases h
  rw [Go.wrap_eq_ok] at hst
  unfold Storage.initializeStorage at hst
  rw [if_pos (show (newStorage scheme).blocksCounter = 0 from rfl)] at hst
  obtain ⟨ga, hga, hst⟩ := Go.bind_eq_ok.1 hst
  obtain ⟨score, hscore, hst⟩ := Go.bind_eq_ok.1 hst
  rw [Go.wrap_eq_ok, Go.lift_eq_ok] at hga
  cases hst
  exact ⟨ga, score, hga, hscore, rfl⟩

end Chains
end ForkDetector
