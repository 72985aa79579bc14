import ForkDetector.Chains.Agreement
import ForkDetector.Chains.Scans
/-!
# Disk — runs with stops, on the bytes

The linkage of `chains/linkage.go` over the database of bytes, next to the one over the storage.  A call hands its
batches to `db.Write` one after the other; the process may stop between two of them, and starts again on the database
that it finds.  Through any calls and stops both go the same way, block for block and read for read, and what is stored
is never lost (`stops_survived`).
-/
namespace ForkDetector
namespace Chains

open Proto (BlockID newBlockIDFromBytes Gowaves MicroBlockInv)

/-- A call, or a call that the process stops in after `k` of its batches, to start again. -/
inductive Happening where
  | call (c : Call)
  | stop (c : Call) (k : Nat)

def Happening.addr : Happening → Addr
  | .call c | .stop c _ => c.addr

/-! ## Over the storage -/

/-- `MoveLeash` has one batch; its caller has just looked the block up. -/
def Linkage.moveLeashTrace (l : Linkage) (id : BlockID) (addr : Addr) : Trace :=
  match l.st.hasBlock id with
  | .error f => ⟨[], .error f⟩
  | .ok false => ⟨[], Go.fail (.sentinel .notFound)⟩
  | .ok true => ⟨[[.putLeash addr id]], .ok ()⟩

def Call.trace (gw : Gowaves) (l : Linkage) : Call → Trace
  | .putBlock b addr => l.putBlockTrace gw b addr
  | .putMicroBlock inv addr => l.putMicroBlockTrace inv addr
  | .moveLeash id addr => l.moveLeashTrace id addr

/-- `NewLinkage` on a storage that is there. -/
def openLinkage (gw : Gowaves) (st : Storage) (genesis : Proto.Block) : Res Linkage := do
  let st ← Go.wrap "failed to initialize Linkage" (st.initializeStorage gw genesis)
  .ok ⟨genesis.blockID, st⟩

def Linkage.happen (gw : Gowaves) (genesis : Proto.Block) (l : Linkage) : Happening → Res Linkage
  | .call c => .ok { l with st := l.st.writeAll (c.trace gw l).writes }
  | .stop c k => openLinkage gw (l.st.writeAll ((c.trace gw l).writes.take k)) genesis

/-! ## Over the bytes -/

namespace Database

def hasBlock (db : Database) (id : BlockID) : Res Bool :=
  match db.getNumOfBlockID id with
  | .ok _ => .ok true
  | .error (.err e) =>
    if e.is .notFound then .ok false else Go.fail (.wrap "failed to check block existence" e)
  | .error (.panic msg) => Go.panic msg

def getBlockByID (cbor : Codecs) (db : Database) (id : BlockID) : Res StoredBlock := do
  let n ← Go.wrap "failed to get block by ID '%s'" (db.getNumOfBlockID id)
  Go.wrap "failed to get block by ID '%s'" (db.getBlock cbor n)

/-- Several batches, one after the other. -/
def writeAll (cbor : Codecs) (db : Database) (batches : List (List Write)) : Database := batches.foldl (write cbor) db

end Database

structure Disk where
  genesis : BlockID
  db : Database

namespace Disk
variable (gw : Gowaves) (cbor : Codecs)

/-- `PutBlock` and `PutMicroBlock`: the block `id` stands on `base`, and `op` inserts it. -/
def putTrace (d : Disk) (id base : BlockID) (missing : Sentinel) (op : StorageOp) (addr : Addr) : Trace :=
  match d.db.hasBlock id with
  | .error f => ⟨[], .error f⟩
  | .ok true => ⟨[[.putLeash addr id]], .ok ()⟩
  | .ok false =>
    match d.db.hasBlock base with
    | .error f => ⟨[], .error f⟩
    | .ok false => ⟨[], Go.fail (.sentinel missing)⟩
    | .ok true =>
      match op.batch gw d.db.scheme (d.db.snapshot cbor) with
      | .error f => ⟨[], .error f⟩
      | .ok batch => ⟨[batch, [.putLeash addr id]], .ok ()⟩

def moveLeashTrace (d : Disk) (id : BlockID) (addr : Addr) : Trace :=
  match d.db.hasBlock id with
  | .error f => ⟨[], .error f⟩
  | .ok false => ⟨[], Go.fail (.sentinel .notFound)⟩
  | .ok true => ⟨[[.putLeash addr id]], .ok ()⟩

def trace (d : Disk) : Call → Trace
  | .putBlock b addr => d.putTrace gw cbor b.blockID b.parent .parentNotFound (.putProtoBlock b) addr
  | .putMicroBlock inv addr => d.putTrace gw cbor inv.totalBlockID inv.reference .refNotFound (.putMicroBlock inv) addr
  | .moveLeash id addr => d.moveLeashTrace id addr

/-- `NewLinkage` on a database that is there. -/
def openDisk (db : Database) (genesis : Proto.Block) : Res Disk := do
  let db ← Go.wrap "failed to initialize Linkage" (db.exec gw cbor (.initializeStorage genesis))
  .ok ⟨genesis.blockID, db⟩

def happen (genesis : Proto.Block) (d : Disk) : Happening → Res Disk
  | .call c => .ok { d with db := d.db.writeAll cbor (d.trace gw cbor c).writes }
  | .stop c k => openDisk gw cbor (d.db.writeAll cbor ((d.trace gw cbor c).writes.take k)) genesis

end Disk

/-! ## What the batches of a call write -/

section
variable {gw : Gowaves} {l : Linkage}

/-- The call with its batches. -/
theorem call_eq_trace (gw : Gowaves) (l : Linkage) (c : Call) : l.call gw c =
    (c.trace gw l).result.map fun _ => { l with st := l.st.writeAll (c.trace gw l).writes } := by
  cases c with
  | putBlock b addr => exact Put.exec_eq_trace gw l (.block b addr)
  | putMicroBlock inv addr => exact Put.exec_eq_trace gw l (.microBlock inv addr)
  | moveLeash id addr =>
    simp only [Linkage.call, Linkage.hasBlock, Call.trace, Linkage.moveLeashTrace, Storage.hasBlock_eq]
    cases l.st.nums[id]?.isSome <;> rfl

/-- A block that a call inserts, before its leash. -/
structure Puts (gw : Gowaves) (l : Linkage) (c : Call) (st : Storage) : Prop where
  operation : ∃ op, l.st.exec gw op = .ok st
  counter : st.blocksCounter = l.st.blocksCounter + 1
  stored : st.nums[c.id]?.isSome = true
  leashes : st.leashRecords = l.st.leashRecords
  whole : l.exec gw c = .ok { l with st := st.updateLeash c.addr c.id }

/-- **What stands when a call has made some of its writes**: what stood before it, or that with the leash on a stored
block, or that with a block inserted, and perhaps the leash on it. -/
inductive Written (gw : Gowaves) (l : Linkage) (c : Call) : Storage → Prop where
  | before : Written gw l c l.st
  | leash : l.st.nums[c.id]?.isSome = true → Written gw l c (l.st.updateLeash c.addr c.id)
  | block {st : Storage} : Puts gw l c st → Written gw l c st
  | both {st : Storage} : Puts gw l c st → Written gw l c (st.updateLeash c.addr c.id)

theorem Storage.Inserted.num_isSome {s s' : Storage} {id parentID : BlockID} {ext : Nat} {b : StoredBlock}
    {parents : List Nat} (I : Inserted s s' id parentID ext b parents) : s'.nums[id]?.isSome = true := by
  rw [I.fields.2.2.1, Go.getElem?_insert_eq, if_pos rfl]
  rfl

theorem trace_written {c : Call} {id base : BlockID} {missing : Sentinel} {batch : Res (List Write)} {addr : Addr}
    (hid : c.id = id) (haddr : c.addr = addr)
    (hbatch : ∀ b, batch = .ok b → l.st.nums[id]?.isSome = false → l.st.nums[base]?.isSome = true →
      Puts gw l c (l.st.write b)) (k : Nat) :
    Written gw l c (l.st.writeAll ((l.trace id base missing batch addr).writes.take k)) := by
  subst hid haddr
  have hnone : Written gw l c (l.st.writeAll (([] : List (List Write)).take k)) := by
    rw [List.take_nil]
    exact .before
  unfold Linkage.trace
  rw [Storage.hasBlock_eq, Storage.hasBlock_eq]
  cases hs : l.st.nums[c.id]?.isSome with
  | true =>
    rcases k with - | k
    · exact .before
    · rw [List.take_succ_cons, List.take_nil]
      exact .leash hs
  | false =>
    cases hb : l.st.nums[base]?.isSome with
    | false => exact hnone
    | true =>
      cases batch with
      | error f => exact hnone
      | ok batch =>
        have hputs := hbatch batch rfl hs hb
        rcases k with - | - | k
        · exact .before
        · exact .block hputs
        · rw [List.take_succ_cons, List.take_succ_cons, List.take_nil]
          exact .both hputs

/-- **After any number of the writes of a call** one of those stands. -/
theorem written (gw : Gowaves) (l : Linkage) (c : Call) (k : Nat) :
    Written gw l c (l.st.writeAll ((c.trace gw l).writes.take k)) := by
  cases c with
  | putBlock b addr =>
    refine trace_written (c := .putBlock b addr) rfl rfl (fun batch hbatch hs hb => ?_) k
    have hs : l.st.nums[b.blockID]?.isSome = false := hs
    have hput : l.st.putProtoBlock gw b = .ok (l.st.write batch) := by rw [Storage.putProtoBlock_batch, hbatch]; rfl
    obtain ⟨pn, pb, nb, parents, -, -, -, I⟩ := Storage.putProtoBlock_eq_ok hput
    refine ⟨⟨.putProtoBlock b, hput⟩, I.fields.2.1, I.num_isSome, I.fields.2.2.2.2.2, ?_⟩
    show l.putBlock gw b addr = _
    unfold Linkage.putBlock
    rw [Storage.hasBlock_eq, Storage.hasBlock_eq, hs, hb, hput]
    rfl
  | putMicroBlock inv addr =>
    refine trace_written (c := .putMicroBlock inv addr) rfl rfl (fun batch hbatch hs hb => ?_) k
    have hs : l.st.nums[inv.totalBlockID]?.isSome = false := hs
    have hput : l.st.putMicroBlock inv = .ok (l.st.write batch) := by rw [Storage.putMicroBlock_batch, hbatch]; rfl
    obtain ⟨rn, rb, p, parents, -, -, -, I⟩ := Storage.putMicroBlock_eq_ok hput
    refine ⟨⟨.putMicroBlock inv, hput⟩, I.fields.2.1, I.num_isSome, I.fields.2.2.2.2.2, ?_⟩
    show l.putMicroBlock inv addr = _
    unfold Linkage.putMicroBlock
    rw [Storage.hasBlock_eq, Storage.hasBlock_eq, hs, hb, hput]
    rfl
  | moveLeash id addr =>
    simp only [Call.trace, Linkage.moveLeashTrace, Storage.hasBlock_eq]
    cases hs : l.st.nums[id]?.isSome with
    | false =>
      simp only [List.take_nil]
      exact .before
    | true =>
      rcases k with - | k
      · exact .before
      · simp only [List.take_succ_cons, List.take_nil]
        exact .leash hs

end

/-! ## What lasts -/

/-- **What lasts through calls and stops**: the storage holds a tree, its numbers are those of blocks, and the leashes
of IPv4 addresses are on blocks of the tree. -/
structure Lasts (gw : Gowaves) (l : Linkage) (t : BlockTree BlockID) : Prop where
  stands : Stands gw l t
  bounded : l.st.Bounded
  leashes : ∀ (key : Bytes) (x : BlockID), l.st.leashRecords[key]? = some x →
    t.Stored x ∧ ∃ a : Addr, a.is4 = true ∧ key = addrKeyBytes a

/-- **What some calls and stops change**: blocks are added, and leashes are moved by those that name the address. -/
structure Changes (l l' : Linkage) (t t' : BlockTree BlockID) (hs : List Happening) : Prop where
  kept : Kept l l' t t'
  leash : ∀ a : Addr, a.is4 = true → (∀ h ∈ hs, h.addr ≠ a) → l'.st.leash a = l.st.leash a
  genesis : l'.genesis = l.genesis
  counter : l.st.blocksCounter ≤ l'.st.blocksCounter ∧ l'.st.blocksCounter ≤ l.st.blocksCounter + hs.length

namespace Changes
variable {l l' l'' : Linkage} {t t' t'' : BlockTree BlockID} {hs hs' : List Happening}

theorem refl (l : Linkage) (t : BlockTree BlockID) : Changes l l t t [] :=
  ⟨.refl l t, fun _ _ _ => rfl, rfl, Nat.le_refl _, Nat.le_refl _⟩

theorem trans (C : Changes l l' t t' hs) (C' : Changes l' l'' t' t'' hs') : Changes l l'' t t'' (hs ++ hs') := by
  refine ⟨C.kept.trans C'.kept, fun a ha hno => ?_, C'.genesis.trans C.genesis, ?_, ?_⟩
  · obtain ⟨hno, hno'⟩ := List.forall_mem_append.1 hno
    exact (C'.leash a ha hno').trans (C.leash a ha hno)
  · exact Nat.le_trans C.counter.1 C'.counter.1
  · have := C.counter.2
    have := C'.counter.2
    rw [List.length_append]
    omega

end Changes

theorem leash_updateLeash {s : Storage} {addr a : Addr} (ha : addr.is4 = true) (id : BlockID) (hne : addr ≠ a) :
    (s.updateLeash addr id).leash a = s.leash a := by
  have hkey : addrKeyBytes a ≠ addrKeyBytes addr := fun h => hne (eq_of_addrKeyBytes ha h.symm)
  have hsame : (s.updateLeash addr id).leashRecords[addrKeyBytes a]? = s.leashRecords[addrKeyBytes a]? := by
    show (s.leashRecords.insert (addrKeyBytes addr) id)[addrKeyBytes a]? = _
    rw [Go.getElem?_insert_eq, if_neg hkey]
  rw [Storage.getLeash_eq, Storage.getLeash_eq, hsame]

namespace Lasts
variable {gw : Gowaves} {l : Linkage} {t : BlockTree BlockID} (L : Lasts gw l t)
include L

theorem updateLeash {addr : Addr} (ha : addr.is4 = true) {id : BlockID} (hid : t.Stored id) :
    Lasts gw (l.moveLeash id addr) t := by
  refine ⟨L.stands.moveLeash id addr, ⟨L.bounded.nums, L.bounded.parents, L.bounded.pointers, L.bounded.counters⟩,
    fun key x hx => ?_⟩
  have hx : (l.st.leashRecords.insert (addrKeyBytes addr) id)[key]? = some x := hx
  rw [Go.getElem?_insert_eq] at hx
  split at hx
  · rename_i hkey
    cases hx
    exact ⟨hid, addr, ha, hkey⟩
  · exact L.leashes key x hx

/-- The block of a put, without its leash. -/
theorem puts {c : Call} {st : Storage} (P : Puts gw l c st) :
    ∃ t', Lasts gw { l with st := st } t' ∧ Kept l { l with st := st } t t' ∧ t'.Stored c.id := by
  obtain ⟨op, hop⟩ := P.operation
  obtain ⟨S', K⟩ := L.stands.exec P.whole
  have S1 : Stands gw { l with st := st } (t.call c) :=
    @Stands.of_moveLeash gw { l with st := st } (t.call c) c.id c.addr S'
  have hb : (l.st.left gw op).Bounded := (L.bounded.left op).1
  rw [Storage.left_of_exec op hop] at hb
  refine ⟨t.call c, ⟨S1, hb, fun key x hx => ?_⟩, ⟨K.node, K.num, K.block, K.scheme, K.root⟩, ?_⟩
  · rw [show ({ l with st := st } : Linkage).st.leashRecords = l.st.leashRecords from P.leashes] at hx
    exact ⟨K.stored (L.leashes key x hx).1, (L.leashes key x hx).2⟩
  · exact S1.refines.stored_iff.2 P.stored

theorem written {c : Call} (hc : c.addr.is4 = true) {st : Storage} (hw : Written gw l c st) (h : Happening)
    (hh : h.addr = c.addr) : ∃ t', Lasts gw { l with st := st } t' ∧ Changes l { l with st := st } t t' [h] := by
  have hframe : ∀ {s : Storage}, s.leashRecords = l.st.leashRecords → ∀ a : Addr, a.is4 = true →
      (∀ h' ∈ [h], h'.addr ≠ a) → s.leash a = l.st.leash a ∧ (s.updateLeash c.addr c.id).leash a = l.st.leash a := by
    intro s hs a ha hno
    have hsame : s.leash a = l.st.leash a := by rw [Storage.getLeash_eq, Storage.getLeash_eq, hs]
    have hne : c.addr ≠ a := hh ▸ hno h (List.mem_singleton.2 rfl)
    exact ⟨hsame, (leash_updateLeash hc c.id hne).trans hsame⟩
  cases hw with
  | before => exact ⟨t, L, .refl l t, fun _ _ _ => rfl, rfl, Nat.le_refl _, Nat.le_succ _⟩
  | leash hs =>
    exact ⟨t, L.updateLeash hc (L.stands.refines.stored_iff.2 hs), .moveLeash l t _ _,
      fun a ha hno => (hframe rfl a ha hno).2, rfl, Nat.le_refl _, Nat.le_succ _⟩
  | block P =>
    obtain ⟨t', L', K, -⟩ := L.puts P
    exact ⟨t', L', K, fun a ha hno => (hframe P.leashes a ha hno).1, rfl, P.counter ▸ Nat.le_succ _,
      Nat.le_of_eq P.counter⟩
  | both P =>
    obtain ⟨t', L', K, hid⟩ := L.puts P
    exact ⟨t', L'.updateLeash hc hid, K.trans (.moveLeash _ t' _ _), fun a ha hno => (hframe P.leashes a ha hno).2, rfl,
      P.counter ▸ Nat.le_succ _, Nat.le_of_eq P.counter⟩

theorem blocksCounter_ne_zero : l.st.blocksCounter ≠ 0 := by
  have hroot := (L.stands.refines.num_stored _ _ L.stands.refines.root_num).2
  omega

/-- Opened again, the storage is as it was. -/
theorem opened {genesis : Proto.Block} (hg : l.genesis = genesis.blockID) : openLinkage gw l.st genesis = .ok l := by
  unfold openLinkage Storage.initializeStorage
  rw [if_neg L.blocksCounter_ne_zero, ← hg]
  rfl

end Lasts

/-! ## The bytes follow the storage -/

/-- The database of the disk holds the typed maps of the storage. -/
structure Follows (cbor : Codecs) (d : Disk) (l : Linkage) : Prop where
  genesis : d.genesis = l.genesis
  holds : Represents cbor d.db l.st.families

theorem Write.Fits.key {w : Write} (h : w.Fits) : w.key.Fits := by
  cases w with
  | putLeash addr id => exact h
  | _ => trivial

theorem fits_trace {l : Linkage} {id base : BlockID} {missing : Sentinel} {batch : Res (List Write)} {addr : Addr}
    (ha : addr.is4 = true) (hb : ∀ b, batch = .ok b → ∀ w ∈ b, w.Fits) :
    ∀ b ∈ (l.trace id base missing batch addr).writes, ∀ w ∈ b, w.Fits := by
  have hleash : ∀ w ∈ [Write.putLeash addr id], w.Fits := List.forall_mem_singleton.2 ha
  have hnone : ∀ b ∈ ([] : List (List Write)), ∀ w ∈ b, w.Fits := fun b h => absurd h List.not_mem_nil
  unfold Linkage.trace
  rw [Storage.hasBlock_eq, Storage.hasBlock_eq]
  cases l.st.nums[id]?.isSome with
  | true => exact List.forall_mem_singleton.2 hleash
  | false =>
    cases l.st.nums[base]?.isSome with
    | false => exact hnone
    | true =>
      cases batch with
      | error f => exact hnone
      | ok batch => exact List.forall_mem_cons.2 ⟨hb batch rfl, List.forall_mem_singleton.2 hleash⟩

/-- The batches of a call on an IPv4 address have numbers that are `uint64`. -/
theorem Storage.Bounded.fits_writes {gw : Gowaves} {l : Linkage} (B : l.st.Bounded)
    (hnext : l.st.blocksCounter + 1 < 2 ^ 64) {c : Call} (hc : c.addr.is4 = true) :
    ∀ b ∈ (c.trace gw l).writes, ∀ w ∈ b, w.Fits := by
  have hlt : l.st.blocksCounter < 2 ^ 64 := Nat.lt_of_succ_lt hnext
  cases c with
  | putBlock b addr => exact fits_trace hc fun batch hb => B.fits_protoBlockBatch hlt hnext hb
  | putMicroBlock inv addr => exact fits_trace hc fun batch hb => B.fits_microBlockBatch hlt hnext hb
  | moveLeash id addr =>
    simp only [Call.trace, Linkage.moveLeashTrace, Storage.hasBlock_eq]
    cases l.st.nums[id]?.isSome with
    | false => exact fun b h => absurd h List.not_mem_nil
    | true => exact List.forall_mem_singleton.2 (List.forall_mem_singleton.2 hc)

theorem Represents.writeAll {cbor : Codecs} {db : Database} {s : Storage} (h : Represents cbor db s.families)
    {batches : List (List Write)} (hb : ∀ b ∈ batches, ∀ w ∈ b, w.Fits) :
    Represents cbor (db.writeAll cbor batches) (s.writeAll batches).families := by
  induction batches generalizing db s with
  | nil => exact h
  | cons b batches ih =>
    obtain ⟨hfirst, hrest⟩ := List.forall_mem_cons.1 hb
    have hwritten : Represents cbor (db.write cbor b) (s.write b).families := by
      rw [Storage.families_write hfirst]
      exact h.write fun w hw => (hfirst w hw).key
    exact ih hwritten hrest

namespace Follows
variable {gw : Gowaves} {cbor : Codecs} {d : Disk} {l : Linkage} (F : Follows cbor d l) (B : l.st.Bounded)
include F B

section
variable (hlt : l.st.blocksCounter < 2 ^ 64)
include hlt

theorem getNumOfBlockID_eq (id : BlockID) : d.db.getNumOfBlockID id = l.st.getNumOfBlockID id := by
  have hread := congrFun (congrArg Snapshot.getNumOfBlockID F.holds.snapshot) id
  exact hread.trans (B.getNumOfBlockID_eq hlt id)

theorem hasBlock_eq (id : BlockID) : d.db.hasBlock id = l.st.hasBlock id := by
  unfold Database.hasBlock
  rw [F.getNumOfBlockID_eq B hlt id]
  rfl

omit B hlt in
theorem getBlock_eq {n : Nat} (hn : n < 2 ^ 64) : d.db.getBlock cbor n = l.st.getBlock n := by
  have hread := congrFun (congrArg Snapshot.getBlock F.holds.snapshot) n
  exact hread.trans (Storage.Bounded.getBlock_eq hn)

omit B hlt in
theorem getLink_eq {n : Nat} (hn : n < 2 ^ 64) : d.db.getLink cbor n = l.st.getLink n := by
  have hread := congrFun (congrArg Snapshot.getLink F.holds.snapshot) n
  exact hread.trans (Storage.Bounded.getLink_eq hn)

theorem getBlockByID_eq (id : BlockID) : d.db.getBlockByID cbor id = l.st.block id := by
  unfold Database.getBlockByID Storage.block Storage.getBlockByID
  rw [F.getNumOfBlockID_eq B hlt id]
  cases hn : l.st.getNumOfBlockID id with
  | error f => cases f <;> rfl
  | ok n =>
    have hle := B.nums id n (Storage.getNumOfBlockID_eq_ok.1 hn)
    exact congrArg (Go.wrap "failed to get block by ID '%s'") (F.getBlock_eq (Nat.lt_of_le_of_lt hle hlt))

end

/-- **A call makes the same writes on the disk**, and ends in the same way. -/
theorem trace_eq (hnext : l.st.blocksCounter + 1 < 2 ^ 64) (c : Call) : d.trace gw cbor c = c.trace gw l := by
  have hlt : l.st.blocksCounter < 2 ^ 64 := Nat.lt_of_succ_lt hnext
  have hscheme : d.db.scheme = l.st.scheme := F.holds.scheme
  cases c with
  | putBlock b addr =>
    show d.putTrace gw cbor _ _ _ _ _ = l.putBlockTrace gw b addr
    unfold Disk.putTrace
    rw [F.hasBlock_eq B hlt, F.hasBlock_eq B hlt, F.holds.snapshot, hscheme]
    simp only [StorageOp.batch, B.putProtoBlock_eq hlt hnext]
    rfl
  | putMicroBlock inv addr =>
    show d.putTrace gw cbor _ _ _ _ _ = l.putMicroBlockTrace inv addr
    unfold Disk.putTrace
    rw [F.hasBlock_eq B hlt, F.hasBlock_eq B hlt, F.holds.snapshot, hscheme]
    simp only [StorageOp.batch, B.putMicroBlock_eq hlt hnext]
    rfl
  | moveLeash id addr =>
    show d.moveLeashTrace id addr = l.moveLeashTrace id addr
    unfold Disk.moveLeashTrace Linkage.moveLeashTrace
    rw [F.hasBlock_eq B hlt]

end Follows

/-! ## Lists -/

/-- Leashes in the order of their keys. -/
def Leash.before (a b : Leash) : Prop := compare (addrKeyBytes a.addr) (addrKeyBytes b.addr) = .lt

theorem Leash.before_asymm (a b : Leash) (h : a.before b) : ¬ b.before a := fun h' => by
  unfold Leash.before at h h'
  rw [Std.OrientedOrd.eq_swap (a := addrKeyBytes a.addr), h'] at h
  cases h

/-- A scan in the order of the keys lists leashes in that order. -/
theorem ascending_of_scan {ν : Type} {rs : List (Bytes × ν)} {f : Bytes × ν → Res Leash} {ls : List Leash}
    (hrs : rs.Pairwise fun r r' => compare r.1 r'.1 = .lt) (hf : ∀ r lsh, f r = .ok lsh → addrKeyBytes lsh.addr = r.1)
    (h : rs.mapM f = .ok ls) : ls.Pairwise Leash.before := by
  have hkeys : ls.map (fun lsh => addrKeyBytes lsh.addr) = rs.map Prod.fst :=
    Go.map_of_mapM h fun r lsh hr => hf r lsh hr
  rw [← List.pairwise_map (f := Prod.fst) (R := fun k k' => compare k k' = .lt), ← hkeys] at hrs
  exact (List.pairwise_map (f := fun lsh : Leash => addrKeyBytes lsh.addr)
    (R := fun k k' => compare k k' = .lt)).1 hrs

theorem Storage.ascending_leashes {s : Storage} {ls : List Leash} (h : s.leashes = .ok ls) :
    ls.Pairwise Leash.before := by
  refine ascending_of_scan (Std.ExtTreeMap.ordered_keys_toList.filter _) (fun r lsh hr => ?_) h
  obtain ⟨a, ha, hr⟩ := Go.bind_eq_ok.1 hr
  cases hr
  exact addrKeyBytes_of_addrKeyFromBytes ha

theorem Database.ascending_leashes {db : Database} {ls : List Leash} (h : db.leashes = .ok ls) :
    ls.Pairwise Leash.before := by
  refine ascending_of_scan (Std.ExtTreeMap.ordered_keys_toList.filter _) (fun r lsh hr => ?_) h
  obtain ⟨a, ha, hr⟩ := Go.bind_eq_ok.1 hr
  obtain ⟨id, -, hr⟩ := Go.bind_eq_ok.1 hr
  cases hr
  exact addrKeyBytes_of_addrKeyFromBytes ha

theorem Storage.getLeash_eq_ok {s : Storage} {a : Addr} {x : BlockID} :
    s.leash a = .ok x ↔ s.leashRecords[addrKeyBytes a]? = some x := by
  rw [getLeash_eq]
  cases s.leashRecords[addrKeyBytes a]? <;> simp [Go.fail]

theorem Follows.getLeash_eq {cbor : Codecs} {d : Disk} {l : Linkage} (F : Follows cbor d l) {a : Addr}
    (ha : a.is4 = true) : d.db.getLeash a = l.st.leash a := by
  rw [F.holds.getLeash ha, Storage.getLeash_eq]
  show Families.found _ l.st.leashRecords[addrKeyBytes a]? = _
  cases l.st.leashRecords[addrKeyBytes a]? <;> rfl

namespace Lasts
variable {gw : Gowaves} {cbor : Codecs} {d : Disk} {l : Linkage} {t : BlockTree BlockID} (L : Lasts gw l t)
include L

theorem mirrors : Mirrors gw l t :=
  ⟨L.stands.refines, fun key x hx => ⟨(L.leashes key x hx).1, (L.leashes key x hx).2.imp fun _ h => h.2⟩,
    L.stands.genesis_eq⟩

/-- Every head has a number below the last one, and so has its block. -/
theorem head_lt (hnext : l.st.blocksCounter + 1 < 2 ^ 64) {h n : Nat} (hn : l.st.headToBlock[h]? = some n) :
    h < maxUint64 ∧ n < 2 ^ 64 := by
  have hh := (L.stands.heads.numbered h).1 (by rw [hn]; rfl)
  have hcounters := L.bounded.counters
  obtain ⟨x, hx, -⟩ := (L.stands.heads.leaves n).1 (by rw [(L.stands.heads.inverse h n).1 hn]; rfl)
  have hle := L.bounded.nums x n hx
  unfold maxUint64
  omega

variable (F : Follows cbor d l)
include F

theorem leashes_eq : d.db.leashes = l.st.leashes := by
  obtain ⟨ls, hls, -, hmem⟩ := F.holds.leashes
  obtain ⟨ls', hls'⟩ := L.mirrors.exists_leashes
  have heq : ls = ls' := by
    refine Keyspace.eq_of_ascending Leash.before_asymm (Database.ascending_leashes hls)
      (Storage.ascending_leashes hls') fun lsh => ?_
    rw [hmem]
    show lsh.addr.is4 = true ∧ l.st.leashRecords[addrKeyBytes lsh.addr]? = some lsh.blockID ↔ _
    constructor
    · rintro ⟨ha, hk⟩
      exact mem_leashes_of_is4 hls' ha (Storage.getLeash_eq_ok.2 hk)
    · intro hin
      have hk := Storage.getLeash_eq_ok.1 (L.mirrors.listed hls' hin).1
      obtain ⟨-, a, ha, hkey⟩ := L.leashes _ _ hk
      exact ⟨eq_of_addrKeyBytes ha hkey.symm ▸ ha, hk⟩
  rw [hls, hls', heq]

theorem heads_eq (hnext : l.st.blocksCounter + 1 < 2 ^ 64) : d.db.heads cbor = l.st.heads := by
  obtain ⟨rs, hrs, hsorted, hmem⟩ := F.holds.getHeads
  have heq : rs = l.st.getHeads := by
    refine Keyspace.eq_of_ascending (fun _ _ h => Nat.lt_asymm h) hsorted
      (Std.ExtTreeMap.ordered_keys_toList.imp Nat.compare_eq_lt.1) fun r => ?_
    rw [hmem, show r ∈ l.st.getHeads ↔ _ from Std.ExtTreeMap.mem_toList_iff_getElem?_eq_some]
    show (∃ h n : UInt64, r = (h.toNat, n.toNat) ∧ h.toNat < maxUint64 ∧
      l.st.headToBlock[h.toNat]?.map UInt64.ofNat = some n) ↔ _
    constructor
    · rintro ⟨h, n, rfl, -, hn⟩
      obtain ⟨m, hm, rfl⟩ := Option.map_eq_some_iff.1 hn
      rw [hm, UInt64.toNat_ofNat_of_lt' (L.head_lt hnext hm).2]
    · intro hn
      obtain ⟨hh, hlt⟩ := L.head_lt hnext hn
      have hto : (UInt64.ofNat r.1).toNat = r.1 := UInt64.toNat_ofNat_of_lt' (Nat.lt_trans hh (by decide))
      exact ⟨.ofNat r.1, .ofNat r.2, by rw [hto, UInt64.toNat_ofNat_of_lt' hlt], hto.symm ▸ hh, by rw [hto, hn]; rfl⟩
  have hread : ∀ r ∈ l.st.getHeads, d.db.head cbor r = (do
      let bl ← Go.wrap "failed to get heads" (l.st.getBlock r.2)
      let id ← Go.wrap "failed to get heads" (newBlockIDFromBytes bl.id)
      .ok ⟨r.1, id⟩ : Res Head) := fun r hr => by
    have hn := (L.head_lt hnext (Std.ExtTreeMap.mem_toList_iff_getElem?_eq_some.1 hr)).2
    unfold Database.head
    rw [F.getBlock_eq hn]
  unfold Database.heads Storage.heads
  rw [hrs, heq]
  exact Go.mapM_congr hread

end Lasts

/-! ## Runs -/

/-- **The disk reads as the linkage does**, and the next call makes the same writes, which are those of the call of the
linkage, and ends in the same way. -/
structure Reads (gw : Gowaves) (cbor : Codecs) (d : Disk) (l : Linkage) : Prop where
  genesis : d.genesis = l.genesis
  hasBlock : ∀ id, d.db.hasBlock id = l.hasBlock id
  block : ∀ id, d.db.getBlockByID cbor id = l.st.block id
  link : ∀ n < 2 ^ 64, d.db.getLink cbor n = l.st.getLink n
  leash : ∀ a : Addr, a.is4 = true → d.db.getLeash a = l.st.leash a
  leashes : d.db.leashes = l.leashes
  heads : d.db.heads cbor = l.heads
  calls : ∀ c, d.trace gw cbor c = c.trace gw l
  ends : ∀ c, l.call gw c =
    (d.trace gw cbor c).result.map fun _ => { l with st := l.st.writeAll (d.trace gw cbor c).writes }

section
variable {gw : Gowaves} {cbor : Codecs} {genesis : Proto.Block} {d : Disk} {l : Linkage} {t : BlockTree BlockID}

theorem Lasts.reads (L : Lasts gw l t) (F : Follows cbor d l) (hnext : l.st.blocksCounter + 1 < 2 ^ 64) :
    Reads gw cbor d l := by
  have hlt : l.st.blocksCounter < 2 ^ 64 := Nat.lt_of_succ_lt hnext
  have hcalls : ∀ c, d.trace gw cbor c = c.trace gw l := F.trace_eq L.bounded hnext
  exact ⟨F.genesis, F.hasBlock_eq L.bounded hlt, F.getBlockByID_eq L.bounded hlt, fun _ hn => F.getLink_eq hn,
    fun _ ha => F.getLeash_eq ha, L.leashes_eq F, L.heads_eq F hnext, hcalls,
    fun c => by rw [hcalls]; exact call_eq_trace gw l c⟩

/-- A database that holds blocks is opened as it is. -/
theorem Follows.opened (F : Follows cbor d l) (L : Lasts gw l t) (hlt : l.st.blocksCounter < 2 ^ 64)
    (hg : l.genesis = genesis.blockID) : Disk.openDisk gw cbor d.db genesis = .ok d := by
  have hbatch : (StorageOp.initializeStorage genesis).batch gw d.db.scheme (d.db.snapshot cbor) = .ok [] := by
    rw [F.holds.snapshot]
    show l.st.families.snapshot.initializeStorage gw d.db.scheme genesis = _
    unfold Snapshot.initializeStorage
    rw [Storage.Bounded.getBlocksCounter_eq hlt]
    exact if_neg L.blocksCounter_ne_zero
  unfold Disk.openDisk Database.exec
  rw [hbatch, ← hg, ← F.genesis]
  rfl

/-- **One thing that happens.** -/
theorem Lasts.happen (L : Lasts gw l t) (F : Follows cbor d l) (hnext : l.st.blocksCounter + 1 < 2 ^ 64)
    (hg : l.genesis = genesis.blockID) {h : Happening} (ha : h.addr.is4 = true) :
    ∃ d' l' t', d.happen gw cbor genesis h = .ok d' ∧ l.happen gw genesis h = .ok l' ∧ Follows cbor d' l' ∧
      Lasts gw l' t' ∧ Changes l l' t t' [h] := by
  have hafter : ∀ (c : Call) (k : Nat), c.addr = h.addr →
      ∃ t', Lasts gw { l with st := l.st.writeAll ((c.trace gw l).writes.take k) } t' ∧
        Changes l { l with st := l.st.writeAll ((c.trace gw l).writes.take k) } t t' [h] ∧
        Follows cbor { d with db := d.db.writeAll cbor ((d.trace gw cbor c).writes.take k) }
          { l with st := l.st.writeAll ((c.trace gw l).writes.take k) } := by
    intro c k hc
    obtain ⟨t', L', C⟩ := L.written (hc ▸ ha) (Chains.written gw l c k) h hc.symm
    refine ⟨t', L', C, F.genesis, ?_⟩
    rw [F.trace_eq L.bounded hnext]
    exact F.holds.writeAll fun b hb => L.bounded.fits_writes hnext (hc ▸ ha) b (List.mem_of_mem_take hb)
  cases h with
  | call c =>
    obtain ⟨t', L', C, F'⟩ := hafter c (c.trace gw l).writes.length rfl
    rw [F.trace_eq L.bounded hnext] at F'
    rw [List.take_length] at L' C F'
    exact ⟨_, _, t', rfl, rfl, by rw [F.trace_eq L.bounded hnext]; exact F', L', C⟩
  | stop c k =>
    obtain ⟨t', L', C, F'⟩ := hafter c k rfl
    exact ⟨_, _, t', F'.opened L' (Nat.lt_of_le_of_lt C.counter.2 hnext) hg, L'.opened hg, F', L', C⟩

/-- **A run of what happens**, by induction on the list. -/
theorem Lasts.run : ∀ {hs : List Happening} {d : Disk} {l : Linkage} {t : BlockTree BlockID}, Lasts gw l t →
    Follows cbor d l → l.st.blocksCounter + hs.length < 2 ^ 64 → l.genesis = genesis.blockID →
    (∀ h ∈ hs, h.addr.is4 = true) →
    ∃ d' l' t', hs.foldlM (Disk.happen gw cbor genesis) d = .ok d' ∧ hs.foldlM (Linkage.happen gw genesis) l = .ok l' ∧
      Follows cbor d' l' ∧ Lasts gw l' t' ∧ Changes l l' t t' hs
  | [], d, l, t, L, F, _, _, _ => ⟨d, l, t, rfl, rfl, F, L, .refl l t⟩
  | h :: hs, d, l, t, L, F, hlen, hg, ha => by
    rw [List.length_cons] at hlen
    obtain ⟨hfirst, hrest⟩ := List.forall_mem_cons.1 ha
    obtain ⟨d1, l1, t1, hd1, hl1, F1, L1, C1⟩ := L.happen F (by omega) hg hfirst
    have hcounter : l1.st.blocksCounter + hs.length < 2 ^ 64 := by
      have := C1.counter.2
      rw [List.length_singleton] at this
      omega
    obtain ⟨d', l', t', hd, hl, F', L', C'⟩ := L1.run F1 hcounter (C1.genesis.trans hg) hrest
    refine ⟨d', l', t', ?_, ?_, F', L', C1.trans C'⟩
    · rw [List.foldlM_cons]
      exact Go.bind_eq_ok.2 ⟨d1, hd1, hd⟩
    · rw [List.foldlM_cons]
      exact Go.bind_eq_ok.2 ⟨l1, hl1, hl⟩

end

/-- A new database. -/
theorem lasts_start {gw : Gowaves} (cbor : Codecs) {scheme : Proto.Scheme} {genesis : Proto.Block} {l : Linkage}
    (h : newLinkage gw scheme genesis = .ok l) :
    ∃ d, Disk.openDisk gw cbor (newDatabase scheme) genesis = .ok d ∧ Follows cbor d l ∧
      Lasts gw l (.single genesis.blockID) ∧ l.st.blocksCounter = 1 := by
  have S := stands_start h
  have hleashes : l.st.leashRecords = ∅ := by
    obtain ⟨ga, score, -, -, rfl⟩ := newLinkage_eq_ok h
    rfl
  have hcounter : l.st.blocksCounter = 1 := by
    obtain ⟨ga, score, -, -, rfl⟩ := newLinkage_eq_ok h
    rfl
  obtain ⟨st, hst, h⟩ := Go.bind_eq_ok.1 h
  cases h
  have hinit := Go.wrap_eq_ok.1 hst
  have B : ((newStorage scheme).left gw (.initializeStorage genesis)).Bounded :=
    ((Storage.bounded_new scheme).left (.initializeStorage genesis)).1
  rw [Storage.left_of_exec (.initializeStorage genesis) hinit] at B
  rw [Storage.initializeStorage_batch (s := newStorage scheme) (Nat.two_pow_pos 64)] at hinit
  cases hb : (newStorage scheme).families.snapshot.initializeStorage gw scheme genesis with
  | error f => rw [show (newStorage scheme).scheme = scheme from rfl, hb] at hinit; cases hinit
  | ok batch =>
    rw [show (newStorage scheme).scheme = scheme from rfl, hb] at hinit
    cases hinit
    have R := represents_new cbor scheme
    rw [← Storage.families_new] at R
    have hfits := Storage.fits_initializeStorage hb
    refine ⟨⟨genesis.blockID, (newDatabase scheme).write cbor batch⟩, ?_, ⟨rfl, ?_⟩, ⟨S, B, ?_⟩, hcounter⟩
    · unfold Disk.openDisk
      rw [R.exec_eq]
      show (Go.wrap _ ((Snapshot.initializeStorage gw scheme _ genesis).map _) >>= _) = _
      rw [hb]
      rfl
    · show Represents cbor _ ((newStorage scheme).write batch).families
      rw [Storage.families_write hfits]
      exact R.write fun w hw => (hfits w hw).key
    · intro key x hx
      rw [hleashes, Std.ExtTreeMap.getElem?_empty] at hx
      cases hx

/-- **The disk and the linkage go the same way through any calls and stops.**  Whatever has happened, the disk reads as
the linkage does, which holds a tree and leashes on its blocks; whatever happens later, no block is lost or changed, and
no leash of an address that is not named. -/
theorem stops_survived {gw : Gowaves} (cbor : Codecs) {scheme : Proto.Scheme} {genesis : Proto.Block} {l0 : Linkage}
    (h0 : newLinkage gw scheme genesis = .ok l0) (hs later : List Happening)
    (ha : ∀ h ∈ hs ++ later, h.addr.is4 = true) (hlen : (hs ++ later).length + 2 < 2 ^ 64) :
    ∃ d0 d l t d' l' t', Disk.openDisk gw cbor (newDatabase scheme) genesis = .ok d0 ∧
      hs.foldlM (Disk.happen gw cbor genesis) d0 = .ok d ∧ hs.foldlM (Linkage.happen gw genesis) l0 = .ok l ∧
      Reads gw cbor d l ∧ Lasts gw l t ∧
      later.foldlM (Disk.happen gw cbor genesis) d = .ok d' ∧ later.foldlM (Linkage.happen gw genesis) l = .ok l' ∧
      Reads gw cbor d' l' ∧ Lasts gw l' t' ∧ Changes l l' t t' later := by
  rw [List.length_append] at hlen
  obtain ⟨hfirst, hrest⟩ := List.forall_mem_append.1 ha
  obtain ⟨d0, hd0, F0, L0, hcounter⟩ := lasts_start cbor h0
  have hg : l0.genesis = genesis.blockID := L0.stands.genesis_eq
  obtain ⟨d, l, t, hd, hl, F, L, C⟩ := L0.run F0 (by omega) hg hfirst
  have := C.counter.2
  obtain ⟨d', l', t', hd', hl', F', L', C'⟩ := L.run F (by omega) (C.genesis.trans hg) hrest
  have := C'.counter.2
  exact ⟨d0, d, l, t, d', l', t', hd0, hd, hl, L.reads F (by omega), L, hd', hl', L'.reads F' (by omega), L', C'⟩

namespace Sample

/-- A block, a stop before the leash of the next one, and that one again. -/
def stopped : List Happening := [.call (key 2 1), .stop (key 3 2) 1]

end Sample

/-- After the stop the block is put once more. -/
theorem stops_survived_sample : ∃ l0, newLinkage Sample.gowaves 87 (Sample.block 1 0) = .ok l0 ∧
    ∃ d l t d' l' t', Sample.stopped.foldlM (Linkage.happen Sample.gowaves (Sample.block 1 0)) l0 = .ok l ∧
      Reads Sample.gowaves Sample.codecs d l ∧ Lasts Sample.gowaves l t ∧
      Reads Sample.gowaves Sample.codecs d' l' ∧ Lasts Sample.gowaves l' t' ∧
      Changes l l' t t' [.call (Sample.key 3 2)] := by
  obtain ⟨l0, h0⟩ := Go.exists_of_isOk (x := newLinkage Sample.gowaves 87 (Sample.block 1 0)) (by decide +kernel)
  obtain ⟨d0, d, l, t, d', l', t', -, -, hl, hr, hL, -, -, hr', hL', hC⟩ :=
    stops_survived Sample.codecs h0 Sample.stopped [.call (Sample.key 3 2)] (by decide) (by decide)
  exact ⟨l0, h0, d, l, t, d', l', t', hl, hr, hL, hr', hL', hC⟩

end Chains
end ForkDetector
