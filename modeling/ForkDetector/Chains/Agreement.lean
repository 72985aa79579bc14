import ForkDetector.Chains.Operations
/-!
# Agreement — numbers without an end and `uint64`

`Storage` numbers blocks and heads without an end, the database numbers them by `uint64`.  While fewer than `2^64`
blocks are numbered, an operation does the same to a storage and to its typed maps (`Storage.Bounded.exec_eq`), so that
the database holds the storage (`Storage.run_represents`), and the storage of every linkage (`Linkage.run_represents`).
-/
namespace ForkDetector
namespace Chains

open Proto (BlockID newBlockIDFromBytes Gowaves)

namespace Storage

/-- The typed maps of a storage; a counter that was never put has no record. -/
def families (s : Storage) : Families where
  scheme := s.scheme
  counter counterID :=
    if counterID = Chains.blocksCounter ∧ s.blocksCounter ≠ 0 then some (.ofNat s.blocksCounter)
    else if counterID = Chains.headsCounter ∧ s.headsCounter ≠ 0 then some (.ofNat s.headsCounter)
    else none
  block n := s.blocks[n.toNat]?
  num id := s.nums[id]?.map UInt64.ofNat
  link n := s.links[n.toNat]?
  leash addr := s.leashRecords[addrKeyBytes addr]?
  headToBlock h := s.headToBlock[h.toNat]?.map UInt64.ofNat
  blockToHead n := s.blockToHead[n.toNat]?.map UInt64.ofNat

theorem families_new (scheme : Proto.Scheme) : (newStorage scheme).families = newFamilies scheme := by
  unfold families newFamilies newStorage
  congr 1
  all_goals funext _; simp

/-! ## Writes -/

end Storage

/-- Numbers of keys are `uint64`, addresses are IPv4, and counters that are put are not zero. -/
def Write.Fits : Write → Prop
  | .putBlocksCounter v | .putHeadsCounter v => v ≠ 0
  | .putID _ _ => True
  | .putBlock n _ | .putLink n _ | .putHeadToBlock n _ | .putBlockToHead n _ | .deleteBlockToHead n => n < 2 ^ 64
  | .putLeash addr _ => addr.is4 = true

theorem toNat_eq_iff {m : UInt64} {n : Nat} (hn : n < 2 ^ 64) : m.toNat = n ↔ m = .ofNat n := by
  rw [← UInt64.toNat_inj, UInt64.toNat_ofNat_of_lt' hn]

theorem Storage.families_apply (s : Storage) {w : Write} (hw : w.Fits) :
    (s.apply w).families = s.families.apply w := by
  cases w with
  | putBlocksCounter v =>
    unfold families apply Families.apply
    congr 1
    funext i
    by_cases hi : i = Chains.blocksCounter
    · simp [hi, show v ≠ 0 from hw]
    · simp [hi]
  | putHeadsCounter v =>
    unfold families apply Families.apply
    congr 1
    funext i
    by_cases hi : i = Chains.headsCounter
    · simp [hi, show v ≠ 0 from hw, show Chains.headsCounter ≠ Chains.blocksCounter by decide]
    · simp [hi]
  | putID id n =>
    unfold families apply Families.apply
    congr 1
    funext x
    simp [Go.getElem?_insert_eq, Function.update_apply, apply_ite (Option.map UInt64.ofNat)]
  | putLeash addr id =>
    unfold families apply Families.apply
    congr 1
    funext a
    have hkey : addrKeyBytes a = addrKeyBytes addr ↔ a = addr :=
      ⟨fun he => (eq_of_addrKeyBytes hw he.symm).symm, congrArg addrKeyBytes⟩
    simp [Go.getElem?_insert_eq, Function.update_apply, hkey]
  | putBlock n b | putLink n b =>
    unfold families apply Families.apply
    congr 1
    funext m
    simp [Go.getElem?_insert_eq, Function.update_apply, toNat_eq_iff hw]
  | putHeadToBlock n b | putBlockToHead n b =>
    unfold families apply Families.apply
    congr 1
    funext m
    simp [Go.getElem?_insert_eq, Function.update_apply, toNat_eq_iff hw, apply_ite (Option.map UInt64.ofNat)]
  | deleteBlockToHead n =>
    unfold families apply Families.apply
    congr 1
    funext m
    simp [Go.getElem?_erase_eq, Function.update_apply, toNat_eq_iff hw, apply_ite (Option.map UInt64.ofNat)]

theorem Storage.families_write {s : Storage} {batch : List Write} (h : ∀ w ∈ batch, w.Fits) :
    (s.write batch).families = s.families.write batch := by
  induction batch generalizing s with
  | nil => rfl
  | cons w batch ih =>
    obtain ⟨hw, hrest⟩ := List.forall_mem_cons.1 h
    show ((s.apply w).write batch).families = (s.families.apply w).write batch
    rw [ih hrest, s.families_apply hw]

namespace Storage

/-! ## Reads -/

/-- The numbers in the records are numbers of blocks and heads. -/
structure Bounded (s : Storage) : Prop where
  nums : ∀ (id : BlockID) (n : Nat), s.nums[id]? = some n → n ≤ s.blocksCounter
  parents : ∀ (n : Nat) (l : Link), s.links[n]? = some l → ∀ p ∈ l.parents, p ≤ s.blocksCounter
  pointers : ∀ n h : Nat, s.blockToHead[n]? = some h → h ≤ s.headsCounter
  counters : s.headsCounter ≤ s.blocksCounter

namespace Bounded
variable {s : Storage}

theorem getBlock_eq {n : Nat} (hn : n < 2 ^ 64) : s.families.snapshot.getBlock n = s.getBlock n := by
  simp only [Families.snapshot, families, UInt64.toNat_ofNat_of_lt' hn, getBlock]
  cases s.blocks[n]? <;> rfl

theorem getLink_eq {n : Nat} (hn : n < 2 ^ 64) : s.families.snapshot.getLink n = s.getLink n := by
  simp only [Families.snapshot, families, UInt64.toNat_ofNat_of_lt' hn, getLink]
  cases s.links[n]? <;> rfl

theorem getBlocksCounter_eq (hlt : s.blocksCounter < 2 ^ 64) :
    s.families.snapshot.getCounter Chains.blocksCounter = .ok s.blocksCounter := by
  by_cases h0 : s.blocksCounter = 0
  · simp [Families.snapshot, families, h0, show Chains.blocksCounter ≠ Chains.headsCounter by decide]
  · simp [Families.snapshot, families, h0, -UInt64.toNat_ofNat', UInt64.toNat_ofNat_of_lt' hlt]

theorem getHeadsCounter_eq (hlt : s.headsCounter < 2 ^ 64) :
    s.families.snapshot.getCounter Chains.headsCounter = .ok s.headsCounter := by
  have hne : Chains.headsCounter ≠ Chains.blocksCounter := by decide
  by_cases h0 : s.headsCounter = 0
  · simp [Families.snapshot, families, h0, hne]
  · simp [Families.snapshot, families, h0, hne, -UInt64.toNat_ofNat', UInt64.toNat_ofNat_of_lt' hlt]

variable (B : s.Bounded) (hlt : s.blocksCounter < 2 ^ 64)
include B hlt

theorem getNumOfBlockID_eq (id : BlockID) : s.families.snapshot.getNumOfBlockID id = s.getNumOfBlockID id := by
  simp only [Families.snapshot, families, getNumOfBlockID]
  cases h : s.nums[id]? with
  | none => rfl
  | some n =>
    exact congrArg Except.ok (UInt64.toNat_ofNat_of_lt' (Nat.lt_of_le_of_lt (B.nums id n h) hlt))

theorem getHeadByBlockNum_eq {n : Nat} (hn : n < 2 ^ 64) :
    s.families.snapshot.getHeadByBlockNum n = s.getHeadByBlockNum n := by
  simp only [Families.snapshot, families, UInt64.toNat_ofNat_of_lt' hn, getHeadByBlockNum]
  cases h : s.blockToHead[n]? with
  | none => rfl
  | some hn =>
    have hle := Nat.le_trans (B.pointers n hn h) B.counters
    exact congrArg Except.ok (UInt64.toNat_ofNat_of_lt' (Nat.lt_of_le_of_lt hle hlt))

omit hlt in
/-- The next ancestor that is collected is a block as well. -/
theorem next_le {n l : Nat} {pl : Link} (hl : s.links[n]? = some pl) (hn : n ≤ s.blocksCounter) :
    (if pl.parents.length > l then pl.parents.getD l n else n) ≤ s.blocksCounter := by
  split
  · rename_i hlen
    rw [← List.getElem_eq_getD (h := hlen) n]
    exact B.parents n pl hl _ (List.getElem_mem hlen)
  · exact hn

theorem collectParents_eq : ∀ (k l : Nat) {pn : Nat}, pn ≤ s.blocksCounter →
    s.families.snapshot.collectParents k l pn = s.collectParents k l pn
  | 0, _, _, _ => rfl
  | k + 1, l, pn, hpn => by
    rw [Snapshot.collectParents, Storage.collectParents, getLink_eq (by omega)]
    cases hl : s.getLink pn with
    | error e => rfl
    | ok pl =>
      have := collectParents_eq k (l + 1) (B.next_le (l := l) (getLink_eq_ok.1 hl) hpn)
      simp only [bind, Except.bind, this]

omit hlt in
theorem collectParents_le : ∀ (k l : Nat) {pn : Nat} {ps : List Nat}, pn ≤ s.blocksCounter →
    s.collectParents k l pn = .ok ps → ∀ p ∈ ps, p ≤ s.blocksCounter
  | 0, _, _, _, _, h, p, hp => by
    cases h
    cases hp
  | k + 1, l, pn, ps, hpn, h, p, hp => by
    obtain ⟨pl, hl, h⟩ := Go.bind_eq_ok.1 h
    obtain ⟨rest, hrest, h⟩ := Go.bind_eq_ok.1 h
    cases h
    rcases List.mem_cons.1 hp with rfl | hp
    · exact hpn
    · exact collectParents_le k (l + 1) (B.next_le (getLink_eq_ok.1 hl) hpn) hrest p hp

theorem putNewLinkForBlock_eq (n h : Nat) (id parentID : BlockID) :
    s.families.snapshot.putNewLinkForBlock n id h parentID = s.putNewLinkForBlock n id h parentID := by
  unfold Snapshot.putNewLinkForBlock Storage.putNewLinkForBlock
  rw [B.getNumOfBlockID_eq hlt]
  cases hp : s.getNumOfBlockID parentID with
  | error e => rfl
  | ok pn =>
    have hpn := B.nums parentID pn (getNumOfBlockID_eq_ok.1 hp)
    simp only [bind, Except.bind, B.collectParents_eq hlt _ _ hpn]

theorem putHead_eq (hnext : s.blocksCounter + 1 < 2 ^ 64) (n : Nat) {ext : Nat} (hext : ext < 2 ^ 64) :
    s.families.snapshot.putHead n ext = s.putHead n ext := by
  have := B.counters
  have hmod : (s.headsCounter + 1) % 2 ^ 64 = s.headsCounter + 1 := Nat.mod_eq_of_lt (by omega)
  unfold Snapshot.putHead Storage.putHead Snapshot.putNewHead
  rw [B.getHeadByBlockNum_eq hlt hext, getHeadsCounter_eq (by omega)]
  simp only [Go.wrap_ok, bind, Except.bind, hmod]
  rfl

/-! ## Operations -/

theorem fits_put (hnext : s.blocksCounter + 1 < 2 ^ 64) {ext h : Nat} {id parentID : BlockID} {b : StoredBlock}
    {link head : List Write} (hext : ext ≤ s.blocksCounter)
    (hlink : s.putNewLinkForBlock (s.blocksCounter + 1) id h parentID = .ok link)
    (hhead : s.putHead (s.blocksCounter + 1) ext = .ok head) :
    ∀ w ∈ [.putBlocksCounter (s.blocksCounter + 1), .putID id (s.blocksCounter + 1),
      .putBlock (s.blocksCounter + 1) b] ++ link ++ head, w.Fits := by
  obtain ⟨pn, parents, -, -, -, rfl⟩ := putNewLinkForBlock_eq_ok.1 hlink
  have := B.counters
  rw [Storage.putHead_eq] at hhead
  cases hhead
  cases hp : s.blockToHead[ext]? with
  | none =>
    simp [Write.Fits, putNewHead]
    omega
  | some hn =>
    have := B.pointers ext hn hp
    simp [Write.Fits]
    omega

theorem putProtoBlock_eq (hnext : s.blocksCounter + 1 < 2 ^ 64) (gw : Gowaves) (block : Proto.Block) :
    s.families.snapshot.putProtoBlock gw s.scheme block = s.protoBlockBatch gw block := by
  unfold Snapshot.putProtoBlock protoBlockBatch
  rw [getBlocksCounter_eq hlt, B.getNumOfBlockID_eq hlt]
  cases hp : s.getNumOfBlockID block.parent with
  | error e => cases e <;> rfl
  | ok pn =>
    have hpn := Nat.lt_of_le_of_lt (B.nums _ pn (getNumOfBlockID_eq_ok.1 hp)) hlt
    simp only [Go.wrap_ok, bind, Except.bind, getBlock_eq hpn, Nat.mod_eq_of_lt hnext, B.putNewLinkForBlock_eq hlt,
      B.putHead_eq hlt hnext _ hpn]

theorem putMicroBlock_eq (hnext : s.blocksCounter + 1 < 2 ^ 64) (inv : Proto.MicroBlockInv) :
    s.families.snapshot.putMicroBlock inv = s.microBlockBatch inv := by
  unfold Snapshot.putMicroBlock microBlockBatch
  rw [getBlocksCounter_eq hlt, B.getNumOfBlockID_eq hlt]
  cases hr : s.getNumOfBlockID inv.reference with
  | error e => cases e <;> rfl
  | ok rn =>
    have hrn := Nat.lt_of_le_of_lt (B.nums _ rn (getNumOfBlockID_eq_ok.1 hr)) hlt
    simp only [Go.wrap_ok, bind, Except.bind, getBlock_eq hrn, Nat.mod_eq_of_lt hnext, B.putNewLinkForBlock_eq hlt,
      B.putHead_eq hlt hnext _ hrn]

theorem fits_protoBlockBatch (hnext : s.blocksCounter + 1 < 2 ^ 64) {gw : Gowaves} {block : Proto.Block}
    {batch : List Write} (h : s.protoBlockBatch gw block = .ok batch) : ∀ w ∈ batch, w.Fits := by
  obtain ⟨pn, hpn, h⟩ := Go.bind_eq_ok.1 h
  obtain ⟨pb, -, h⟩ := Go.bind_eq_ok.1 h
  obtain ⟨b, -, h⟩ := Go.bind_eq_ok.1 h
  obtain ⟨link, hlink, h⟩ := Go.bind_eq_ok.1 h
  obtain ⟨head, hhead, h⟩ := Go.bind_eq_ok.1 h
  cases h
  have hext := B.nums _ pn (getNumOfBlockID_eq_ok.1 (Go.wrap_eq_ok.1 hpn))
  exact B.fits_put hlt hnext hext (Go.wrap_eq_ok.1 hlink) (Go.wrap_eq_ok.1 hhead)

theorem fits_microBlockBatch (hnext : s.blocksCounter + 1 < 2 ^ 64) {inv : Proto.MicroBlockInv}
    {batch : List Write} (h : s.microBlockBatch inv = .ok batch) : ∀ w ∈ batch, w.Fits := by
  obtain ⟨rn, hrn, h⟩ := Go.bind_eq_ok.1 h
  obtain ⟨rb, -, h⟩ := Go.bind_eq_ok.1 h
  obtain ⟨parentID, -, h⟩ := Go.bind_eq_ok.1 h
  obtain ⟨link, hlink, h⟩ := Go.bind_eq_ok.1 h
  obtain ⟨head, hhead, h⟩ := Go.bind_eq_ok.1 h
  cases h
  have hext := B.nums _ rn (getNumOfBlockID_eq_ok.1 (Go.wrap_eq_ok.1 hrn))
  exact B.fits_put hlt hnext hext (Go.wrap_eq_ok.1 hlink) (Go.wrap_eq_ok.1 hhead)

end Bounded

/-- `initialize`, `putProtoBlock`, `putMicroBlock` and `updateLeash`. -/
def exec (gw : Gowaves) (s : Storage) : StorageOp → Res Storage
  | .initializeStorage genesis => s.initializeStorage gw genesis
  | .putProtoBlock block => s.putProtoBlock gw block
  | .putMicroBlock inv => s.putMicroBlock inv
  | .updateLeash addr id => .ok (s.updateLeash addr id)

def left (gw : Gowaves) (s : Storage) (op : StorageOp) : Storage :=
  match s.exec gw op with
  | .ok s' => s'
  | .error _ => s

def run (gw : Gowaves) (s : Storage) (ops : List StorageOp) : Storage := ops.foldl (left gw) s

theorem initializeStorage_batch {gw : Gowaves} {s : Storage} {genesis : Proto.Block} (hlt : s.blocksCounter < 2 ^ 64) :
    s.initializeStorage gw genesis =
      (s.families.snapshot.initializeStorage gw s.scheme genesis).map s.write := by
  show _ = s.write <$> _
  unfold Snapshot.initializeStorage Storage.initializeStorage
  rw [Bounded.getBlocksCounter_eq hlt, Go.wrap_ok]
  show _ = s.write <$> if s.blocksCounter = 0 then _ else _
  by_cases h0 : s.blocksCounter = 0
  · rw [if_pos h0, if_pos h0]
    simp only [map_bind]
    rfl
  · rw [if_neg h0, if_neg h0]
    rfl

theorem fits_initializeStorage {gw : Gowaves} {scheme : Proto.Scheme} {sn : Snapshot} {genesis : Proto.Block}
    {batch : List Write} (h : sn.initializeStorage gw scheme genesis = .ok batch) : ∀ w ∈ batch, w.Fits := by
  obtain ⟨c, -, h⟩ := Go.bind_eq_ok.1 h
  split at h
  · obtain ⟨ga, -, h⟩ := Go.bind_eq_ok.1 h
    obtain ⟨score, -, h⟩ := Go.bind_eq_ok.1 h
    cases h
    simp [Write.Fits]
  · cases h
    exact fun w hw => absurd hw List.not_mem_nil

/-- A batch that fits is written to both. -/
theorem families_map {s : Storage} {batch : Res (List Write)} (h : ∀ b, batch = .ok b → ∀ w ∈ b, w.Fits) :
    batch.map s.families.write = (batch.map s.write).map families := by
  cases hb : batch with
  | error e => rfl
  | ok b => exact congrArg Except.ok (families_write (h b hb)).symm

/-- **An operation does the same to a storage and to its typed maps.** -/
theorem Bounded.exec_eq {gw : Gowaves} {s : Storage} (B : s.Bounded) (hnext : s.blocksCounter + 1 < 2 ^ 64)
    {op : StorageOp} (hop : op.Fits) : s.families.exec gw op = (s.exec gw op).map families := by
  have hlt : s.blocksCounter < 2 ^ 64 := Nat.lt_of_succ_lt hnext
  cases op with
  | initializeStorage genesis =>
    show (s.families.snapshot.initializeStorage gw s.scheme genesis).map s.families.write =
      (s.initializeStorage gw genesis).map families
    rw [initializeStorage_batch hlt]
    exact families_map fun b hb => fits_initializeStorage hb
  | putProtoBlock block =>
    show (s.families.snapshot.putProtoBlock gw s.scheme block).map s.families.write = (s.putProtoBlock gw block).map _
    rw [B.putProtoBlock_eq hlt hnext, s.putProtoBlock_batch gw]
    exact families_map fun b hb => B.fits_protoBlockBatch hlt hnext hb
  | putMicroBlock inv =>
    show (s.families.snapshot.putMicroBlock inv).map s.families.write = (s.putMicroBlock inv).map _
    rw [B.putMicroBlock_eq hlt hnext, s.putMicroBlock_batch]
    exact families_map fun b hb => B.fits_microBlockBatch hlt hnext hb
  | updateLeash addr id =>
    have hw : (Write.putLeash addr id).Fits := hop
    exact congrArg Except.ok (families_write (List.forall_mem_singleton.2 hw)).symm

/-! ## Runs -/

/-- A new storage has no numbers. -/
theorem bounded_new (scheme : Proto.Scheme) : (newStorage scheme).Bounded := by
  refine ⟨fun id n h => ?_, fun n l h => ?_, fun n h hh => ?_, Nat.le_refl 0⟩
  all_goals simp [newStorage] at *

namespace Bounded
variable {gw : Gowaves} {s s' : Storage} (B : s.Bounded)
include B

theorem inserted {id parentID : BlockID} {ext : Nat} {b : StoredBlock} {parents : List Nat}
    (I : Inserted s s' id parentID ext b parents) : s'.Bounded ∧ s.blocksCounter ≤ s'.blocksCounter := by
  obtain ⟨-, hcounter, hnums, -, hlinks, -⟩ := I.fields
  obtain ⟨pn, hpn, hcollected⟩ := I.collected
  have hparents := B.collectParents_le _ _ (B.nums parentID pn hpn) hcollected
  have hle := B.counters
  have hnums' : ∀ (x : BlockID) (n : Nat), s'.nums[x]? = some n → n ≤ s'.blocksCounter := fun x n hx => by
    rw [hnums, Go.getElem?_insert_eq] at hx
    rw [hcounter]
    split at hx
    · exact Nat.le_of_eq (Option.some.inj hx).symm
    · exact Nat.le_succ_of_le (B.nums x n hx)
  have hparents' : ∀ (n : Nat) (l : Link), s'.links[n]? = some l → ∀ p ∈ l.parents, p ≤ s'.blocksCounter := by
    intro n l hl p hp
    rw [hlinks, Go.getElem?_insert_eq] at hl
    rw [hcounter]
    split at hl
    · cases hl
      exact Nat.le_succ_of_le (hparents p hp)
    · exact Nat.le_succ_of_le (B.parents n l hl p hp)
  have hpointers : (∀ n h : Nat, s'.blockToHead[n]? = some h → h ≤ s'.headsCounter) ∧
      s'.headsCounter ≤ s.headsCounter + 1 := by
    cases he : s.blockToHead[ext]? with
    | some hn =>
      obtain ⟨hheads, -, hpointers⟩ := I.moved_head he
      rw [hheads, hpointers]
      refine ⟨fun n h hh => ?_, Nat.le_succ _⟩
      rw [Go.getElem?_insert_eq, Go.getElem?_erase_eq] at hh
      split at hh
      · exact Option.some.inj hh ▸ B.pointers ext hn he
      · split at hh
        · cases hh
        · exact B.pointers n h hh
    | none =>
      obtain ⟨hheads, -, hpointers⟩ := I.new_head he
      rw [hheads, hpointers]
      refine ⟨fun n h hh => ?_, Nat.le_refl _⟩
      rw [Go.getElem?_insert_eq] at hh
      split at hh
      · exact Nat.le_of_eq (Option.some.inj hh).symm
      · exact Nat.le_succ_of_le (B.pointers n h hh)
  refine ⟨⟨hnums', hparents', hpointers.1, ?_⟩, hcounter ▸ Nat.le_succ _⟩
  rw [hcounter]
  exact Nat.le_trans hpointers.2 (Nat.succ_le_succ hle)

theorem initialized (h0 : s.blocksCounter = 0) (b : StoredBlock) (id : BlockID) :
    (s.write [.putBlock 1 b, .putBlocksCounter 1, .putID id 1, .putLink 1 ⟨1, id.bytes, []⟩, .putHeadsCounter 1,
      .putHeadToBlock 1 1, .putBlockToHead 1 1]).Bounded ∧ s.blocksCounter ≤ 1 := by
  have hcounters := B.counters
  refine ⟨⟨fun x n hx => ?_, fun n l hl p hp => ?_, fun n h hh => ?_, Nat.le_refl 1⟩, by omega⟩
  · have hx : (s.nums.insert id 1)[x]? = some n := hx
    rw [Go.getElem?_insert_eq] at hx
    split at hx
    · exact Nat.le_of_eq (Option.some.inj hx).symm
    · exact Nat.le_trans (B.nums x n hx) (by omega)
  · have hl : (s.links.insert 1 ⟨1, id.bytes, []⟩)[n]? = some l := hl
    rw [Go.getElem?_insert_eq] at hl
    split at hl
    · cases hl
      exact absurd hp List.not_mem_nil
    · exact Nat.le_trans (B.parents n l hl p hp) (by omega)
  · have hh : (s.blockToHead.insert 1 1)[n]? = some h := hh
    rw [Go.getElem?_insert_eq] at hh
    split at hh
    · exact Nat.le_of_eq (Option.some.inj hh).symm
    · exact Nat.le_trans (B.pointers n h hh) (by omega)

/-- An operation keeps the bounds, and takes no number back. -/
theorem left (op : StorageOp) : (s.left gw op).Bounded ∧ s.blocksCounter ≤ (s.left gw op).blocksCounter := by
  unfold Storage.left
  cases h : s.exec gw op with
  | error e => exact ⟨B, Nat.le_refl _⟩
  | ok s' =>
    cases op with
    | initializeStorage genesis =>
      have h : s.initializeStorage gw genesis = .ok s' := h
      unfold initializeStorage at h
      split at h
      · rename_i h0
        obtain ⟨ga, -, h⟩ := Go.bind_eq_ok.1 h
        obtain ⟨score, -, h⟩ := Go.bind_eq_ok.1 h
        cases h
        exact B.initialized h0 _ genesis.blockID
      · cases h
        exact ⟨B, Nat.le_refl _⟩
    | putProtoBlock block =>
      obtain ⟨pn, pb, b, parents, -, -, -, I⟩ := putProtoBlock_eq_ok h
      exact B.inserted I
    | putMicroBlock inv =>
      obtain ⟨rn, rb, parentID, parents, -, -, -, I⟩ := putMicroBlock_eq_ok h
      exact B.inserted I
    | updateLeash addr id =>
      cases h
      exact ⟨⟨B.nums, B.parents, B.pointers, B.counters⟩, Nat.le_refl _⟩

theorem counter_le_run (ops : List StorageOp) : s.blocksCounter ≤ (s.run gw ops).blocksCounter := by
  induction ops generalizing s with
  | nil => exact Nat.le_refl _
  | cons op ops ih => exact Nat.le_trans (B.left op).2 (ih (B.left op).1)

/-- **A run does the same to a storage and to its typed maps**, as long as the numbers are `uint64`. -/
theorem run_eq {ops : List StorageOp} (hops : ∀ op ∈ ops, op.Fits)
    (hlt : (s.run gw ops).blocksCounter + 1 < 2 ^ 64) : (s.run gw ops).families = s.families.run gw ops := by
  induction ops generalizing s with
  | nil => rfl
  | cons op ops ih =>
    obtain ⟨hop, hrest⟩ := List.forall_mem_cons.1 hops
    have hle : s.blocksCounter ≤ (s.run gw (op :: ops)).blocksCounter := B.counter_le_run (op :: ops)
    have hstep : (s.left gw op).families = s.families.left gw op := by
      unfold Storage.left Families.left
      rw [B.exec_eq (by omega) hop]
      cases s.exec gw op <;> rfl
    show ((s.left gw op).run gw ops).families = (s.families.left gw op).run gw ops
    rw [← hstep]
    exact ih (B.left op).1 hrest hlt

end Bounded

theorem run_append (gw : Gowaves) (s : Storage) (ops ops' : List StorageOp) :
    s.run gw (ops ++ ops') = (s.run gw ops).run gw ops' := List.foldl_append

theorem left_of_exec {gw : Gowaves} {s s' : Storage} (op : StorageOp) (h : s.exec gw op = .ok s') :
    s.left gw op = s' := by
  unfold Storage.left
  rw [h]

/-- **The database is the storage with its numbers as `uint64`.** -/
theorem run_represents {gw : Gowaves} (cbor : Codecs) {scheme : Proto.Scheme} {ops : List StorageOp}
    (hops : ∀ op ∈ ops, op.Fits) (hlt : ((newStorage scheme).run gw ops).blocksCounter + 1 < 2 ^ 64) :
    Represents cbor ((newDatabase scheme).run gw cbor ops) ((newStorage scheme).run gw ops).families := by
  rw [(bounded_new scheme).run_eq hops hlt, families_new]
  exact (represents_new cbor scheme).run hops

end Storage

/-! ## Linkages -/

namespace Linkage

/-- What a call does to the storage is a run of storage operations. -/
theorem exec_ops {gw : Gowaves} {l l' : Linkage} {c : Call} (hc : c.addr.is4 = true) (h : l.exec gw c = .ok l') :
    ∃ ops, (∀ op ∈ ops, op.Fits) ∧ l'.st = l.st.run gw ops := by
  have hleash : (StorageOp.updateLeash c.addr c.id).Fits := hc
  cases c with
  | putBlock b addr =>
    rcases putBlock_eq_ok h with ⟨-, rfl⟩ | ⟨-, -, st, hst, rfl⟩
    · exact ⟨[.updateLeash addr b.blockID], List.forall_mem_singleton.2 hleash, rfl⟩
    · refine ⟨[.putProtoBlock b, .updateLeash addr b.blockID],
        List.forall_mem_cons.2 ⟨trivial, List.forall_mem_singleton.2 hleash⟩, ?_⟩
      show _ = (l.st.left gw (.putProtoBlock b)).left gw (.updateLeash addr b.blockID)
      rw [Storage.left_of_exec (.putProtoBlock b) hst]
      rfl
  | putMicroBlock inv addr =>
    rcases putMicroBlock_eq_ok h with ⟨-, rfl⟩ | ⟨-, -, st, hst, rfl⟩
    · exact ⟨[.updateLeash addr inv.totalBlockID], List.forall_mem_singleton.2 hleash, rfl⟩
    · refine ⟨[.putMicroBlock inv, .updateLeash addr inv.totalBlockID],
        List.forall_mem_cons.2 ⟨trivial, List.forall_mem_singleton.2 hleash⟩, ?_⟩
      show _ = (l.st.left gw (.putMicroBlock inv)).left gw (.updateLeash addr inv.totalBlockID)
      rw [Storage.left_of_exec (.putMicroBlock inv) hst]
      rfl
  | moveLeash id addr =>
    cases h
    exact ⟨[.updateLeash addr id], List.forall_mem_singleton.2 hleash, rfl⟩

theorem run_ops (gw : Gowaves) (l : Linkage) {calls : List Call} (hcalls : ∀ c ∈ calls, c.addr.is4 = true) :
    ∃ ops, (∀ op ∈ ops, op.Fits) ∧ (l.run gw calls).st = l.st.run gw ops := by
  induction calls generalizing l with
  | nil => exact ⟨[], fun _ h => absurd h List.not_mem_nil, rfl⟩
  | cons c calls ih =>
    obtain ⟨hc, hrest⟩ := List.forall_mem_cons.1 hcalls
    obtain ⟨ops', hops', hrun⟩ := ih (l.left gw c) hrest
    show ∃ ops, (∀ op ∈ ops, op.Fits) ∧ ((l.left gw c).run gw calls).st = l.st.run gw ops
    rw [hrun]
    cases he : l.exec gw c with
    | error e =>
      have hleft : l.left gw c = l := by
        unfold Linkage.left
        rw [he]
      exact ⟨ops', hops', by rw [hleft]⟩
    | ok l' =>
      obtain ⟨ops, hops, hst⟩ := exec_ops hc he
      refine ⟨ops ++ ops', List.forall_mem_append.2 ⟨hops, hops'⟩, ?_⟩
      rw [left_of_ok he, hst, Storage.run_append]

/-- **The storage of a linkage is in a database**, whatever calls came before on IPv4 addresses. -/
theorem run_represents {gw : Gowaves} (cbor : Codecs) {scheme : Proto.Scheme} {genesis : Proto.Block} {l : Linkage}
    (h : newLinkage gw scheme genesis = .ok l) {calls : List Call} (hcalls : ∀ c ∈ calls, c.addr.is4 = true)
    (hlt : (l.run gw calls).st.blocksCounter + 1 < 2 ^ 64) : ∃ ops,
    Represents cbor ((newDatabase scheme).run gw cbor ops) (l.run gw calls).st.families := by
  obtain ⟨st, hst, h⟩ := Go.bind_eq_ok.1 h
  cases h
  obtain rfl : (newStorage scheme).left gw (.initializeStorage genesis) = st :=
    Storage.left_of_exec (.initializeStorage genesis) (Go.wrap_eq_ok.1 hst)
  obtain ⟨ops, hops, hrun⟩ := run_ops gw ⟨genesis.blockID, _⟩ hcalls
  rw [hrun] at hlt ⊢
  have hfits : ∀ op ∈ StorageOp.initializeStorage genesis :: ops, op.Fits := List.forall_mem_cons.2 ⟨trivial, hops⟩
  exact ⟨_, Storage.run_represents cbor hfits hlt⟩

end Linkage

end Chains
end ForkDetector
