import ForkDetector.Chains.Reorder
/-!
# Crash — a put that is stopped between its writes

A put of a block hands `db.Write` a batch with the block and then a batch with the leash, or the leash alone, or
nothing.  Here is each put with the batches it writes, and what the database holds when the process stops after some of
them: it is consistent, and the same put once more leaves what the put left that was not stopped (`put_recovers`).
-/
namespace ForkDetector
namespace Chains

open Proto (BlockID newBlockIDFromBytes Gowaves MicroBlockInv)

namespace Storage

/-- The batch that `putProtoBlock` builds. -/
def protoBlockBatch (gw : Gowaves) (s : Storage) (block : Proto.Block) : Res (List Write) := do
  let parentNum ← Go.wrap "failed to put block" (s.getNumOfBlockID block.parent)
  let parent ← Go.wrap "failed to put block" (s.getBlock parentNum)
  let n := s.blocksCounter + 1
  let b ← Go.wrap "failed to put block"
    (newBlock gw s.scheme block ((parent.height + 1) % 2 ^ 32) (some parent.score))
  let link ← Go.wrap "failed to put block" (s.putNewLinkForBlock n block.blockID b.height block.parent)
  let head ← Go.wrap "failed to put block" (s.putHead n parentNum)
  .ok ([.putBlocksCounter n, .putID block.blockID n, .putBlock n b] ++ link ++ head)

/-- The batch that `putMicroBlock` builds. -/
def microBlockBatch (s : Storage) (inv : MicroBlockInv) : Res (List Write) := do
  let refNum ← Go.wrap "failed to put micro-block" (s.getNumOfBlockID inv.reference)
  let ref ← Go.wrap "failed to put micro-block" (s.getBlock refNum)
  let parentID ← Go.wrap "failed to put micro-block" (newBlockIDFromBytes ref.parent)
  let n := s.blocksCounter + 1
  let b : StoredBlock :=
    ⟨ref.height, ref.timestamp, ref.score, inv.totalBlockID.bytes, ref.parent, ref.generator⟩
  let link ← Go.wrap "failed to put micro-block" (s.putNewLinkForBlock n inv.totalBlockID b.height parentID)
  let head ← Go.wrap "failed to put micro-block" (s.putHead n refNum)
  .ok ([.putBlocksCounter n, .putID inv.totalBlockID n, .putBlock n b] ++ link ++ head)

theorem putProtoBlock_batch (gw : Gowaves) (s : Storage) (block : Proto.Block) :
    s.putProtoBlock gw block = (s.protoBlockBatch gw block).map s.write := by
  show _ = s.write <$> _
  unfold putProtoBlock protoBlockBatch
  simp only [map_bind]
  rfl

theorem putMicroBlock_batch (s : Storage) (inv : MicroBlockInv) :
    s.putMicroBlock inv = (s.microBlockBatch inv).map s.write := by
  show _ = s.write <$> _
  unfold putMicroBlock microBlockBatch
  simp only [map_bind]
  rfl

/-- Several batches, one after the other. -/
def writeAll (s : Storage) (batches : List (List Write)) : Storage := batches.foldl write s

theorem updateLeash_updateLeash (s : Storage) (addr : Addr) (id : BlockID) :
    (s.updateLeash addr id).updateLeash addr id = s.updateLeash addr id := by
  have h : (s.leashRecords.insert (addrKeyBytes addr) id).insert (addrKeyBytes addr) id =
      s.leashRecords.insert (addrKeyBytes addr) id := by
    refine Std.ExtTreeMap.ext_getElem? fun key => ?_
    rw [Go.getElem?_insert_eq, Go.getElem?_insert_eq]
    by_cases hk : key = addrKeyBytes addr <;> simp [hk]
  show { s with leashRecords := (s.leashRecords.insert (addrKeyBytes addr) id).insert (addrKeyBytes addr) id } = _
  rw [h]
  rfl

end Storage

/-! ## Puts and what they write -/

/-- The batches that a call hands to `db.Write`, in order, and how the call ends. -/
structure Trace where
  writes : List (List Write)
  result : Res Unit

namespace Linkage

/-- `PutBlock` and `PutMicroBlock`: the block `id` stands on `base`, and `batch` inserts it. -/
def trace (l : Linkage) (id base : BlockID) (missing : Sentinel) (batch : Res (List Write)) (addr : Addr) : Trace :=
  match l.st.hasBlock id with
  | .error f => ⟨[], .error f⟩
  | .ok true => ⟨[[.putLeash addr id]], .ok ()⟩
  | .ok false =>
    match l.st.hasBlock base with
    | .error f => ⟨[], .error f⟩
    | .ok false => ⟨[], Go.fail (.sentinel missing)⟩
    | .ok true =>
      match batch with
      | .error f => ⟨[], .error f⟩
      | .ok batch => ⟨[batch, [.putLeash addr id]], .ok ()⟩

theorem trace_eq (l : Linkage) (id base : BlockID) (missing : Sentinel) (batch : Res (List Write)) (addr : Addr) :
    (do
      let ok ← l.st.hasBlock id
      if ok then .ok { l with st := l.st.updateLeash addr id }
      else do
        let hasBase ← l.st.hasBlock base
        if !hasBase then Go.fail (.sentinel missing)
        else do
          let st ← batch.map l.st.write
          .ok { l with st := st.updateLeash addr id }) =
    (l.trace id base missing batch addr).result.map fun _ =>
      ⟨l.genesis, l.st.writeAll (l.trace id base missing batch addr).writes⟩ := by
  unfold trace
  rw [Storage.hasBlock_eq, Storage.hasBlock_eq]
  cases l.st.nums[id]?.isSome
  · cases l.st.nums[base]?.isSome
    · rfl
    · cases batch <;> rfl
  · rfl

def putBlockTrace (gw : Gowaves) (l : Linkage) (block : Proto.Block) (addr : Addr) : Trace :=
  l.trace block.blockID block.parent .parentNotFound (l.st.protoBlockBatch gw block) addr

def putMicroBlockTrace (l : Linkage) (inv : MicroBlockInv) (addr : Addr) : Trace :=
  l.trace inv.totalBlockID inv.reference .refNotFound (l.st.microBlockBatch inv) addr

end Linkage

namespace Put

def base : Put → BlockID
  | .block b _ => b.parent
  | .microBlock inv _ => inv.reference

def trace (gw : Gowaves) (l : Linkage) : Put → Trace
  | .block b addr => l.putBlockTrace gw b addr
  | .microBlock inv addr => l.putMicroBlockTrace inv addr

/-- The database when the process stops after `k` of the writes. -/
def stopped (gw : Gowaves) (l : Linkage) (p : Put) (k : Nat) : Storage := l.st.writeAll ((p.trace gw l).writes.take k)

/-- The tree of a database `s` that the put was stopped at: with the block, as soon as `s` stores it. -/
def tree (p : Put) (t : BlockTree BlockID) (s : Storage) : BlockTree BlockID :=
  if s.nums[p.id]?.isSome then t.call p.call else t

theorem tree_of_stored {p : Put} {s : Storage} (t : BlockTree BlockID) (h : s.nums[p.id]?.isSome = true) :
    p.tree t s = t.call p.call := if_pos h

/-- A put of a block of the tree adds nothing to it. -/
theorem call_of_stored (p : Put) {t : BlockTree BlockID} (h : t.Stored p.id) : t.call p.call = t := by
  cases p with
  | block b addr => exact BlockTree.addKeyBlock_of_stored h
  | microBlock inv addr => exact BlockTree.addMicroBlock_of_stored h

/-- Before its first write a put has added nothing. -/
theorem tree_before (p : Put) {gw : Gowaves} {s : Storage} {t : BlockTree BlockID} (R : Refines gw s t) :
    p.tree t s = t := by
  by_cases h : s.nums[p.id]?.isSome = true
  · rw [tree_of_stored t h, p.call_of_stored (R.stored_iff.2 h)]
  · exact if_neg h

/-- **A put that is not stopped** makes all its writes. -/
theorem exec_eq_trace (gw : Gowaves) (l : Linkage) (p : Put) : l.exec gw p.call =
    (p.trace gw l).result.map fun _ => ⟨l.genesis, l.st.writeAll (p.trace gw l).writes⟩ := by
  cases p with
  | block b addr =>
    show l.putBlock gw b addr = _
    unfold Linkage.putBlock
    rw [Storage.putProtoBlock_batch]
    exact l.trace_eq _ _ _ _ _
  | microBlock inv addr =>
    show l.putMicroBlock inv addr = _
    unfold Linkage.putMicroBlock
    rw [Storage.putMicroBlock_batch]
    exact l.trace_eq _ _ _ _ _

theorem leashRecords_batch (gw : Gowaves) (s : Storage) (b : Proto.Block) {batch : List Write}
    (h : s.protoBlockBatch gw b = .ok batch) : (s.write batch).leashRecords = s.leashRecords := by
  have hput : s.putProtoBlock gw b = .ok (s.write batch) := by rw [Storage.putProtoBlock_batch, h]; rfl
  obtain ⟨pn, pb, nb, parents, -, -, -, I⟩ := Storage.putProtoBlock_eq_ok hput
  exact I.fields.2.2.2.2.2

theorem leashRecords_microBatch (s : Storage) (inv : MicroBlockInv) {batch : List Write}
    (h : s.microBlockBatch inv = .ok batch) : (s.write batch).leashRecords = s.leashRecords := by
  have hput : s.putMicroBlock inv = .ok (s.write batch) := by rw [Storage.putMicroBlock_batch, h]; rfl
  obtain ⟨rn, rb, p, parents, -, -, -, I⟩ := Storage.putMicroBlock_eq_ok hput
  exact I.fields.2.2.2.2.2

/-- **What a put writes**: nothing, when it fails; else at most a batch that leaves the leashes alone, and then the
leash. -/
theorem trace_cases (gw : Gowaves) (l : Linkage) (p : Put) :
    ((p.trace gw l).writes = [] ∧ ∃ f, (p.trace gw l).result = .error f) ∨
    p.trace gw l = ⟨[[.putLeash p.addr p.id]], .ok ()⟩ ∨
    ∃ batch, p.trace gw l = ⟨[batch, [.putLeash p.addr p.id]], .ok ()⟩ ∧
      (l.st.write batch).leashRecords = l.st.leashRecords := by
  have hcases : ∀ (base : BlockID) (missing : Sentinel) (batch : Res (List Write)),
      p.trace gw l = l.trace p.id base missing batch p.addr →
      (∀ b, batch = .ok b → (l.st.write b).leashRecords = l.st.leashRecords) →
      ((p.trace gw l).writes = [] ∧ ∃ f, (p.trace gw l).result = .error f) ∨
      p.trace gw l = ⟨[[.putLeash p.addr p.id]], .ok ()⟩ ∨
      ∃ batch, p.trace gw l = ⟨[batch, [.putLeash p.addr p.id]], .ok ()⟩ ∧
        (l.st.write batch).leashRecords = l.st.leashRecords := by
    intro base missing batch h hbatch
    rw [h]
    unfold Linkage.trace
    rw [Storage.hasBlock_eq, Storage.hasBlock_eq]
    cases l.st.nums[p.id]?.isSome with
    | true => exact .inr (.inl rfl)
    | false =>
      cases l.st.nums[base]?.isSome with
      | false => exact .inl ⟨rfl, _, rfl⟩
      | true =>
        cases batch with
        | error f => exact .inl ⟨rfl, f, rfl⟩
        | ok batch => exact .inr (.inr ⟨batch, rfl, hbatch batch rfl⟩)
  cases p with
  | block b addr => exact hcases _ _ _ rfl fun batch h => leashRecords_batch gw l.st b h
  | microBlock inv addr => exact hcases _ _ _ rfl fun batch h => leashRecords_microBatch l.st inv h

/-- A put of a stored block moves the leash. -/
theorem exec_of_stored (gw : Gowaves) {l : Linkage} {p : Put} (h : l.st.nums[p.id]?.isSome = true) :
    l.exec gw p.call = .ok (l.moveLeash p.id p.addr) := by
  have hhas : l.st.hasBlock p.id = .ok true := by rw [Storage.hasBlock_eq, h]
  cases p with
  | block b addr =>
    show l.putBlock gw b addr = _
    unfold Linkage.putBlock
    rw [show l.st.hasBlock b.blockID = .ok true from hhas]
    rfl
  | microBlock inv addr =>
    show l.putMicroBlock inv addr = _
    unfold Linkage.putMicroBlock
    rw [show l.st.hasBlock inv.totalBlockID = .ok true from hhas]
    rfl

/-- **The databases a put is stopped at**: the one before it, the one with the block and not its leash, and the one
after. -/
theorem stopped_cases (gw : Gowaves) (l : Linkage) (p : Put) :
    ((p.trace gw l).writes = [] ∧ ∀ k, p.stopped gw l k = l.st) ∨
    ∃ l1 : Linkage, l.exec gw p.call = .ok (l1.moveLeash p.id p.addr) ∧ l1.genesis = l.genesis ∧
      l1.st.leashRecords = l.st.leashRecords ∧
      ∀ k, p.stopped gw l k = l.st ∨ p.stopped gw l k = l1.st ∨ p.stopped gw l k = (l1.moveLeash p.id p.addr).st := by
  unfold stopped
  rcases p.trace_cases gw l with ⟨hw, -⟩ | ht | ⟨batch, ht, hleash⟩
  · refine .inl ⟨hw, fun k => ?_⟩
    rw [hw, List.take_nil]
    rfl
  · refine .inr ⟨l, (p.exec_eq_trace gw l).trans (by rw [ht]; rfl), rfl, rfl, fun k => ?_⟩
    rw [ht]
    rcases k with - | k
    · exact .inl rfl
    · exact .inr (.inr (by rw [List.take_succ_cons, List.take_nil]; rfl))
  · refine .inr ⟨⟨l.genesis, l.st.write batch⟩, (p.exec_eq_trace gw l).trans (by rw [ht]; rfl), rfl, hleash,
      fun k => ?_⟩
    rw [ht]
    rcases k with - | - | k
    · exact .inl rfl
    · exact .inr (.inl rfl)
    · exact .inr (.inr (by rw [List.take_succ_cons, List.take_succ_cons, List.take_nil]; rfl))

end Put

/-- **A consistent database** of a tree: it stores the blocks of the tree, its heads are the leaves (the blocks that
nothing extends), heads and blocks are numbered without gaps, and leashes point to blocks. -/
structure Consistent (gw : Gowaves) (s : Storage) (genesis : BlockID) (t : BlockTree BlockID) : Prop where
  blocks : Refines gw s t
  heads : HeadsInv s t
  numbered : Numbered s genesis
  leashes : ∀ (key : Bytes) (x : BlockID), s.leashRecords[key]? = some x → s.nums[x]?.isSome = true

theorem Stands.consistent {gw : Gowaves} {l : Linkage} {t : BlockTree BlockID} (S : Stands gw l t)
    (hl : ∀ (key : Bytes) (x : BlockID), l.st.leashRecords[key]? = some x → l.st.nums[x]?.isSome = true) :
    Consistent gw l.st l.genesis t := ⟨S.refines, S.heads, S.numbered, hl⟩

theorem Consistent.initialized {gw : Gowaves} {s : Storage} {genesis : Proto.Block} {t : BlockTree BlockID}
    (h : Consistent gw s genesis.blockID t) : s.initializeStorage gw genesis = .ok s := by
  have := ((h.numbered.index_range 1).1 ⟨_, h.numbered.genesis_num⟩).2
  exact if_neg (by omega)

/-- Wherever a leash is moved to, the same tree stood there before. -/
theorem Stands.of_moveLeash {gw : Gowaves} {l : Linkage} {t : BlockTree BlockID} {id : BlockID} {addr : Addr}
    (S : Stands gw (l.moveLeash id addr) t) : Stands gw l t := by
  have R := S.refines
  refine ⟨⟨fun x nd hx => ?_, R.num_stored, R.numbered, R.block_le, R.link_le, R.root_num, R.height_lt, R.skips⟩,
    ⟨S.heads.inverse, S.heads.numbered, S.heads.leaves⟩, S.ordered, S.genesis_eq⟩
  obtain ⟨n, b, k, r⟩ := R.recorded x nd hx
  exact ⟨n, b, k, r.num, r.block, r.link, r.block_id, r.block_height, r.block_parent, r.link_id, r.link_height,
    r.link_parent, r.score_nonneg, r.generator⟩

/-- A put that returns leaves its block stored. -/
theorem Stands.stored_put {gw : Gowaves} {l l' : Linkage} {t : BlockTree BlockID} (S : Stands gw l t) {p : Put}
    (h : l.exec gw p.call = .ok l') : l'.st.nums[p.id]?.isSome = true := by
  by_cases hs : t.Stored p.id
  · obtain ⟨S', K⟩ := S.exec h
    exact S'.refines.stored_iff.1 (K.stored hs)
  · obtain ⟨t', S', -, hview, hbase⟩ := S.put h hs
    refine S'.refines.stored_iff.1 ?_
    by_contra hn
    rw [← S'.refines.view_eq_none, hview, ← Put.entry_key gw l.st.scheme p, Insertion.place_key,
      Option.map_eq_none_iff] at hn
    rw [hn] at hbase
    cases hbase

/-- **What a put survives.**  A put that fails writes nothing.  Wherever the process stops, opening the database again
leaves it as it is, it is consistent with the tree before the put or with the one after it, and the same put ends as it
would have without the stop. -/
structure Recovers (gw : Gowaves) (genesis : Proto.Block) (l : Linkage) (t : BlockTree BlockID) (p : Put) : Prop where
  whole : l.exec gw p.call =
    (p.trace gw l).result.map fun _ => ⟨l.genesis, p.stopped gw l (p.trace gw l).writes.length⟩
  failed : ∀ f, l.exec gw p.call = .error f → ∀ k, p.stopped gw l k = l.st
  reopened : ∀ k, (p.stopped gw l k).initializeStorage gw genesis = .ok (p.stopped gw l k)
  consistent : ∀ k, Consistent gw (p.stopped gw l k) genesis.blockID (p.tree t (p.stopped gw l k))
  repeated : ∀ k, (⟨l.genesis, p.stopped gw l k⟩ : Linkage).exec gw p.call = l.exec gw p.call

/-- **Every put recovers from a stop at any of its writes.** -/
theorem put_recovers {gw : Gowaves} {scheme : Proto.Scheme} {genesis : Proto.Block} {l : Linkage}
    {t : BlockTree BlockID} (h : Reachable gw scheme genesis l t) (p : Put) : Recovers gw genesis l t p := by
  have S := h.stands
  have hgenesis := h.genesis_eq
  have hwhole : l.exec gw p.call =
      (p.trace gw l).result.map fun _ => ⟨l.genesis, p.stopped gw l (p.trace gw l).writes.length⟩ := by
    unfold Put.stopped
    rw [List.take_length]
    exact p.exec_eq_trace gw l
  have hleash : ∀ (key : Bytes) (x : BlockID), l.st.leashRecords[key]? = some x → l.st.nums[x]?.isSome = true :=
    fun key x hx => S.refines.stored_iff.1 (h.mirrors.leashes key x hx).1
  have hbefore : Consistent gw l.st genesis.blockID (p.tree t l.st) := by
    rw [p.tree_before S.refines]
    exact hgenesis ▸ S.consistent hleash
  rcases p.stopped_cases gw l with ⟨-, hsame⟩ | ⟨l1, hexec, hg1, hleash1, hstop⟩
  · refine ⟨hwhole, fun _ _ => hsame, fun k => ?_, fun k => ?_, fun k => ?_⟩
    · rw [hsame k]; exact hbefore.initialized
    · rw [hsame k]; exact hbefore
    · rw [hsame k]
  · obtain ⟨S', K⟩ := S.exec hexec
    have S1 := S'.of_moveLeash
    have hid : (l1.moveLeash p.id p.addr).st.nums[p.id]?.isSome = true := S.stored_put hexec
    have hkept : ∀ x : BlockID, l.st.nums[x]?.isSome = true → l1.st.nums[x]?.isSome = true := fun x hx => by
      obtain ⟨n, hn⟩ := Option.isSome_iff_exists.1 hx
      have : l1.st.nums[x]? = some n := K.num x n hn
      rw [this]; rfl
    have hleash1' : ∀ (key : Bytes) (x : BlockID), l1.st.leashRecords[key]? = some x → l1.st.nums[x]?.isSome = true :=
      fun key x hx => hkept x (hleash key x (hleash1 ▸ hx))
    have hid1 : l1.st.nums[p.id]?.isSome = true := hid
    have hmiddle : Consistent gw l1.st genesis.blockID (p.tree t l1.st) := by
      rw [Put.tree_of_stored t hid1]
      exact hgenesis ▸ hg1 ▸ S1.consistent hleash1'
    have hafter : Consistent gw (l1.moveLeash p.id p.addr).st genesis.blockID
        (p.tree t (l1.moveLeash p.id p.addr).st) := by
      rw [Put.tree_of_stored t hid]
      refine hgenesis ▸ hg1 ▸ S'.consistent fun key x hx => ?_
      change (l1.st.leashRecords.insert (addrKeyBytes p.addr) p.id)[key]? = some x at hx
      rw [Go.getElem?_insert_eq] at hx
      split at hx
      · cases hx; exact hid
      · exact hleash1' key x hx
    have hcons : ∀ k, Consistent gw (p.stopped gw l k) genesis.blockID (p.tree t (p.stopped gw l k)) := fun k => by
      rcases hstop k with hk | hk | hk <;> rw [hk]
      exacts [hbefore, hmiddle, hafter]
    refine ⟨hwhole, fun f hf => (by rw [hexec] at hf; cases hf), fun k => (hcons k).initialized, hcons, fun k => ?_⟩
    rcases hstop k with hk | hk | hk
    · rw [hk]
    · rw [hk, hexec, ← hg1]
      exact Put.exec_of_stored gw hid
    · rw [hk, hexec, ← hg1]
      -- the leash is moved once more, to where it is
      refine (Put.exec_of_stored gw (l := l1.moveLeash p.id p.addr) hid).trans ?_
      rw [Linkage.moveLeash, Linkage.moveLeash, Storage.updateLeash_updateLeash]

/-- A new block on a branch, with three places to stop at. -/
theorem put_recovers_sample : ∃ l, Sample.after [Sample.key 2 1, Sample.key 3 1] = .ok l ∧
    Recovers Sample.gowaves (Sample.block 1 0) l (Sample.tree [Sample.key 2 1, Sample.key 3 1]) (Sample.putKey 4 2) ∧
    ((Sample.putKey 4 2).trace Sample.gowaves l).writes.length = 2 := by
  obtain ⟨l, h⟩ := Go.exists_of_isOk (x := Sample.after [Sample.key 2 1, Sample.key 3 1]) (by decide +kernel)
  have hlen : (Sample.after [Sample.key 2 1, Sample.key 3 1]).map
      (fun l => ((Sample.putKey 4 2).trace Sample.gowaves l).writes.length) = .ok 2 := by decide +kernel
  rw [h] at hlen
  exact ⟨l, h, put_recovers (Sample.reachable h) _, Except.ok.inj hlen⟩

end Chains
end ForkDetector
