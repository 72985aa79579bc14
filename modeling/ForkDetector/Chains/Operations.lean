import ForkDetector.Chains.Families
/-!
# Operations — one step on the database and on the typed maps

An operation finds the same in the database and in the typed maps, and writes the same batch to both, so that the
database holds the records of the typed maps after every run (`Represents.run`).  A run keeps that every head is the
number of a block, numbers the heads below the number of its operations, and leaves the leashes that were put last.
-/
namespace ForkDetector
namespace Chains

open Proto (BlockID newBlockIDFromBytes Gowaves)

namespace StorageOp

/-- A leash is put on an IPv4 address. -/
def Fits : StorageOp → Prop
  | .updateLeash addr _ => addr.is4 = true
  | _ => True

instance : DecidablePred Fits
  | .updateLeash addr _ => inferInstanceAs (Decidable (addr.is4 = true))
  | .initializeStorage _ | .putProtoBlock _ | .putMicroBlock _ => .isTrue trivial

/-- The leash of `a` that an operation writes. -/
def leashOf (a : Addr) : StorageOp → Option BlockID
  | .updateLeash addr id => if addr = a then some id else none
  | _ => none

end StorageOp

/-- The leash of `a` that was written last. -/
def lastLeash (ops : List StorageOp) (a : Addr) : Option BlockID := (ops.filterMap (StorageOp.leashOf a)).getLast?

theorem Snapshot.putHead_eq_ok {sn : Snapshot} {n ext : Nat} {head : List Write} (h : sn.putHead n ext = .ok head) :
    (∃ hn, sn.getHeadByBlockNum ext = .ok hn ∧
      head = [.deleteBlockToHead ext, .putHeadToBlock hn n, .putBlockToHead n hn]) ∨
    ∃ c, sn.getCounter headsCounter = .ok c ∧ head = [.putHeadsCounter ((c + 1) % 2 ^ 64),
      .putHeadToBlock ((c + 1) % 2 ^ 64) n, .putBlockToHead n ((c + 1) % 2 ^ 64)] := by
  unfold putHead at h
  split at h
  · rename_i hn hget
    cases h
    exact .inl ⟨hn, hget, rfl⟩
  · split at h
    · unfold putNewHead at h
      obtain ⟨c, hc, h⟩ := Go.bind_eq_ok.1 h
      cases h
      exact .inr ⟨c, Go.wrap_eq_ok.1 hc, rfl⟩
    · cases h
  · cases h

theorem Snapshot.putNewLinkForBlock_eq_ok {sn : Snapshot} {n h : Nat} {id parentID : BlockID} {w : List Write}
    (hw : sn.putNewLinkForBlock n id h parentID = .ok w) : ∃ parents, w = [.putLink n ⟨h, id.bytes, parents⟩] := by
  unfold putNewLinkForBlock at hw
  obtain ⟨pn, -, hw⟩ := Go.bind_eq_ok.1 hw
  obtain ⟨m, -, hw⟩ := Go.bind_eq_ok.1 hw
  obtain ⟨parents, -, hw⟩ := Go.bind_eq_ok.1 hw
  cases hw
  exact ⟨parents, rfl⟩

/-- The numbers of heads are at most `k`. -/
structure Families.HeadsBelow (f : Families) (k : Nat) : Prop where
  counter : ∀ c, f.counter headsCounter = some c → c.toNat ≤ k
  heads : ∀ h n, f.headToBlock h = some n → h.toNat ≤ k
  pointers : ∀ n h, f.blockToHead n = some h → h.toNat ≤ k

/-- A head is put whose number is within the bound. -/
theorem Families.HeadsBelow.put {f f' : Families} {k : Nat} (B : f.HeadsBelow k) (hn n : UInt64)
    (hle : hn.toNat ≤ k + 1) (hc : f'.counter headsCounter = f.counter headsCounter ∨
      f'.counter headsCounter = some hn) (hh : f'.headToBlock = Function.update f.headToBlock hn (some n))
    (hp : ∀ m h, f'.blockToHead m = some h → f.blockToHead m = some h ∨ h = hn) : f'.HeadsBelow (k + 1) := by
  refine ⟨fun c he => ?_, fun h m he => ?_, fun m h he => ?_⟩
  · rcases hc with hc | hc
    · exact Nat.le_succ_of_le (B.counter c (hc ▸ he))
    · rw [← Option.some.inj (hc.symm.trans he)]
      exact hle
  · rw [hh, Function.update_apply] at he
    split at he
    · rename_i heq
      rw [heq]
      exact hle
    · exact Nat.le_succ_of_le (B.heads h m he)
  · rcases hp m h he with he | rfl
    · exact Nat.le_succ_of_le (B.pointers m h he)
    · exact hle

theorem ofNat_toNat_le (n : Nat) : (UInt64.ofNat n).toNat ≤ n := by
  rw [UInt64.toNat_ofNat']
  exact Nat.mod_le _ _

theorem update_eq_some {g : UInt64 → Option UInt64} {n m x y : UInt64} (h : Function.update g n (some x) m = some y) :
    g m = some y ∨ y = x := by
  rw [Function.update_apply] at h
  split at h
  · exact .inr (Option.some.inj h).symm
  · exact .inl h

/-- **What the batch of a block writes**: no leash, and a head, numbered one higher at most, at the record of the
block. -/
structure Inserts (f : Families) (batch : List Write) (id : BlockID) : Prop where
  fits : ∀ w ∈ batch, w.key.Fits
  leash : (f.write batch).leash = f.leash
  head : ∃ n h b, b.id = id.bytes ∧ (f.write batch).block = Function.update f.block n (some b) ∧
    (f.write batch).headToBlock = Function.update f.headToBlock h (some n)
  below : ∀ k, f.HeadsBelow k → (f.write batch).HeadsBelow (k + 1)

theorem inserts_put {f : Families} {n ext : Nat} {id parentID : BlockID} {b : StoredBlock} {link head : List Write}
    (hid : b.id = id.bytes) (hlink : f.snapshot.putNewLinkForBlock n id b.height parentID = .ok link)
    (hhead : f.snapshot.putHead n ext = .ok head) :
    Inserts f ([.putBlocksCounter n, .putID id n, .putBlock n b] ++ link ++ head) id := by
  obtain ⟨parents, rfl⟩ := Snapshot.putNewLinkForBlock_eq_ok hlink
  rcases Snapshot.putHead_eq_ok hhead with ⟨hn, hget, rfl⟩ | ⟨c, hc, rfl⟩
  · refine ⟨by simp [Write.key, Key.Fits], rfl, ⟨.ofNat n, .ofNat hn, b, hid, rfl, rfl⟩, fun k B => ?_⟩
    have hle : (UInt64.ofNat hn).toNat ≤ k := by
      cases hb : f.blockToHead (.ofNat ext) with
      | none =>
        simp only [Families.snapshot, hb] at hget
        cases hget
      | some x =>
        simp only [Families.snapshot, hb] at hget
        cases hget
        exact Nat.le_trans (ofNat_toNat_le _) (B.pointers _ x hb)
    refine B.put (.ofNat hn) (.ofNat n) (Nat.le_succ_of_le hle) (.inl rfl) rfl fun m h he =>
      (update_eq_some he).imp_left fun he => ?_
    have he : Function.update f.blockToHead (.ofNat ext) none m = some h := he
    rw [Function.update_apply] at he
    split at he
    · cases he
    · exact he
  · refine ⟨by simp [Write.key, Key.Fits], rfl, ⟨.ofNat n, .ofNat ((c + 1) % 2 ^ 64), b, hid, rfl, rfl⟩,
      fun k B => ?_⟩
    have hle : c ≤ k := by
      cases hb : f.counter headsCounter with
      | none =>
        simp only [Families.snapshot, hb] at hc
        cases hc
        exact Nat.zero_le k
      | some x =>
        simp only [Families.snapshot, hb] at hc
        cases hc
        exact B.counter x hb
    refine B.put (.ofNat ((c + 1) % 2 ^ 64)) (.ofNat n) ?_ (.inr rfl) rfl fun m h he => update_eq_some he
    have := ofNat_toNat_le ((c + 1) % 2 ^ 64)
    have := Nat.mod_le (c + 1) (2 ^ 64)
    omega

/-- **The batches of the operations.** -/
theorem StorageOp.batch_cases {gw : Gowaves} {f : Families} {op : StorageOp} {batch : List Write}
    (h : op.batch gw f.scheme f.snapshot = .ok batch) :
    (∃ addr id, op = .updateLeash addr id ∧ batch = [.putLeash addr id]) ∨
    (∀ a, op.leashOf a = none) ∧ (batch = [] ∨ ∃ id, Inserts f batch id) := by
  cases op with
  | initializeStorage genesis =>
    refine .inr ⟨fun _ => rfl, ?_⟩
    obtain ⟨n, -, h⟩ := Go.bind_eq_ok.1 h
    split at h
    · obtain ⟨ga, -, h⟩ := Go.bind_eq_ok.1 h
      obtain ⟨score, -, h⟩ := Go.bind_eq_ok.1 h
      cases h
      refine .inr ⟨genesis.blockID, by simp [Write.key, Key.Fits], rfl, ⟨1, 1, _, rfl, rfl, rfl⟩, fun k B => ?_⟩
      exact B.put 1 1 (Nat.le_add_left 1 k) (.inr rfl) rfl fun m h he => update_eq_some he
    · cases h
      exact .inl rfl
  | putProtoBlock block =>
    refine .inr ⟨fun _ => rfl, .inr ⟨block.blockID, ?_⟩⟩
    obtain ⟨n, -, h⟩ := Go.bind_eq_ok.1 h
    obtain ⟨pn, -, h⟩ := Go.bind_eq_ok.1 h
    obtain ⟨pb, -, h⟩ := Go.bind_eq_ok.1 h
    obtain ⟨b, hb, h⟩ := Go.bind_eq_ok.1 h
    obtain ⟨link, hlink, h⟩ := Go.bind_eq_ok.1 h
    obtain ⟨head, hhead, h⟩ := Go.bind_eq_ok.1 h
    cases h
    obtain ⟨ga, score, -, -, rfl⟩ := newBlock_eq_ok (Go.wrap_eq_ok.1 hb)
    exact inserts_put rfl (Go.wrap_eq_ok.1 hlink) (Go.wrap_eq_ok.1 hhead)
  | putMicroBlock inv =>
    refine .inr ⟨fun _ => rfl, .inr ⟨inv.totalBlockID, ?_⟩⟩
    obtain ⟨n, -, h⟩ := Go.bind_eq_ok.1 h
    obtain ⟨rn, -, h⟩ := Go.bind_eq_ok.1 h
    obtain ⟨rb, -, h⟩ := Go.bind_eq_ok.1 h
    obtain ⟨parentID, -, h⟩ := Go.bind_eq_ok.1 h
    obtain ⟨link, hlink, h⟩ := Go.bind_eq_ok.1 h
    obtain ⟨head, hhead, h⟩ := Go.bind_eq_ok.1 h
    cases h
    exact inserts_put (b := ⟨_, _, _, _, _, _⟩) rfl (Go.wrap_eq_ok.1 hlink) (Go.wrap_eq_ok.1 hhead)
  | updateLeash addr id =>
    cases h
    exact .inl ⟨addr, id, rfl, rfl⟩

theorem StorageOp.Fits.batch {gw : Gowaves} {f : Families} {op : StorageOp} (hop : op.Fits) {batch : List Write}
    (h : op.batch gw f.scheme f.snapshot = .ok batch) : ∀ w ∈ batch, w.key.Fits := by
  rcases batch_cases h with ⟨addr, id, rfl, rfl⟩ | ⟨-, rfl | ⟨id, hins⟩⟩
  · exact List.forall_mem_singleton.2 hop
  · exact fun w hw => absurd hw List.not_mem_nil
  · exact hins.fits

namespace Represents
variable {gw : Gowaves} {cbor : Codecs} {db : Database} {f : Families} (h : Represents cbor db f)
include h

theorem exec_eq (op : StorageOp) : db.exec gw cbor op = (op.batch gw f.scheme f.snapshot).map (db.write cbor) := by
  unfold Database.exec
  rw [h.snapshot, h.scheme]

/-- An operation ends in the same way. -/
theorem exec_congr (op : StorageOp) :
    (db.exec gw cbor op).map (fun _ => ()) = (f.exec gw op).map fun _ => () := by
  rw [h.exec_eq]
  unfold Families.exec
  cases op.batch gw f.scheme f.snapshot <;> rfl

theorem left {op : StorageOp} (hop : op.Fits) : Represents cbor (db.left gw cbor op) (f.left gw op) := by
  unfold Database.left Families.left
  rw [h.exec_eq]
  unfold Families.exec
  cases hb : op.batch gw f.scheme f.snapshot with
  | error e => exact h
  | ok batch => exact h.write (hop.batch hb)

omit h in
/-- **After every run the database holds the records of the typed maps.** -/
theorem run (h : Represents cbor db f) {ops : List StorageOp} (hops : ∀ op ∈ ops, op.Fits) :
    Represents cbor (db.run gw cbor ops) (f.run gw ops) := by
  induction ops generalizing db f with
  | nil => exact h
  | cons op ops ih =>
    obtain ⟨hop, hrest⟩ := List.forall_mem_cons.1 hops
    exact ih (h.left hop) hrest

end Represents

namespace Families
variable (gw : Gowaves) (f : Families)

variable {gw f} in
theorem left_of_batch {op : StorageOp} {batch : List Write} (h : op.batch gw f.scheme f.snapshot = .ok batch) :
    f.left gw op = f.write batch := by
  unfold left exec
  rw [h]
  rfl

/-- An operation leaves the typed maps as they were, or writes its batch. -/
theorem left_cases (op : StorageOp) : ((∃ e, op.batch gw f.scheme f.snapshot = .error e) ∧ f.left gw op = f) ∨
    ∃ batch, op.batch gw f.scheme f.snapshot = .ok batch ∧ f.left gw op = f.write batch := by
  cases hb : op.batch gw f.scheme f.snapshot with
  | error e =>
    refine .inl ⟨⟨e, rfl⟩, ?_⟩
    unfold left exec
    rw [hb]
    rfl
  | ok batch => exact .inr ⟨batch, rfl, left_of_batch hb⟩

/-- The head `h` is at the block `id`. -/
def HeadAt (h : UInt64) (id : BlockID) : Prop :=
  ∃ n b, f.headToBlock h = some n ∧ f.block n = some b ∧ b.id = id.bytes

/-- Every head is at a stored block. -/
def Headed : Prop := ∀ h n, f.headToBlock h = some n → ∃ (id : BlockID) (b : StoredBlock), f.block n = some b ∧
  b.id = id.bytes

variable {f}

theorem Headed.left (H : f.Headed) (op : StorageOp) : (f.left gw op).Headed := by
  rcases f.left_cases gw op with ⟨-, he⟩ | ⟨batch, hb, he⟩
  · rw [he]
    exact H
  rw [he]
  rcases StorageOp.batch_cases hb with ⟨addr, id, -, rfl⟩ | ⟨-, rfl | ⟨id, hins⟩⟩
  · exact H
  · exact H
  obtain ⟨n, h, b, hid, hblock, hhead⟩ := hins.head
  intro h' n' hn'
  rw [hhead, Function.update_apply] at hn'
  rw [hblock]
  by_cases hn : n' = n
  · exact ⟨id, b, by rw [hn, Function.update_self], hid⟩
  · rw [Function.update_of_ne hn]
    refine H h' n' ?_
    by_cases hh : h' = h
    · rw [if_pos hh] at hn'
      exact absurd (Option.some.inj hn').symm hn
    · rwa [if_neg hh] at hn'

theorem Headed.run (H : f.Headed) (ops : List StorageOp) : (f.run gw ops).Headed := by
  induction ops generalizing f with
  | nil => exact H
  | cons op ops ih => exact ih (H.left gw op)

theorem HeadsBelow.left {k : Nat} (B : f.HeadsBelow k) (op : StorageOp) : (f.left gw op).HeadsBelow (k + 1) := by
  have hsucc : f.HeadsBelow (k + 1) := ⟨fun c hc => Nat.le_succ_of_le (B.counter c hc),
    fun h n hn => Nat.le_succ_of_le (B.heads h n hn), fun n h hh => Nat.le_succ_of_le (B.pointers n h hh)⟩
  rcases f.left_cases gw op with ⟨-, he⟩ | ⟨batch, hb, he⟩
  · rw [he]
    exact hsucc
  rw [he]
  rcases StorageOp.batch_cases hb with ⟨addr, id, -, rfl⟩ | ⟨-, rfl | ⟨id, hins⟩⟩
  · exact ⟨hsucc.counter, hsucc.heads, hsucc.pointers⟩
  · exact hsucc
  · exact hins.below k B

/-- A run puts at most one head with each operation. -/
theorem HeadsBelow.run {k : Nat} (B : f.HeadsBelow k) (ops : List StorageOp) :
    (f.run gw ops).HeadsBelow (k + ops.length) := by
  induction ops generalizing f k with
  | nil => exact B
  | cons op ops ih =>
    have := ih (B.left gw op)
    rwa [Nat.add_assoc, Nat.add_comm 1] at this

theorem leash_left (op : StorageOp) (a : Addr) : (f.left gw op).leash a = (op.leashOf a).or (f.leash a) := by
  rcases f.left_cases gw op with ⟨⟨e, hb⟩, he⟩ | ⟨batch, hb, he⟩
  · rw [he]
    cases op with
    | updateLeash addr id => cases hb
    | _ => rfl
  rw [he]
  rcases StorageOp.batch_cases hb with ⟨addr, id, rfl, rfl⟩ | ⟨hop, rfl | ⟨id, hins⟩⟩
  · show Function.update f.leash addr (some id) a = (if addr = a then some id else none).or (f.leash a)
    by_cases ha : addr = a
    · rw [if_pos ha, ha, Function.update_self]
      rfl
    · rw [if_neg ha, Function.update_of_ne (Ne.symm ha)]
      rfl
  · rw [hop]
    rfl
  · rw [hop, hins.leash]
    rfl

/-- **The typed leashes are the ones written last.** -/
theorem leash_run (ops : List StorageOp) (a : Addr) : (f.run gw ops).leash a = (lastLeash ops a).or (f.leash a) := by
  induction ops generalizing f with
  | nil => rfl
  | cons op ops ih =>
    show ((f.left gw op).run gw ops).leash a = _
    rw [ih, leash_left, ← Option.or_assoc]
    congr 1
    unfold lastLeash
    cases ho : op.leashOf a with
    | none => rw [List.filterMap_cons_none ho, Option.or_none]
    | some id =>
      rw [List.filterMap_cons_some ho, List.getLast?_cons]
      cases (ops.filterMap (StorageOp.leashOf a)).getLast? <;> rfl

end Families

end Chains
end ForkDetector
