import ForkDetector.Chains.Output
import ForkDetector.Chains.Operations
/-!
# Scans — what the database lists

Each of the two scans of the database covers the keys of one family: the one of the heads all numbers but the last, its
limit, in ascending order, and the one of the leashes all IPv4 addresses.  What a run lists is then what the typed maps
hold (`run_separate`).
-/
namespace ForkDetector
namespace Chains

open Proto (BlockID newBlockIDFromBytes Gowaves)

/-! ## Ranges -/

/-- A range within one prefix. -/
theorem inRange_iff {p q : UInt8} {start limit rest : Bytes} :
    ((compare (p :: start) (q :: rest)).isLE && compare (q :: rest) (p :: limit) == .lt) = true ↔
      q = p ∧ (compare start rest).isLE = true ∧ compare rest limit = .lt := by
  rw [List.compare_cons_cons, List.compare_cons_cons]
  have hswap : compare q p = (compare p q).swap := Std.OrientedOrd.eq_swap
  cases hc : compare p q with
  | eq =>
    obtain rfl := Std.LawfulEqOrd.compare_eq_iff_eq.1 hc
    rw [hc]
    simp
  | lt =>
    have hne : q ≠ p := by
      rintro rfl
      rw [Std.compare_self] at hc
      cases hc
    rw [hswap, hc]
    simp [hne]
  | gt =>
    have hne : q ≠ p := by
      rintro rfl
      rw [Std.compare_self] at hc
      cases hc
    rw [hswap, hc]
    simp [hne]

theorem compare_putUint64 (m n : UInt64) : compare (putUint64 m.toNat) (putUint64 n.toNat) = compare m.toNat n.toNat :=
  BigEndian.compare_encode (toNat_lt_pow m) (toNat_lt_pow n)

def inHeadRange (key : Bytes) : Bool :=
  (compare (numKeyBytes headToBlockPrefix 0) key).isLE &&
    compare key (numKeyBytes headToBlockPrefix maxUint64) == .lt

/-- **The scan of the heads covers all numbers but the last.** -/
theorem inHeadRange_iff (k : Key) :
    inHeadRange k.bytes = true ↔ ∃ h : UInt64, h.toNat < maxUint64 ∧ Key.headToBlock h = k := by
  obtain ⟨rest, hk⟩ := k.bytes_eq
  unfold inHeadRange numKeyBytes
  rw [hk, inRange_iff]
  constructor
  · rintro ⟨hp, -, hlt⟩
    cases k with
    | headToBlock h =>
      obtain rfl : putUint64 h.toNat = rest := (List.cons.inj hk).2
      exact ⟨h, Nat.compare_eq_lt.1 ((compare_putUint64 h (UInt64.ofNat maxUint64)).symm.trans hlt), rfl⟩
    | _ => exact absurd hp (by simp only [Key.pre]; decide)
  · rintro ⟨h, hlt, rfl⟩
    obtain rfl : putUint64 h.toNat = rest := (List.cons.inj hk).2
    refine ⟨rfl, ?_, (compare_putUint64 h (UInt64.ofNat maxUint64)).trans (Nat.compare_eq_lt.2 hlt)⟩
    rw [show compare (putUint64 0) (putUint64 h.toNat) = _ from compare_putUint64 0 h]
    exact Nat.isLE_compare.2 (Nat.zero_le _)

/-- **The scan of the leashes covers all IPv4 addresses.** -/
theorem inLeashRange_iff {k : Key} (hk : k.Fits) :
    Storage.inLeashRange k.bytes = true ↔ ∃ a : Addr, a.is4 = true ∧ Key.leash a = k := by
  constructor
  · intro hr
    obtain ⟨rest, he⟩ := k.bytes_eq
    unfold Storage.inLeashRange addrKeyBytes at hr
    rw [he, inRange_iff] at hr
    cases k with
    | leash a => exact ⟨a, hk, rfl⟩
    | _ => exact absurd hr.1 (by simp only [Key.pre]; decide)
  · rintro ⟨a, ha, rfl⟩
    exact inLeashRange_of_is4 ha

/-! ## Scans -/

theorem numKeyFromBytes_numKeyBytes (p : UInt8) (n : UInt64) :
    numKeyFromBytes (numKeyBytes p n.toNat) = .ok (p, n.toNat) := by
  unfold numKeyFromBytes numKeyBytes
  simp only [length_putUint64, ne_eq, not_true_eq_false, if_false, uint64_putUint64]
  rfl

theorem addrKeyFromBytes_of_is4 {a : Addr} (ha : a.is4 = true) : addrKeyFromBytes (addrKeyBytes a) = .ok a := by
  have hlen : a.bytes.length = 4 := of_decide_eq_true ha
  have hslice : Addr.fromSlice a.bytes = some a := by
    unfold Addr.fromSlice
    rw [dif_pos (.inl hlen)]
    exact congrArg some (Addr.ext_fields rfl (Addr.zone_of_is4 ha).symm)
  unfold addrKeyFromBytes addrKeyBytes
  rw [if_neg (by rw [List.length_cons, hlen]; decide)]
  simp [hslice]

namespace Represents
variable {cbor : Codecs} {db : Database} {f : Families} (h : Represents cbor db f)
include h

/-- **The heads are listed by their numbers**, each with the number of its block. -/
theorem getHeads : ∃ hs, db.getHeads = .ok hs ∧ (hs.Pairwise fun r r' => r.1 < r'.1) ∧
    ∀ r, r ∈ hs ↔ ∃ h n : UInt64, r = (h.toNat, n.toNat) ∧ h.toNat < maxUint64 ∧ f.headToBlock h = some n := by
  obtain ⟨l, hl, hsorted, hmem⟩ := h.holds.scan Key.headToBlock (fun n => putUint64 n.toNat) f.headToBlock
    (fun h => h.toNat < maxUint64) inHeadRange (fun a b _ _ he => numKeyBytes_injective he)
    (fun k _ => inHeadRange_iff k) (fun _ _ => trivial) fun _ => rfl
  have hscan : db.scan (numKeyBytes headToBlockPrefix 0) (numKeyBytes headToBlockPrefix maxUint64) =
      l.map fun e => (numKeyBytes headToBlockPrefix e.1.toNat, putUint64 e.2.toNat) := hl
  refine ⟨l.map fun e => (e.1.toNat, e.2.toNat), ?_, ?_, fun r => List.mem_map.trans ?_⟩
  · unfold Database.getHeads
    rw [hscan]
    refine Go.mapM_map_eq_ok fun e _ => ?_
    simp only [numKeyFromBytes_numKeyBytes, uint64_putUint64, bind, Except.bind, ne_eq, not_true_eq_false, if_false]
  · rw [List.pairwise_map]
    refine hsorted.imp fun {e e'} he => ?_
    have hp : compare headToBlockPrefix headToBlockPrefix = .eq := rfl
    simp only [Key.bytes, numKeyBytes, List.compare_cons_cons, hp, compare_putUint64] at he
    exact Nat.compare_eq_lt.1 he
  · constructor
    · rintro ⟨⟨a, n⟩, he, rfl⟩
      exact ⟨a, n, rfl, (hmem a n).1 he⟩
    · rintro ⟨a, n, rfl, ha⟩
      exact ⟨(a, n), (hmem a n).2 ha, rfl⟩

theorem getBlock (n : UInt64) : db.getBlock cbor n.toNat = Families.found "failed to get block # %d" (f.block n) := by
  have hread := congrFun (congrArg Snapshot.getBlock h.snapshot) n.toNat
  rw [show db.getBlock cbor n.toNat = _ from hread]
  simp [Families.snapshot]

theorem head_eq {a n : UInt64} {b : StoredBlock} {id : BlockID} (hb : f.block n = some b) (hid : b.id = id.bytes) :
    db.head cbor (a.toNat, n.toNat) = .ok ⟨a.toNat, id⟩ := by
  unfold Database.head
  rw [h.getBlock, hb]
  simp only [Families.found, Go.wrap_ok, bind, Except.bind, hid, Proto.newBlockIDFromBytes_bytes]

/-- **`heads` enumerates the heads**, but for one with the last number, in ascending order. -/
theorem heads (H : f.Headed) : ∃ hs, db.heads cbor = .ok hs ∧ (hs.Pairwise fun a b => a.id < b.id) ∧
    ∀ hd, hd ∈ hs ↔ ∃ h : UInt64, hd.id = h.toNat ∧ h.toNat < maxUint64 ∧ f.HeadAt h hd.blockID := by
  obtain ⟨rs, hrs, hsorted, hmem⟩ := h.getHeads
  obtain ⟨hs, hhs⟩ : ∃ hs, rs.mapM (db.head cbor) = .ok hs := Go.exists_mapM_of_forall fun r hr => by
    obtain ⟨a, n, rfl, -, hn⟩ := (hmem r).1 hr
    obtain ⟨id, b, hb, hid⟩ := H a n hn
    exact ⟨_, h.head_eq hb hid⟩
  have hids : hs.map Head.id = rs.map Prod.fst := Go.map_of_mapM hhs fun r hd hr => by
    obtain ⟨bl, -, hr⟩ := Go.bind_eq_ok.1 hr
    obtain ⟨id, -, hr⟩ := Go.bind_eq_ok.1 hr
    cases hr
    rfl
  refine ⟨hs, ?_, ?_, fun hd => (Go.mem_of_mapM hhs hd).trans ⟨?_, ?_⟩⟩
  · unfold Database.heads
    rw [hrs]
    exact hhs
  · rw [← List.pairwise_map (f := Head.id) (R := fun a b => a < b), hids, List.pairwise_map]
    exact hsorted
  · rintro ⟨r, hr, hhd⟩
    obtain ⟨a, n, rfl, ha, hn⟩ := (hmem r).1 hr
    obtain ⟨id, b, hb, hid⟩ := H a n hn
    obtain rfl := Except.ok.inj ((h.head_eq hb hid).symm.trans hhd)
    exact ⟨a, rfl, ha, n, b, hn, hb, hid⟩
  · rintro ⟨a, hid, ha, n, b, hn, hb, hbid⟩
    refine ⟨(a.toNat, n.toNat), (hmem _).2 ⟨a, n, rfl, ha, hn⟩, ?_⟩
    rw [h.head_eq hb hbid, ← hid]

/-- **`leashes` enumerates the leashes of IPv4 addresses**, each once. -/
theorem leashes : ∃ ls, db.leashes = .ok ls ∧ (ls.map Leash.addr).Nodup ∧
    ∀ l, l ∈ ls ↔ l.addr.is4 = true ∧ f.leash l.addr = some l.blockID := by
  obtain ⟨l, hl, hsorted, hmem⟩ := h.holds.scan Key.leash BlockID.bytes f.leash (fun a => a.is4 = true)
    Storage.inLeashRange (fun a b ha hb he => Key.leash.inj (Key.bytes_injective ha hb he))
    (fun k hk => inLeashRange_iff hk) (fun _ ha => ha) fun _ => rfl
  have hscan : db.scan (addrKeyBytes (Addr.from4 0 0 0 0)) (addrKeyBytes Database.lastAddr) =
      l.map fun e => (addrKeyBytes e.1, e.2.bytes) := hl
  refine ⟨l.map fun e => ⟨e.1, e.2⟩, ?_, ?_, fun lsh => List.mem_map.trans ?_⟩
  · unfold Database.leashes
    rw [hscan]
    refine Go.mapM_map_eq_ok fun e he => ?_
    simp only [addrKeyFromBytes_of_is4 ((hmem e.1 e.2).1 he).1, Proto.newBlockIDFromBytes_bytes, Go.wrap_ok, bind,
      Except.bind]
  · rw [List.map_map, List.nodup_iff_pairwise_ne, List.pairwise_map]
    refine hsorted.imp fun {e e'} he hne => ?_
    rw [show e.1 = e'.1 from hne, Std.compare_self] at he
    cases he
  · constructor
    · rintro ⟨⟨a, id⟩, he, rfl⟩
      exact (hmem a id).1 he
    · intro hlsh
      exact ⟨(lsh.addr, lsh.blockID), (hmem _ _).2 hlsh, rfl⟩

end Represents

/-! ## Runs -/

/-- **The database behaves like separate typed maps**: its records are theirs, under keys that never coincide, its reads
and its operations end as theirs do, and its scans enumerate the heads below a number and the leashes written last. -/
structure Separate (gw : Gowaves) (cbor : Codecs) (db : Database) (f : Families) (last : Addr → Option BlockID)
    (limit : Nat) : Prop where
  keys : ∀ k k' : Key, k.Fits → k'.Fits → k.bytes = k'.bytes → k = k'
  records : Represents cbor db f
  reads : db.snapshot cbor = f.snapshot
  leash : ∀ addr : Addr, addr.is4 = true → db.getLeash addr = f.getLeash addr
  operations : ∀ op, (db.exec gw cbor op).map (fun _ => ()) = (f.exec gw op).map fun _ => ()
  stored : ∀ h n, f.headToBlock h = some n → ∃ id, f.HeadAt h id
  heads : ∃ hs, db.heads cbor = .ok hs ∧ (hs.Pairwise fun a b => a.id < b.id) ∧
    ∀ hd, hd ∈ hs ↔ ∃ h : UInt64, hd.id = h.toNat ∧ h.toNat < limit ∧ f.HeadAt h hd.blockID
  leashes : ∃ ls, db.leashes = .ok ls ∧ (ls.map Leash.addr).Nodup ∧
    ∀ l, l ∈ ls ↔ last l.addr = some l.blockID

/-- While no head has the last number, the scan of the heads covers them all. -/
theorem Separate.all_heads {gw : Gowaves} {cbor : Codecs} {db : Database} {f : Families}
    {last : Addr → Option BlockID} (S : Separate gw cbor db f last maxUint64)
    (hlt : ∀ h n, f.headToBlock h = some n → h.toNat < maxUint64) : Separate gw cbor db f last (2 ^ 64) := by
  obtain ⟨hs, hhs, hsorted, hmem⟩ := S.heads
  refine { S with heads := ⟨hs, hhs, hsorted, fun hd => (hmem hd).trans ?_⟩ }
  refine exists_congr fun h => and_congr_right fun _ => ?_
  constructor
  · rintro ⟨-, hat⟩
    exact ⟨h.toNat_lt, hat⟩
  · rintro ⟨-, n, b, hn, hat⟩
    exact ⟨hlt h n hn, n, b, hn, hat⟩

theorem is4_of_lastLeash {ops : List StorageOp} (hops : ∀ op ∈ ops, op.Fits) {a : Addr} {id : BlockID}
    (h : lastLeash ops a = some id) : a.is4 = true := by
  obtain ⟨op, hop, hid⟩ := List.mem_filterMap.1 (List.mem_of_getLast? h)
  cases op with
  | updateLeash addr id' =>
    by_cases ha : addr = a
    · exact ha ▸ hops _ hop
    · rw [StorageOp.leashOf, if_neg ha] at hid
      cases hid
  | _ => cases hid

/-- **After every run of the operations the database behaves like separate typed maps**; the scan of the heads leaves
out the last number, its limit, which no run has put that is shorter than it. -/
theorem run_separate (gw : Gowaves) (cbor : Codecs) (scheme : Proto.Scheme) {ops : List StorageOp}
    (hops : ∀ op ∈ ops, op.Fits) :
    Separate gw cbor ((newDatabase scheme).run gw cbor ops) ((newFamilies scheme).run gw ops) (lastLeash ops)
      maxUint64 ∧
    (ops.length < maxUint64 → Separate gw cbor ((newDatabase scheme).run gw cbor ops)
      ((newFamilies scheme).run gw ops) (lastLeash ops) (2 ^ 64)) := by
  have R : Represents cbor ((newDatabase scheme).run gw cbor ops) ((newFamilies scheme).run gw ops) :=
    (represents_new cbor scheme).run hops
  have H : ((newFamilies scheme).run gw ops).Headed := Families.Headed.run gw (fun h n hn => by cases hn) ops
  have B : (newFamilies scheme).HeadsBelow 0 := by
    refine ⟨fun c hc => ?_, fun h n hn => ?_, fun n h hh => ?_⟩
    · cases hc
    · cases hn
    · cases hh
  have hlast : ∀ a, ((newFamilies scheme).run gw ops).leash a = lastLeash ops a := fun a =>
    (Families.leash_run gw ops a).trans Option.or_none
  have S : Separate gw cbor ((newDatabase scheme).run gw cbor ops) ((newFamilies scheme).run gw ops) (lastLeash ops)
      maxUint64 := by
    refine ⟨fun _ _ => Key.bytes_injective, R, R.snapshot, fun _ => R.getLeash, R.exec_congr, fun h n hn => ?_,
      R.heads H, ?_⟩
    · obtain ⟨id, b, hb, hid⟩ := H h n hn
      exact ⟨id, n, b, hn, hb, hid⟩
    · obtain ⟨ls, hls, hnd, hmem⟩ := R.leashes
      refine ⟨ls, hls, hnd, fun l => (hmem l).trans ?_⟩
      rw [hlast]
      exact ⟨And.right, fun hl => ⟨is4_of_lastLeash hops hl, hl⟩⟩
  refine ⟨S, fun hlen => S.all_heads fun h n hn => ?_⟩
  have := (B.run gw ops).heads h n hn
  omega

/-! ## Samples -/

namespace Sample

/-- A codec by its bytes for some values; any other value is a break code, with which no item starts, and zeros. -/
def cbor {α : Type} [DecidableEq α] [Encodable α] (enc : α → Bytes) (known : List α)
    (hinj : ∀ x ∈ known, ∀ y ∈ known, enc x = enc y → x = y) (hbreak : ∀ x, (enc x).head? ≠ some 255) : Cbor α where
  marshal x := if x ∈ known then enc x else 255 :: List.replicate (Encodable.encode x) 0
  unmarshal v :=
    if v.head? = some 255 then Encodable.decode (v.length - 1) else known.find? fun x => decide (enc x = v)
  unmarshal_marshal x := by
    by_cases hx : x ∈ known
    · rw [if_pos hx, if_neg (hbreak x)]
      cases hf : known.find? fun y => decide (enc y = enc x) with
      | none => exact absurd (decide_eq_true rfl) (List.find?_eq_none.1 hf x hx)
      | some y =>
        have hy : decide (enc y = enc x) = true := List.find?_some (p := fun y => decide (enc y = enc x)) hf
        rw [hinj y (List.mem_of_find?_eq_some hf) x hx (of_decide_eq_true hy)]
    · rw [if_neg hx, List.head?_cons, if_pos rfl, List.length_cons, List.length_replicate, Nat.add_sub_cancel,
        Encodable.encodek]

def cborUint (n : Nat) : Bytes := if n < 24 then [UInt8.ofNat n] else 27 :: BigEndian.encode 8 n

/-- A byte string, null when it is nil. -/
def cborBytes (bs : Bytes) : Bytes := if bs = [] then [246] else 88 :: UInt8.ofNat bs.length :: bs

def cborBlock (b : StoredBlock) : Bytes :=
  [166, 0] ++ cborUint b.height ++ [1] ++ cborUint b.timestamp.toNat ++ [2] ++ cborUint b.score.toNat ++ [3] ++
    cborBytes b.id ++ [4] ++ cborBytes b.parent ++ [5] ++ cborBytes b.generator

def cborLink (l : Link) : Bytes :=
  [163, 0] ++ cborUint l.height ++ [1] ++ cborBytes l.blockID ++ [2] ++
    (if l.parents = [] then [246] else UInt8.ofNat (128 + l.parents.length) :: l.parents.flatMap cborUint)

instance encodableByte : Encodable UInt8 := Encodable.ofLeftInverse UInt8.toNat UInt8.ofNat fun _ => UInt8.ofNat_toNat
instance encodableUint64 : Encodable UInt64 :=
  Encodable.ofLeftInverse UInt64.toNat UInt64.ofNat fun _ => UInt64.ofNat_toNat

instance encodableBlock : Encodable StoredBlock :=
  Encodable.ofLeftInverse (fun b => (b.height, b.timestamp, b.score, b.id, b.parent, b.generator))
    (fun t => ⟨t.1, t.2.1, t.2.2.1, t.2.2.2.1, t.2.2.2.2.1, t.2.2.2.2.2⟩) fun _ => rfl

instance encodableLink : Encodable Link :=
  Encodable.ofLeftInverse (fun l => (l.height, l.blockID, l.parents)) (fun t => ⟨t.1, t.2.1, t.2.2⟩) fun _ => rfl

/-- The record of the genesis block. -/
def genesisBlock : StoredBlock := ⟨1, 1700000000000, 184467440737095516, (id 1).bytes, [], address.bytes⟩

/-- The records of the genesis block and of the block on it. -/
def codecs : Codecs where
  block := cbor cborBlock [genesisBlock,
    ⟨2, 1700000000000, 368934881474191032, (id 2).bytes, (id 1).bytes, address.bytes⟩] (by decide) fun _ h => by cases h
  link := cbor cborLink [⟨1, (id 1).bytes, []⟩, ⟨2, (id 2).bytes, [1]⟩] (by decide) fun _ h => by cases h

/-- A block on the genesis block, and a leash that is moved. -/
def ops : List StorageOp :=
  [.initializeStorage (block 1 0), .putProtoBlock (block 2 1), .updateLeash (peer 2) (id 2),
    .updateLeash (peer 2) (id 1)]

end Sample

theorem run_separate_sample :
    Separate Sample.gowaves Sample.codecs ((newDatabase 87).run Sample.gowaves Sample.codecs Sample.ops)
      ((newFamilies 87).run Sample.gowaves Sample.ops) (lastLeash Sample.ops) (2 ^ 64) ∧
    ((newDatabase 87).run Sample.gowaves Sample.codecs Sample.ops).heads Sample.codecs = .ok [⟨1, Sample.id 2⟩] ∧
    ((newDatabase 87).run Sample.gowaves Sample.codecs Sample.ops).leashes =
      .ok [⟨Sample.peer 2, Sample.id 1⟩] :=
  ⟨(run_separate Sample.gowaves Sample.codecs 87 (by decide)).2 (by decide), by decide +kernel, by decide +kernel⟩

namespace Sample

/-- One of many blocks on the genesis block. -/
def child (n : Nat) : Proto.Block :=
  ⟨⟨2 :: BigEndian.encode 8 n ++ List.replicate 23 0, .inl (by simp [Proto.digestSize])⟩, id 1, 1700000000000, 100,
    publicKey⟩

/-- The genesis block and so many blocks on it. -/
def fan (k : Nat) : List StorageOp :=
  .initializeStorage (block 1 0) :: (List.range k).map fun i => .putProtoBlock (child i)

/-- The typed maps after `k` blocks on the genesis block, each but the first with a head of its own. -/
structure Fanned (f : Families) (k : Nat) : Prop where
  scheme : f.scheme = 87
  blocks : f.counter blocksCounter = some (.ofNat (k + 1))
  heads : f.counter headsCounter = some (.ofNat k)
  num : f.num (id 1) = some 1
  block : f.block 1 = some genesisBlock
  link : f.link 1 = some ⟨1, (id 1).bytes, []⟩
  pointer : f.blockToHead 1 = none
  last : (f.headToBlock (.ofNat k)).isSome = true

theorem fanned_one : Fanned ((newFamilies 87).run gowaves (fan 1)) 1 := by
  refine ⟨?_, ?_, ?_, ?_, ?_, ?_, ?_, ?_⟩
  all_goals decide +kernel

theorem id_one_ne_child (i : Nat) : id 1 ≠ (child i).blockID := by
  intro h
  have hbytes := congrArg BlockID.bytes h
  simp [id, child] at hbytes

/-- What the next block writes: its record under the number `n`, and a head of its own. -/
def nextWrites (k n i : Nat) (b : StoredBlock) : List Write :=
  [.putBlocksCounter n, .putID (child i).blockID n, .putBlock n b, .putLink n ⟨2, (child i).blockID.bytes, [1]⟩,
    .putHeadsCounter (k + 1), .putHeadToBlock (k + 1) n, .putBlockToHead n (k + 1)]

theorem Fanned.batch {f : Families} {k : Nat} (F : Fanned f k) (hk : k + 1 < 2 ^ 64) (i : Nat) :
    ∃ b, (StorageOp.putProtoBlock (child i)).batch gowaves f.scheme f.snapshot =
      .ok (nextWrites k ((k + 2) % 2 ^ 64) i b) := by
  obtain ⟨b, hb⟩ := Go.exists_of_isOk (x := newBlock gowaves 87 (child i) 2 (some genesisBlock.score)) rfl
  have hheight : b.height = 2 := by
    obtain ⟨ga, score, -, -, rfl⟩ := newBlock_eq_ok hb
    rfl
  have hnew : newBlock gowaves 87 (child i) ((genesisBlock.height + 1) % 2 ^ 32) (some genesisBlock.score) = .ok b := hb
  have hn : ((UInt64.ofNat (k + 1)).toNat + 1) % 2 ^ 64 = (k + 2) % 2 ^ 64 := by
    rw [UInt64.toNat_ofNat']
    omega
  have hh : ((UInt64.ofNat k).toNat + 1) % 2 ^ 64 = k + 1 := by
    rw [UInt64.toNat_ofNat']
    omega
  have hcounter : f.snapshot.getCounter blocksCounter = .ok (UInt64.ofNat (k + 1)).toNat := by
    simp only [Families.snapshot, F.blocks, Option.elim]
  have hheads : f.snapshot.getCounter headsCounter = .ok (UInt64.ofNat k).toNat := by
    simp only [Families.snapshot, F.heads, Option.elim]
  have hnum : f.snapshot.getNumOfBlockID (id 1) = .ok 1 := by
    simp only [Families.snapshot, F.num]
    rfl
  have hblock : f.snapshot.getBlock 1 = .ok genesisBlock := congrArg (Families.found _) F.block
  have hlink : f.snapshot.getLink 1 = .ok ⟨1, (id 1).bytes, []⟩ := congrArg (Families.found _) F.link
  have hpointer : f.snapshot.getHeadByBlockNum 1 = Go.fail (.wrap _ (.sentinel .notFound)) :=
    congrArg (fun h : Option UInt64 => Families.found _ (h.map UInt64.toNat)) F.pointer
  have hmax : Storage.maxParents 2 = .ok 1 := by decide
  have hputLink : ∀ n, f.snapshot.putNewLinkForBlock n (child i).blockID 2 (id 1) =
      .ok [.putLink n ⟨2, (child i).blockID.bytes, [1]⟩] := fun n => by
    simp [Snapshot.putNewLinkForBlock, Snapshot.collectParents, hnum, hmax, hlink, bind, Except.bind]
  have hputHead : ∀ n, f.snapshot.putHead n 1 = .ok [.putHeadsCounter (k + 1), .putHeadToBlock (k + 1) n,
      .putBlockToHead n (k + 1)] := fun n => by
    simp only [Snapshot.putHead, hpointer, Go.fail, Go.Err.is, decide_true, if_true, Snapshot.putNewHead, hheads,
      Go.wrap_ok, bind, Except.bind, hh]
  refine ⟨b, ?_⟩
  show f.snapshot.putProtoBlock gowaves f.scheme (child i) = _
  simp only [Snapshot.putProtoBlock, hcounter, show (child i).parent = id 1 from rfl, hnum, hblock, F.scheme, hnew, hn,
    hheight, hputLink, hputHead, Go.wrap_ok, bind, Except.bind]
  rfl

theorem Fanned.succ {f : Families} {k : Nat} (F : Fanned f k) (hk : k + 1 < 2 ^ 64) (i : Nat) :
    Fanned (f.left gowaves (.putProtoBlock (child i))) (k + 1) := by
  obtain ⟨b, hb⟩ := F.batch hk i
  have hne : 1 ≠ UInt64.ofNat ((k + 2) % 2 ^ 64) := by
    intro he
    have he : 1 = (UInt64.ofNat ((k + 2) % 2 ^ 64)).toNat := congrArg UInt64.toNat he
    rw [UInt64.toNat_ofNat'] at he
    omega
  have hcounter : UInt64.ofNat ((k + 2) % 2 ^ 64) = UInt64.ofNat (k + 1 + 1) := by
    rw [← UInt64.toNat_inj, UInt64.toNat_ofNat', UInt64.toNat_ofNat', Nat.mod_mod]
  rw [Families.left_of_batch hb]
  have hnum : (f.write (nextWrites k ((k + 2) % 2 ^ 64) i b)).num (id 1) = f.num (id 1) :=
    Function.update_of_ne (id_one_ne_child i) (some (.ofNat ((k + 2) % 2 ^ 64))) _
  have hblock : (f.write (nextWrites k ((k + 2) % 2 ^ 64) i b)).block 1 = f.block 1 := Function.update_of_ne hne _ _
  have hlink : (f.write (nextWrites k ((k + 2) % 2 ^ 64) i b)).link 1 = f.link 1 := Function.update_of_ne hne _ _
  have hpointer : (f.write (nextWrites k ((k + 2) % 2 ^ 64) i b)).blockToHead 1 = f.blockToHead 1 :=
    Function.update_of_ne hne _ _
  have hlast : (f.write (nextWrites k ((k + 2) % 2 ^ 64) i b)).headToBlock (.ofNat (k + 1)) = some _ :=
    Function.update_self _ _ _
  exact ⟨F.scheme, congrArg some hcounter, rfl, hnum.trans F.num, hblock.trans F.block, hlink.trans F.link,
    hpointer.trans F.pointer, Option.isSome_iff_exists.2 ⟨_, hlast⟩⟩

theorem fanned : ∀ k, 0 < k → k < 2 ^ 64 → Fanned ((newFamilies 87).run gowaves (fan k)) k
  | 0, h0, _ => absurd h0 (Nat.lt_irrefl 0)
  | 1, _, _ => fanned_one
  | k + 2, _, hk => by
    have F := (fanned (k + 1) (Nat.succ_pos k) (Nat.lt_of_succ_lt hk)).succ hk (k + 1)
    have hfan : fan (k + 2) = fan (k + 1) ++ [.putProtoBlock (child (k + 1))] := by
      unfold fan
      rw [List.range_succ, List.map_append]
      rfl
    rw [hfan]
    unfold Families.run at F ⊢
    rw [List.foldl_append]
    exact F

theorem fan_fits (k : Nat) : ∀ op ∈ fan k, op.Fits := by
  unfold fan
  intro op hop
  rcases List.mem_cons.1 hop with rfl | hop
  · trivial
  · obtain ⟨i, -, rfl⟩ := List.mem_map.1 hop
    trivial

end Sample

/-- **The head with the last number is not listed.** -/
theorem last_head_missed : ∃ ops : List StorageOp, (∀ op ∈ ops, op.Fits) ∧
    ¬ Separate Sample.gowaves Sample.codecs ((newDatabase 87).run Sample.gowaves Sample.codecs ops)
      ((newFamilies 87).run Sample.gowaves ops) (lastLeash ops) (2 ^ 64) := by
  refine ⟨Sample.fan maxUint64, Sample.fan_fits _, fun S => ?_⟩
  have F : Sample.Fanned ((newFamilies 87).run Sample.gowaves (Sample.fan maxUint64)) maxUint64 :=
    Sample.fanned maxUint64 (by decide) (by decide)
  obtain ⟨n, hn⟩ := Option.isSome_iff_exists.1 F.last
  obtain ⟨id, hat⟩ := S.stored _ n hn
  have H : ((newFamilies 87).run Sample.gowaves (Sample.fan maxUint64)).Headed :=
    Families.Headed.run Sample.gowaves (fun h n hn => by cases hn) _
  obtain ⟨hs, hhs, -, hall⟩ := S.heads
  obtain ⟨hs', hhs', -, hbelow⟩ := S.records.heads H
  obtain rfl := Except.ok.inj (hhs.symm.trans hhs')
  have hin := (hall ⟨maxUint64, id⟩).2 ⟨.ofNat maxUint64, rfl, by decide, hat⟩
  obtain ⟨h, hid, hlt, -⟩ := (hbelow _).1 hin
  exact absurd hlt (Nat.not_lt.2 (Nat.le_of_eq hid))

end Chains
end ForkDetector
