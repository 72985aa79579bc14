import ForkDetector.Lib.Lifting
import ForkDetector.Chains.BlockTree
import ForkDetector.Chains.Linkage
/-!
# Refinement — the database as a block tree

`Reachable` runs the calls that change a linkage beside the block tree they describe.  `Refines` is what the two agree
on in every reachable state: each block of the tree has one number, a block record and a link record that say what the
tree says, and each link carries the skip list of its number in the tree of numbers.  A call moves a leash or inserts
one block (`Mirrors.call_cases`), and one structure, `Growth`, covers both ways of inserting a block.
-/
namespace ForkDetector
namespace Chains

open Ancestry Lifting
open Std (ExtTreeMap)
open Proto (BlockID newBlockIDFromBytes Gowaves MicroBlockInv)

inductive Call where
  | putBlock (b : Proto.Block) (addr : Addr)
  | putMicroBlock (inv : MicroBlockInv) (addr : Addr)
  | moveLeash (id : BlockID) (addr : Addr)

/-- A call on a linkage.  A leash is moved to a stored block only, as its one caller has just looked the block up. -/
def Linkage.call (gw : Gowaves) (l : Linkage) : Call → Res Linkage
  | .putBlock b addr => l.putBlock gw b addr
  | .putMicroBlock inv addr => l.putMicroBlock inv addr
  | .moveLeash id addr => do
    let ok ← l.hasBlock id
    if ok then .ok (l.moveLeash id addr) else Go.fail (.sentinel .notFound)

def BlockTree.call (t : BlockTree BlockID) : Call → BlockTree BlockID
  | .putBlock b _ => t.addKeyBlock b.blockID b.parent
  | .putMicroBlock inv _ => t.addMicroBlock inv.totalBlockID inv.reference
  | .moveLeash _ _ => t

/-- **The states that calls reach** from a fresh database.  A call that fails changes nothing. -/
inductive Reachable (gw : Gowaves) (scheme : Proto.Scheme) (genesis : Proto.Block) :
    Linkage → BlockTree BlockID → Prop where
  | start {l : Linkage} : newLinkage gw scheme genesis = .ok l → Reachable gw scheme genesis l (.single genesis.blockID)
  | call {l l' : Linkage} {t : BlockTree BlockID} (c : Call) :
      Reachable gw scheme genesis l t → l.call gw c = .ok l' → Reachable gw scheme genesis l' (t.call c)

theorem Reachable.run {gw : Gowaves} {scheme : Proto.Scheme} {genesis : Proto.Block} : ∀ {calls : List Call}
    {l l' : Linkage} {t : BlockTree BlockID}, Reachable gw scheme genesis l t →
    calls.foldlM (Linkage.call gw) l = .ok l' → Reachable gw scheme genesis l' (calls.foldl BlockTree.call t)
  | [], _, _, _, hr, h => by cases h; exact hr
  | c :: calls, l, l', t, hr, h => by
    rw [List.foldlM_cons] at h
    obtain ⟨l1, h1, h⟩ := Go.bind_eq_ok.1 h
    exact @Reachable.run _ _ _ calls _ _ _ (.call c hr h1) h

/-! ## The tree of block numbers -/

namespace Storage

def HasLink (s : Storage) (n : Nat) : Prop := s.links[n]?.isSome = true

def numParent (s : Storage) (n : Nat) : Option Nat := s.links[n]?.bind fun k => k.parents[0]?

def numHeight (s : Storage) (n : Nat) : Nat := s.links[n]?.elim 0 Link.height

/-- The ID of a numbered block, read off its link. -/
def idOf (s : Storage) (n : Nat) : BlockID :=
  match s.links[n]?.map (fun k => newBlockIDFromBytes k.blockID) with
  | some (.ok id) => id
  | _ => .zero

theorem numParent_eq {s : Storage} {n : Nat} {k : Link} (h : s.links[n]? = some k) :
    s.numParent n = k.parents[0]? := by
  unfold numParent; rw [h]; rfl

theorem numHeight_eq {s : Storage} {n : Nat} {k : Link} (h : s.links[n]? = some k) : s.numHeight n = k.height := by
  unfold numHeight; rw [h]; rfl

theorem hasLink_of {s : Storage} {n : Nat} {k : Link} (h : s.links[n]? = some k) : s.HasLink n := by
  unfold HasLink; rw [h]; rfl

end Storage

structure Recorded (gw : Gowaves) (s : Storage) (id : BlockID) (nd : Node BlockID) (n : Nat) (b : StoredBlock)
    (k : Link) : Prop where
  num : s.nums[id]? = some n
  block : s.blocks[n]? = some b
  link : s.links[n]? = some k
  block_id : b.id = id.bytes
  block_height : b.height = nd.height
  block_parent : b.parent = nd.parent.elim [] BlockID.bytes
  link_id : k.blockID = id.bytes
  link_height : k.height = nd.height
  link_parent : k.parents[0]? = nd.parent.bind fun (p : BlockID) => s.nums[p]?
  score_nonneg : 0 ≤ b.score
  generator : ∃ pk a, gw.newAddressFromPublicKey s.scheme pk = .ok a ∧ b.generator = a.bytes

/-- **The database says what the block tree says.** -/
structure Refines (gw : Gowaves) (s : Storage) (t : BlockTree BlockID) : Prop where
  recorded : ∀ (id : BlockID) (nd : Node BlockID), t.node id = some nd → ∃ n b k, Recorded gw s id nd n b k
  num_stored : ∀ (id : BlockID) (n : Nat), s.nums[id]? = some n → t.Stored id ∧ 0 < n ∧ n ≤ s.blocksCounter
  numbered : ∀ n, 0 < n → n ≤ s.blocksCounter → ∃ id : BlockID, s.nums[id]? = some n
  block_le : ∀ (n : Nat) (b : StoredBlock), s.blocks[n]? = some b → 0 < n ∧ n ≤ s.blocksCounter
  link_le : ∀ (n : Nat) (k : Link), s.links[n]? = some k → 0 < n ∧ n ≤ s.blocksCounter
  root_num : s.nums[t.root]? = some 1
  height_lt : ∀ id : BlockID, t.height id < 2 ^ 32
  skips : ∀ (n : Nat) (k : Link), s.links[n]? = some k → IsSkips s.numParent n k.height k.parents

/-- Every leash points to a stored block, under the key of some address. -/
def LeashesStored (s : Storage) (t : BlockTree BlockID) : Prop :=
  ∀ (key : Bytes) (id : BlockID), s.leashRecords[key]? = some id → t.Stored id ∧ ∃ addr, key = addrKeyBytes addr

namespace Refines
variable {gw : Gowaves} {s : Storage} {t : BlockTree BlockID} (R : Refines gw s t)
include R

theorem num_inj {a b : BlockID} {n : Nat} (ha : s.nums[a]? = some n) (hb : s.nums[b]? = some n) : a = b := by
  obtain ⟨nda, hnda⟩ := (R.num_stored a n ha).1.node
  obtain ⟨ndb, hndb⟩ := (R.num_stored b n hb).1.node
  obtain ⟨na, ba, ka, ra⟩ := R.recorded a nda hnda
  obtain ⟨nb, bb, kb, rb⟩ := R.recorded b ndb hndb
  have hna : na = n := Option.some.inj (ra.num.symm.trans ha)
  have hnb : nb = n := Option.some.inj (rb.num.symm.trans hb)
  subst hna hnb
  have hk : ka = kb := Option.some.inj (ra.link.symm.trans rb.link)
  exact BlockID.ext_bytes (by rw [← ra.link_id, hk, rb.link_id])

theorem of_num {id : BlockID} {n : Nat} (h : s.nums[id]? = some n) :
    ∃ nd b k, t.node id = some nd ∧ Recorded gw s id nd n b k := by
  obtain ⟨nd, hnd⟩ := (R.num_stored id n h).1.node
  obtain ⟨n', b, k, r⟩ := R.recorded id nd hnd
  obtain rfl : n' = n := Option.some.inj (r.num.symm.trans h)
  exact ⟨nd, b, k, hnd, r⟩

theorem of_link {n : Nat} {k : Link} (h : s.links[n]? = some k) :
    ∃ id nd b, t.node id = some nd ∧ Recorded gw s id nd n b k := by
  obtain ⟨h0, hle⟩ := R.link_le n k h
  obtain ⟨id, hid⟩ := R.numbered n h0 hle
  obtain ⟨nd, b, k', hnd, r⟩ := R.of_num hid
  obtain rfl : k' = k := Option.some.inj (r.link.symm.trans h)
  exact ⟨id, nd, b, hnd, r⟩

theorem stored_iff {id : BlockID} : t.Stored id ↔ s.nums[id]?.isSome = true := by
  constructor
  · intro h
    obtain ⟨nd, hnd⟩ := h.node
    obtain ⟨n, b, k, r⟩ := R.recorded id nd hnd
    rw [r.num]; rfl
  · intro h
    obtain ⟨n, hn⟩ := Option.isSome_iff_exists.1 h
    exact (R.num_stored id n hn).1

theorem node_eq_none {id : BlockID} (h : s.nums[id]? = none) : t.node id = none := by
  cases hnd : t.node id with
  | none => rfl
  | some nd =>
    obtain ⟨n, b, k, r⟩ := R.recorded id nd hnd
    rw [r.num] at h; cases h

theorem nums_eq_none {id : BlockID} (h : ¬ t.Stored id) : s.nums[id]? = none := by
  rw [R.stored_iff, Bool.not_eq_true, Option.isSome_eq_false_iff, Option.isNone_iff_eq_none] at h
  exact h

theorem hasBlock_iff {id : BlockID} : s.hasBlock id = .ok true ↔ t.Stored id := by
  rw [Storage.hasBlock_eq, R.stored_iff, Except.ok.injEq]

/-- **The numbers form the same tree**, rooted at number one. -/
theorem rooted : Rooted s.numParent s.HasLink s.numHeight 1 := by
  have hroot : ∀ {k}, s.links[1]? = some k → ∃ nd b, t.node t.root = some nd ∧ Recorded gw s t.root nd 1 b k := by
    intro k hk
    obtain ⟨nd, b, k', hnd, r⟩ := R.of_num R.root_num
    obtain rfl : k' = k := Option.some.inj (r.link.symm.trans hk)
    exact ⟨nd, b, hnd, r⟩
  obtain ⟨nd1, b1, k1, hnd1, r1⟩ := R.of_num R.root_num
  refine ⟨Storage.hasLink_of r1.link, fun n hn => ?_, ?_, fun n m hn hm => ?_⟩
  · obtain ⟨k, hk⟩ := Option.isSome_iff_exists.1 hn
    obtain ⟨id, nd, b, hnd, r⟩ := R.of_link hk
    have hpar := t.isRooted.parent_eq_none id (BlockTree.stored_of_node hnd)
    rw [BlockTree.parent_eq hnd] at hpar
    rw [Storage.numParent_eq hk, r.link_parent]
    constructor
    · intro h
      cases hp : nd.parent with
      | none =>
        rw [hpar.1 hp] at r
        exact Option.some.inj (r.num.symm.trans R.root_num)
      | some p =>
        have hps : t.Stored p := (t.isRooted.step id p (BlockTree.stored_of_node hnd)
          ((BlockTree.parent_eq hnd).trans hp)).1
        obtain ⟨m, hm⟩ := Option.isSome_iff_exists.1 (R.stored_iff.1 hps)
        simp [hp, hm] at h
    · rintro rfl
      rw [hpar.2 (R.num_inj r.num R.root_num)]; rfl
  · rw [Storage.numHeight_eq r1.link, r1.link_height, ← BlockTree.height_eq hnd1]
    exact t.isRooted.height_root
  · obtain ⟨k, hk⟩ := Option.isSome_iff_exists.1 hn
    obtain ⟨id, nd, b, hnd, r⟩ := R.of_link hk
    rw [Storage.numParent_eq hk, r.link_parent] at hm
    obtain ⟨p, hp, hpm⟩ := Option.bind_eq_some_iff.1 hm
    obtain ⟨ndp, bp, kp, hndp, rp⟩ := R.of_num hpm
    have hh := (t.isRooted.step id p (BlockTree.stored_of_node hnd) ((BlockTree.parent_eq hnd).trans hp)).2
    rw [BlockTree.height_eq hnd, BlockTree.height_eq hndp] at hh
    refine ⟨Storage.hasLink_of rp.link, ?_⟩
    rw [Storage.numHeight_eq hk, Storage.numHeight_eq rp.link, r.link_height, rp.link_height, hh]

theorem idOf_eq {id : BlockID} {n : Nat} (h : s.nums[id]? = some n) : s.idOf n = id := by
  obtain ⟨nd, b, k, -, r⟩ := R.of_num h
  unfold Storage.idOf
  rw [r.link, Option.map_some, r.link_id, Proto.newBlockIDFromBytes_bytes]

theorem parent_idOf {n : Nat} (h : s.HasLink n) : t.parent (s.idOf n) = (s.numParent n).map s.idOf := by
  obtain ⟨k, hk⟩ := Option.isSome_iff_exists.1 h
  obtain ⟨id, nd, b, hnd, r⟩ := R.of_link hk
  rw [R.idOf_eq r.num, BlockTree.parent_eq hnd, Storage.numParent_eq hk, r.link_parent]
  cases hp : nd.parent with
  | none => rfl
  | some p =>
    have hps : t.Stored p := (t.isRooted.step id p (BlockTree.stored_of_node hnd)
      ((BlockTree.parent_eq hnd).trans hp)).1
    obtain ⟨m, hm⟩ := Option.isSome_iff_exists.1 (R.stored_iff.1 hps)
    simp [hm, R.idOf_eq hm]

/-- **Ancestors of numbers are the numbers of ancestors.** -/
theorem up_idOf {n : Nat} (h : s.HasLink n) (k : Nat) :
    up t.parent k (s.idOf n) = (up s.numParent k n).map s.idOf :=
  (up_map s.idOf s.HasLink (fun a b ha hb => (R.rooted.step a b ha hb).1) (fun _ ha => R.parent_idOf ha) k n h).1

theorem height_idOf {id : BlockID} {n : Nat} (h : s.nums[id]? = some n) : s.numHeight n = t.height id := by
  obtain ⟨nd, b, k, hnd, r⟩ := R.of_num h
  rw [Storage.numHeight_eq r.link, r.link_height, BlockTree.height_eq hnd]

theorem hasLink {id : BlockID} {n : Nat} (h : s.nums[id]? = some n) : s.HasLink n := by
  obtain ⟨nd, b, k, -, r⟩ := R.of_num h
  exact Storage.hasLink_of r.link

/-- The `k`-th ancestor of a stored block, by ID and by number. -/
theorem up_num {id : BlockID} {n m k : Nat} (h : s.nums[id]? = some n) (hu : up s.numParent k n = some m) :
    ∃ a, s.nums[a]? = some m ∧ up t.parent k id = some a := by
  have hl := (R.rooted.up_height (R.hasLink h) hu).1
  obtain ⟨km, hkm⟩ := Option.isSome_iff_exists.1 hl
  obtain ⟨a, nd, b, -, r⟩ := R.of_link hkm
  refine ⟨a, r.num, ?_⟩
  have := R.up_idOf (R.hasLink h) k
  rw [R.idOf_eq h, hu, Option.map_some, R.idOf_eq r.num] at this
  exact this

end Refines

/-! ## Inserting a block -/

/-- **The loop that collects the parents builds the skip list.**  Before the round `l` the walk stands on the
`(2^l - 1)`-th ancestor of the parent. -/
theorem collectParents_spec {gw : Gowaves} {s : Storage} {t : BlockTree BlockID} (R : Refines gw s t) {pn : Nat}
    (hpn : s.HasLink pn) : ∀ (k l n : Nat) (ps : List Nat), k + l = Nat.clog 2 (s.numHeight pn + 1) →
      (0 < k → up s.numParent (2 ^ l - 1) pn = some n) → s.collectParents k l n = .ok ps →
      ps.length = k ∧ ∀ j, j < k → ps[j]? = up s.numParent (2 ^ (l + j) - 1) pn
  | 0, l, n, ps, _, _, h => by
    cases h
    exact ⟨rfl, fun j hj => absurd hj (Nat.not_lt_zero j)⟩
  | k + 1, l, n, ps, hkl, hn, h => by
    have hu := hn (Nat.succ_pos k)
    obtain ⟨pl, hpl, h⟩ := Go.bind_eq_ok.1 h
    obtain ⟨rest, hrest, h⟩ := Go.bind_eq_ok.1 h
    cases h
    rw [Storage.getLink_eq_ok] at hpl
    have hnext : 0 < k → up s.numParent (2 ^ (l + 1) - 1) pn =
        some (if pl.parents.length > l then pl.parents.getD l n else n) := by
      intro hk
      obtain ⟨hln, hhn⟩ := R.rooted.up_height hpn hu
      have hpow : 2 ^ (l + 1) < s.numHeight pn + 1 := by
        rw [← Nat.lt_clog_iff_pow_lt Nat.one_lt_two]; omega
      have hsk := R.skips n pl hpl
      rw [Nat.pow_succ] at hpow
      have hpos : 0 < 2 ^ l := Nat.two_pow_pos l
      rw [Storage.numHeight_eq hpl] at hhn
      have hlt : l < pl.parents.length := hsk.lt_length.2 (by omega)
      have hget := hsk.get_eq l hlt
      rw [if_pos hlt, List.getD_eq_getElem?_getD, List.getElem?_eq_getElem hlt, Option.getD_some]
      rw [List.getElem?_eq_getElem hlt] at hget
      rw [show 2 ^ (l + 1) - 1 = (2 ^ l - 1) + 2 ^ l by rw [Nat.pow_succ]; omega, up_add, hu]
      exact hget.symm
    obtain ⟨hlen, hgets⟩ := collectParents_spec R hpn k (l + 1) _ rest (by omega) hnext hrest
    refine ⟨by rw [List.length_cons, hlen], fun j hj => ?_⟩
    cases j with
    | zero => rw [List.getElem?_cons_zero, Nat.add_zero, hu]
    | succ j =>
      rw [List.getElem?_cons_succ, hgets j (by omega), show l + 1 + j = l + (j + 1) by omega]

/-- **A growth**: `id` comes on top of `p`, extends `e`, and is inserted with a record that says so. -/
structure Growth (gw : Gowaves) (s s' : Storage) (t : BlockTree BlockID) (id p e : BlockID) (origin : Origin BlockID)
    (ext : Nat) (b : StoredBlock) (parents : List Nat) : Prop where
  new : t.node id = none
  parent_stored : t.Stored p
  origin_on : origin.on t.parent = some p
  extended_eq : origin.extended = some e
  extended_stored : t.Stored e
  extended_num : s.nums[e]? = some ext
  inserted : Storage.Inserted s s' id p ext b parents
  block_id : b.id = id.bytes
  block_height : b.height = t.height p + 1
  block_parent : b.parent = p.bytes
  height_lt : b.height < 2 ^ 32
  score_nonneg : 0 ≤ b.score
  generator : ∃ pk a, gw.newAddressFromPublicKey s.scheme pk = .ok a ∧ b.generator = a.bytes

def Growth.tree {gw : Gowaves} {s s' : Storage} {t : BlockTree BlockID} {id p e : BlockID} {origin : Origin BlockID}
    {ext : Nat} {b : StoredBlock} {parents : List Nat} (G : Growth gw s s' t id p e origin ext b parents) :
    BlockTree BlockID :=
  t.grow id origin p G.new G.parent_stored
    (fun e' h => by rw [G.extended_eq] at h; cases h; exact G.extended_stored) G.origin_on

namespace Refines
variable {gw : Gowaves} {s s' : Storage} {t : BlockTree BlockID}

theorem up_old (R : Refines gw s t) {n : Nat} {k : Link} (hn : s.links[n]? = none)
    (hl : s'.links = s.links.insert n k) {m : Nat} (hm : s.HasLink m) (j : Nat) :
    up s'.numParent j m = up s.numParent j m := by
  have hpar : ∀ a, s.HasLink a → s'.numParent a = (s.numParent a).map fun b => b := by
    intro a ha
    have hne : a ≠ n := fun e => by subst e; unfold Storage.HasLink at ha; rw [hn] at ha; cases ha
    unfold Storage.numParent
    rw [hl, Go.getElem?_insert_eq, if_neg hne, Option.map_id']
  have := (up_map (fun b => b) s.HasLink (fun a b ha hb => (R.rooted.step a b ha hb).1) hpar j m hm).1
  simpa using this

/-- **An insertion keeps the agreement**: the tree grows by the inserted block. -/
theorem growth (R : Refines gw s t) {id p e : BlockID} {origin : Origin BlockID} {ext : Nat} {b : StoredBlock}
    {parents : List Nat} (G : Growth gw s s' t id p e origin ext b parents) : Refines gw s' G.tree := by
  obtain ⟨hid, hp, hon, he, hes, henum, I, hbid, hbh, hbp, hlt, hscore, hgen⟩ := G
  have ho : ∀ e', origin.extended = some e' → t.Stored e' := fun e' h => by
    rw [he] at h; cases h; exact hes
  show Refines gw s' (t.grow id origin p hid hp ho hon)
  obtain ⟨hscheme, hcounter, hnums, hblocks, hlinks, -⟩ := I.fields
  obtain ⟨pn, hpn, hcollect⟩ := I.collected
  have hlink_new : s.links[s.blocksCounter + 1]? = none := by
    cases hk : s.links[s.blocksCounter + 1]? with
    | none => rfl
    | some k => have := R.link_le _ k hk; omega
  have hnum_new : s.nums[id]? = none := by
    cases hn : s.nums[id]? with
    | none => rfl
    | some n =>
      have := (R.num_stored id n hn).1
      unfold BlockTree.Stored at this; rw [hid] at this; cases this
  have hnums_old : ∀ {x : BlockID} {n : Nat}, s.nums[x]? = some n → s'.nums[x]? = some n := by
    intro x n hx
    rw [hnums, Go.getElem?_insert_eq, if_neg (fun e => by subst e; rw [hnum_new] at hx; cases hx), hx]
  have hlinks_old : ∀ {n : Nat} {k : Link}, s.links[n]? = some k → s'.links[n]? = some k := by
    intro n k hk
    rw [hlinks, Go.getElem?_insert_eq, if_neg (fun e => by subst e; rw [hlink_new] at hk; cases hk), hk]
  -- the list collected for the new number is its skip list
  obtain ⟨hlen, hget⟩ := collectParents_spec R (R.hasLink hpn) (Nat.clog 2 b.height) 0 pn parents
    (by rw [R.height_idOf hpn, hbh, Nat.add_zero]) (fun _ => rfl) hcollect
  have hfirst : parents[0]? = some pn := by
    rw [hget 0 (by
      rw [Nat.lt_clog_iff_pow_lt Nat.one_lt_two, hbh]
      have := t.isRooted.height_pos hp
      omega)]
    rfl
  have hpar_new : s'.numParent (s.blocksCounter + 1) = some pn := by
    unfold Storage.numParent
    rw [hlinks, Go.getElem?_insert_eq, if_pos rfl]
    exact hfirst
  have hskips_new : IsSkips s'.numParent (s.blocksCounter + 1) b.height parents := by
    refine ⟨hlen, fun i hi => ?_⟩
    rw [hget i (by omega), Nat.zero_add, ← R.up_old hlink_new hlinks (R.hasLink hpn)]
    conv => rhs; rw [show 2 ^ i = 1 + (2 ^ i - 1) by have := Nat.two_pow_pos i; omega, up_add, up_one, hpar_new]
    rfl
  refine ⟨fun x nd hx => ?_, fun x n hx => ?_, fun n h0 hle => ?_, fun n b' hb' => ?_, fun n k hk => ?_, ?_,
    fun x => ?_, fun n k hk => ?_⟩
  · by_cases hxid : x = id
    · subst hxid
      rw [BlockTree.grow_node_self] at hx
      cases hx
      refine ⟨s.blocksCounter + 1, b, ⟨b.height, x.bytes, parents⟩, ?_, ?_, ?_, hbid, hbh, hbp, rfl, hbh, ?_, hscore,
        ?_⟩
      · rw [hnums, Go.getElem?_insert_eq, if_pos rfl]
      · rw [hblocks, Go.getElem?_insert_eq, if_pos rfl]
      · rw [hlinks, Go.getElem?_insert_eq, if_pos rfl]
      · exact hfirst.trans (hnums_old hpn).symm
      · rw [hscheme]; exact hgen
    · rw [BlockTree.grow_node, BlockTree.grownNode_of_ne t id origin p hxid] at hx
      obtain ⟨n, b', k, r⟩ := R.recorded x nd hx
      refine ⟨n, b', k, hnums_old r.num, ?_, hlinks_old r.link, r.block_id, r.block_height, r.block_parent, r.link_id,
        r.link_height, ?_, r.score_nonneg, by rw [hscheme]; exact r.generator⟩
      · rw [hblocks, Go.getElem?_insert_eq, if_neg (fun e => by have := R.block_le n b' r.block; omega), r.block]
      · rw [r.link_parent]
        cases hq : nd.parent with
        | none => rfl
        | some q =>
          have hqs : t.Stored q := (t.isRooted.step x q (BlockTree.stored_of_node hx)
            ((BlockTree.parent_eq hx).trans hq)).1
          obtain ⟨m, hm⟩ := Option.isSome_iff_exists.1 (R.stored_iff.1 hqs)
          exact hm.trans (hnums_old hm).symm
  · rw [hcounter, BlockTree.grow_stored]
    rw [hnums, Go.getElem?_insert_eq] at hx
    split at hx
    · rename_i e
      cases hx
      exact ⟨.inl e, Nat.succ_pos _, Nat.le_refl _⟩
    · obtain ⟨h1, h2, h3⟩ := R.num_stored x n hx
      exact ⟨.inr h1, h2, by omega⟩
  · rw [hcounter] at hle
    rcases Nat.lt_or_eq_of_le hle with hlt | rfl
    · obtain ⟨x, hx⟩ := R.numbered n h0 (by omega)
      exact ⟨x, hnums_old hx⟩
    · exact ⟨id, by rw [hnums, Go.getElem?_insert_eq, if_pos rfl]⟩
  · rw [hblocks, Go.getElem?_insert_eq] at hb'
    rw [hcounter]
    split at hb'
    · omega
    · have := R.block_le n b' hb'; omega
  · rw [hlinks, Go.getElem?_insert_eq] at hk
    rw [hcounter]
    split at hk
    · omega
    · have := R.link_le n k hk; omega
  · exact hnums_old R.root_num
  · by_cases hxid : x = id
    · subst hxid
      rw [BlockTree.height_eq BlockTree.grow_node_self]
      show t.height p + 1 < 2 ^ 32
      omega
    · have : (t.grow id origin p hid hp ho hon).height x = t.height x := by
        show heightIn (t.grownNode id origin p) x = _
        rw [BlockTree.heightIn_grown_of_ne t id origin p hxid]
      rw [this]
      exact R.height_lt x
  · rw [hlinks, Go.getElem?_insert_eq] at hk
    split at hk
    · rename_i e
      cases hk
      rw [e]
      exact hskips_new
    · exact (R.skips n k hk).congr (R.up_old hlink_new hlinks (Storage.hasLink_of hk))

theorem updateLeash (R : Refines gw s t) (addr : Addr) (id : BlockID) : Refines gw (s.updateLeash addr id) t :=
  ⟨fun x nd hx =>
    let ⟨n, b, k, r⟩ := R.recorded x nd hx
    ⟨n, b, k, r.num, r.block, r.link, r.block_id, r.block_height, r.block_parent, r.link_id, r.link_height,
      r.link_parent, r.score_nonneg, r.generator⟩,
    R.num_stored, R.numbered, R.block_le, R.link_le, R.root_num, R.height_lt, R.skips⟩

end Refines

namespace Refines
variable {gw : Gowaves} {l l' : Linkage} {t : BlockTree BlockID}

/-- **What a put block can do**: move a leash to a stored block, or insert the block on its parent. -/
theorem putBlock_cases (R : Refines gw l.st t) {b : Proto.Block} {addr : Addr} (h : l.putBlock gw b addr = .ok l') :
    (t.Stored b.blockID ∧ l' = l.moveLeash b.blockID addr ∧ t.addKeyBlock b.blockID b.parent = t) ∨
    ∃ s' ext pb nb parents,
      ∃ G : Growth gw l.st s' t b.blockID b.parent b.parent (.keyBlock b.parent) ext nb parents,
        l.st.blocks[ext]? = some pb ∧ newBlock gw l.st.scheme b ((pb.height + 1) % 2 ^ 32) (some pb.score) = .ok nb ∧
        l' = (⟨l.genesis, s'⟩ : Linkage).moveLeash b.blockID addr ∧ t.addKeyBlock b.blockID b.parent = G.tree := by
  rcases Linkage.putBlock_eq_ok h with ⟨hs, rfl⟩ | ⟨hn, -, st, hst, rfl⟩
  · have hs := R.stored_iff.2 hs
    exact .inl ⟨hs, rfl, BlockTree.addKeyBlock_of_stored hs⟩
  · obtain ⟨pn, pb, nb, parents, hpn, hpb, hnb, I⟩ := Storage.putProtoBlock_eq_ok hst
    obtain ⟨ga, score, hga, hscore, rfl⟩ := newBlock_eq_ok hnb
    have hp := (R.num_stored b.parent pn hpn).1
    obtain ⟨nd, pb', k, hnd, r⟩ := R.of_num hpn
    obtain rfl : pb' = pb := Option.some.inj (r.block.symm.trans hpb)
    have hh : pb'.height = t.height b.parent := by rw [r.block_height, BlockTree.height_eq hnd]
    have hlt := R.height_lt b.parent
    have hne := I.height_ne_zero
    have hmod : (pb'.height + 1) % 2 ^ 32 = t.height b.parent + 1 := by
      simp only at hne
      omega
    have hid := R.node_eq_none hn
    exact .inr ⟨st, pn, pb', _, parents, ⟨hid, hp, rfl, rfl, hp, hpn, I, rfl, hmod, rfl,
      Nat.mod_lt _ (Nat.two_pow_pos 32), Int.add_nonneg (calculateScore_nonneg hscore) r.score_nonneg,
      ⟨b.generatorPublicKey, ga, hga, rfl⟩⟩, hpb, hnb, rfl, BlockTree.addKeyBlock_eq hid hp⟩

/-- **What a put micro-block can do**: move a leash to a stored block, or insert a copy of the block it references. -/
theorem putMicroBlock_cases (R : Refines gw l.st t) {inv : MicroBlockInv} {addr : Addr}
    (h : l.putMicroBlock inv addr = .ok l') :
    (t.Stored inv.totalBlockID ∧ l' = l.moveLeash inv.totalBlockID addr ∧
      t.addMicroBlock inv.totalBlockID inv.reference = t) ∨
    ∃ s' p ext rb parents,
      ∃ G : Growth gw l.st s' t inv.totalBlockID p inv.reference (.microBlock inv.reference) ext
        { rb with id := inv.totalBlockID.bytes } parents,
        l.st.blocks[ext]? = some rb ∧ t.parent inv.reference = some p ∧
        l' = (⟨l.genesis, s'⟩ : Linkage).moveLeash inv.totalBlockID addr ∧
        t.addMicroBlock inv.totalBlockID inv.reference = G.tree := by
  rcases Linkage.putMicroBlock_eq_ok h with ⟨hs, rfl⟩ | ⟨hn, -, st, hst, rfl⟩
  · have hs := R.stored_iff.2 hs
    exact .inl ⟨hs, rfl, BlockTree.addMicroBlock_of_stored hs⟩
  · obtain ⟨rn, rb, p, parents, hrn, hrb, hpid, I⟩ := Storage.putMicroBlock_eq_ok hst
    have hr := (R.num_stored inv.reference rn hrn).1
    obtain ⟨nd, rb', k, hnd, r⟩ := R.of_num hrn
    obtain rfl : rb' = rb := Option.some.inj (r.block.symm.trans hrb)
    have hpar : t.parent inv.reference = some p := by
      rw [BlockTree.parent_eq hnd]
      rw [r.block_parent] at hpid
      cases hq : nd.parent with
      | none => rw [hq] at hpid; cases hpid
      | some q =>
        rw [hq] at hpid
        simp only [Option.elim_some, Proto.newBlockIDFromBytes_bytes, Except.ok.injEq] at hpid
        rw [hpid]
    obtain ⟨hp, hh⟩ := t.isRooted.step inv.reference p hr hpar
    have hid := R.node_eq_none hn
    have hrh : rb'.height = t.height inv.reference := by rw [r.block_height, BlockTree.height_eq hnd]
    have hrp : rb'.parent = p.bytes := by
      rw [r.block_parent, ← BlockTree.parent_eq hnd, hpar]; rfl
    exact .inr ⟨st, p, rn, rb', parents, ⟨hid, hp, hpar, rfl, hr, hrn, I, rfl, hrh.trans hh, hrp, by
      show rb'.height < 2 ^ 32
      rw [hrh]; exact R.height_lt _, r.score_nonneg, r.generator⟩, hrb, hpar, rfl,
      BlockTree.addMicroBlock_eq hid hpar⟩

end Refines

/-! ## Every reachable state -/

/-- **A linkage and the tree it stands for.** -/
structure Mirrors (gw : Gowaves) (l : Linkage) (t : BlockTree BlockID) : Prop where
  refines : Refines gw l.st t
  leashes : LeashesStored l.st t
  genesis_eq : l.genesis = t.root

theorem mirrors_start {gw : Gowaves} {scheme : Proto.Scheme} {genesis : Proto.Block} {l : Linkage}
    (h : newLinkage gw scheme genesis = .ok l) : Mirrors gw l (.single genesis.blockID) := by
  obtain ⟨ga, score, hga, hscore, rfl⟩ := newLinkage_eq_ok h
  have hone : ∀ {n : Nat} {v w : Link}, ((∅ : ExtTreeMap Nat Link).insert 1 v)[n]? = some w → n = 1 ∧ w = v := by
    intro n v w hn
    rw [Go.getElem?_insert_eq] at hn
    split at hn
    · rename_i e
      cases hn
      exact ⟨e, rfl⟩
    · simp at hn
  refine ⟨⟨fun id nd hid => ?_, fun id n hn => ?_, fun n h0 hle => ?_, fun n b hb => ?_, fun n k hk => ?_, ?_,
    fun id => ?_, fun n k hk => ?_⟩, fun key id hk => by simp at hk, rfl⟩
  · simp only [BlockTree.single] at hid
    split at hid
    · rename_i e
      cases hid
      refine ⟨1, ⟨1, genesis.timestamp, score, genesis.blockID.bytes, [], ga.bytes⟩, ⟨1, id.bytes, []⟩, ?_, ?_, ?_, ?_,
        rfl, rfl, rfl, rfl, rfl, calculateScore_nonneg hscore, ⟨genesis.generatorPublicKey, ga, hga, rfl⟩⟩
      · rw [e, Go.getElem?_insert_eq, if_pos rfl]
      · rw [Go.getElem?_insert_eq, if_pos rfl]
      · rw [e, Go.getElem?_insert_eq, if_pos rfl]
      · rw [e]
    · cases hid
  · rw [Go.getElem?_insert_eq] at hn
    split at hn
    · rename_i e
      cases hn
      refine ⟨?_, Nat.one_pos, Nat.le_refl _⟩
      simp [BlockTree.Stored, BlockTree.single, e]
    · simp at hn
  · have h1 : n = 1 := Nat.le_antisymm hle h0
    exact ⟨genesis.blockID, by rw [h1, Go.getElem?_insert_eq, if_pos rfl]⟩
  · rw [Go.getElem?_insert_eq] at hb
    split at hb
    · rename_i e
      rw [e]
      exact ⟨Nat.one_pos, Nat.le_refl _⟩
    · simp at hb
  · rw [(hone hk).1]
    exact ⟨Nat.one_pos, Nat.le_refl _⟩
  · exact by rw [BlockTree.single, Go.getElem?_insert_eq, if_pos rfl]
  · simp only [BlockTree.height, heightIn, BlockTree.single]
    split <;> simp
  · obtain ⟨rfl, rfl⟩ := hone hk
    exact ⟨by simp, fun i hi => absurd hi (Nat.not_lt_zero i)⟩

namespace Mirrors
variable {gw : Gowaves} {l l' : Linkage} {t : BlockTree BlockID}

theorem moveLeash (M : Mirrors gw l t) {id : BlockID} (addr : Addr) (hid : t.Stored id) :
    Mirrors gw (l.moveLeash id addr) t := by
  refine ⟨M.refines.updateLeash addr id, fun key x hx => ?_, M.genesis_eq⟩
  change (l.st.leashRecords.insert (addrKeyBytes addr) id)[key]? = some x at hx
  rw [Go.getElem?_insert_eq] at hx
  split at hx
  · rename_i e
    cases hx
    exact ⟨hid, addr, e⟩
  · exact M.leashes key x hx

theorem growth (M : Mirrors gw l t) {s' : Storage} {id p e : BlockID} {origin : Origin BlockID} {ext : Nat}
    {b : StoredBlock} {parents : List Nat} (G : Growth gw l.st s' t id p e origin ext b parents) :
    Mirrors gw ⟨l.genesis, s'⟩ G.tree := by
  refine ⟨M.refines.growth G, fun key x hx => ?_, M.genesis_eq⟩
  change s'.leashRecords[key]? = some x at hx
  rw [G.inserted.fields.2.2.2.2.2] at hx
  obtain ⟨h1, h2⟩ := M.leashes key x hx
  exact ⟨BlockTree.grow_stored.2 (.inr h1), h2⟩

/-- **What a call can do**: move a leash to a stored block, or insert a block and move a leash to it. -/
theorem call_cases (M : Mirrors gw l t) {c : Call} (h : l.call gw c = .ok l') :
    (∃ id addr, t.Stored id ∧ l' = l.moveLeash id addr ∧ t.call c = t) ∨
    ∃ s' id p e origin ext b parents addr, ∃ G : Growth gw l.st s' t id p e origin ext b parents,
      l' = (⟨l.genesis, s'⟩ : Linkage).moveLeash id addr ∧ t.call c = G.tree := by
  cases c with
  | putBlock b addr =>
    rcases M.refines.putBlock_cases h with ⟨hs, hl, ht⟩ | ⟨s', ext, pb, nb, parents, G, -, -, hl, ht⟩
    · exact .inl ⟨b.blockID, addr, hs, hl, ht⟩
    · exact .inr ⟨s', _, _, _, _, ext, nb, parents, addr, G, hl, ht⟩
  | putMicroBlock inv addr =>
    rcases M.refines.putMicroBlock_cases h with ⟨hs, hl, ht⟩ | ⟨s', p, ext, rb, parents, G, -, -, hl, ht⟩
    · exact .inl ⟨inv.totalBlockID, addr, hs, hl, ht⟩
    · exact .inr ⟨s', _, p, _, _, ext, _, parents, addr, G, hl, ht⟩
  | moveLeash id addr =>
    obtain ⟨ok, hok, h⟩ := Go.bind_eq_ok.1 h
    split at h
    · rename_i hs
      cases h
      exact .inl ⟨id, addr, M.refines.hasBlock_iff.1 (by rw [← hs]; exact hok), rfl, rfl⟩
    · cases h

theorem call (M : Mirrors gw l t) {c : Call} (h : l.call gw c = .ok l') : Mirrors gw l' (t.call c) := by
  rcases M.call_cases h with ⟨id, addr, hid, rfl, ht⟩ | ⟨s', id, p, e, origin, ext, b, parents, addr, G, rfl, ht⟩
  · rw [ht]
    exact M.moveLeash addr hid
  · rw [ht]
    exact (M.growth G).moveLeash addr (BlockTree.grow_stored.2 (.inl rfl))

end Mirrors

/-- **Every reachable linkage stands for the tree of its accepted calls.** -/
theorem Reachable.mirrors {gw : Gowaves} {scheme : Proto.Scheme} {genesis : Proto.Block} {l : Linkage}
    {t : BlockTree BlockID} (h : Reachable gw scheme genesis l t) : Mirrors gw l t := by
  induction h with
  | start h => exact mirrors_start h
  | call c _ hc ih => exact ih.call hc

end Chains
end ForkDetector
