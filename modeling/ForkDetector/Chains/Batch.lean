import ForkDetector.Chains.Reads
/-!
# Batch — a chain of blocks on top of a stored one

Blocks that stand one on the other can be put in any order, each as soon as its parent is there.  However they came in,
a tree that has them all has them at consecutive heights.
-/
namespace ForkDetector
namespace Chains

open Ancestry
open Proto (BlockID Gowaves MicroBlockInv)

/-- Each block stands on the one before it, the first on `p`. -/
def Chained : BlockID → List Proto.Block → Prop
  | _, [] => True
  | p, b :: bs => b.parent = p ∧ Chained b.blockID bs

/-- Blocks with different IDs, each on the one before it. -/
structure Batch where
  parent : BlockID
  blocks : List Proto.Block
  nonempty : blocks ≠ []
  chained : Chained parent blocks
  distinct : (blocks.map Proto.Block.blockID).Nodup

namespace Batch

def ids (q : Batch) : List BlockID := q.blocks.map Proto.Block.blockID

def last (q : Batch) : BlockID := (q.blocks.getLast q.nonempty).blockID

theorem eq_of_blockID {q : Batch} {a b : Proto.Block} (ha : a ∈ q.blocks) (hb : b ∈ q.blocks)
    (h : a.blockID = b.blockID) : a = b := List.inj_on_of_nodup_map q.distinct ha hb h

/-- The parent of the batch and its IDs, one after the other. -/
def trail (q : Batch) : List BlockID := q.parent :: q.ids

/-- The ID that the first `n` blocks of the batch lead to. -/
def upTo (q : Batch) (n : Nat) : BlockID := q.trail.getD n q.parent

@[simp] theorem upTo_zero (q : Batch) : q.upTo 0 = q.parent := rfl

theorem length_ids (q : Batch) : q.ids.length = q.blocks.length := List.length_map ..

theorem upTo_succ {q : Batch} {n : Nat} {b : Proto.Block} (h : q.blocks[n]? = some b) : q.upTo (n + 1) = b.blockID := by
  unfold upTo trail
  rw [List.getD_cons_succ, List.getD_eq_getElem?_getD, ids, List.getElem?_map, h]
  rfl

theorem getElem?_trail {q : Batch} {n : Nat} (h : n ≤ q.blocks.length) : q.trail[n]? = some (q.upTo n) := by
  have hlt : n < q.trail.length := by
    rw [trail, List.length_cons, length_ids]
    omega
  rw [upTo, List.getD_eq_getElem?_getD, List.getElem?_eq_getElem hlt]
  rfl

theorem upTo_length (q : Batch) : q.upTo q.blocks.length = q.last := by
  have hpos := List.length_pos_of_ne_nil q.nonempty
  have hlast : q.blocks[q.blocks.length - 1]? = some (q.blocks.getLast q.nonempty) := by
    rw [← List.getLast?_eq_getElem?, List.getLast?_eq_getLast_of_ne_nil q.nonempty]
  have h := upTo_succ hlast
  rwa [Nat.sub_add_cancel hpos] at h

end Batch

theorem Chained.take : ∀ {bs : List Proto.Block} {p : BlockID} (n : Nat), Chained p bs → Chained p (bs.take n)
  | [], _, n, _ => by rw [List.take_nil]; trivial
  | _ :: _, _, 0, _ => trivial
  | _ :: _, _, n + 1, h => ⟨h.1, h.2.take n⟩

theorem Chained.drop : ∀ {bs : List Proto.Block} {p d : BlockID} (n : Nat), Chained p bs → n ≤ bs.length →
    Chained ((p :: bs.map Proto.Block.blockID).getD n d) (bs.drop n)
  | _, _, _, 0, h, _ => h
  | b :: bs, p, d, n + 1, h, hn => by
    rw [List.drop_succ_cons, List.getD_cons_succ, List.map_cons]
    exact h.2.drop n (Nat.le_of_succ_le_succ hn)

theorem Chained.getElem? : ∀ {bs : List Proto.Block} {p d : BlockID} {n : Nat} {b : Proto.Block}, Chained p bs →
    bs[n]? = some b → b.parent = (p :: bs.map Proto.Block.blockID).getD n d
  | c :: bs, p, d, 0, b, h, hb => by
    obtain rfl : c = b := by simpa using hb
    exact h.1
  | c :: bs, p, d, n + 1, b, h, hb => by
    rw [List.getD_cons_succ, List.map_cons]
    exact h.2.getElem? (by simpa using hb)

/-- The block came in with the parent that it names, if it did. -/
def PlacedAs (t : BlockTree BlockID) (b : Proto.Block) : Prop :=
  t.Stored b.blockID → t.parent b.blockID = some b.parent

/-! ## The tree -/

namespace BlockTree
variable {t : BlockTree BlockID} {c : Call} {x : BlockID}

theorem call_node (h : t.Stored x) : (t.call c).node x = t.node x := by
  cases c with
  | putBlock b addr =>
    show (t.addKeyBlock b.blockID b.parent).node x = _
    unfold addKeyBlock
    split
    · exact grow_node_stored h
    · rfl
  | putMicroBlock inv addr =>
    show (t.addMicroBlock inv.totalBlockID inv.reference).node x = _
    unfold addMicroBlock
    split
    · rfl
    · split
      · exact grow_node_stored h
      · rfl
  | moveLeash id addr => rfl

theorem call_stored (h : (t.call c).Stored x) : x = c.id ∨ t.Stored x := by
  cases c with
  | putBlock b addr =>
    change (t.addKeyBlock b.blockID b.parent).Stored x at h
    unfold addKeyBlock at h
    split at h
    · exact grow_stored.1 h
    · exact .inr h
  | putMicroBlock inv addr =>
    change (t.addMicroBlock inv.totalBlockID inv.reference).Stored x at h
    unfold addMicroBlock at h
    split at h
    · exact .inr h
    · split at h
      · exact grow_stored.1 h
      · exact .inr h
  | moveLeash id addr => exact .inr h

theorem Stored.call (h : t.Stored x) : (t.call c).Stored x := by
  unfold Stored
  rw [call_node h]
  exact h

theorem call_height (h : t.Stored x) : (t.call c).height x = t.height x := by
  unfold height heightIn
  rw [call_node h]

theorem call_parent (h : t.Stored x) : (t.call c).parent x = t.parent x := by
  unfold parent parentIn
  rw [call_node h]

/-- A block put on a stored parent is there, where it says when it is new. -/
theorem call_putBlock {b : Proto.Block} (addr : Addr) (hp : t.Stored b.parent) :
    (t.call (.putBlock b addr)).Stored b.blockID ∧ (PlacedAs t b → PlacedAs (t.call (.putBlock b addr)) b) := by
  by_cases hs : t.Stored b.blockID
  · exact ⟨hs.call, fun h _ => (call_parent hs).trans (h hs)⟩
  · have hnone : t.node b.blockID = none := by simpa [Stored] using hs
    have hnode : (t.call (.putBlock b addr)).node b.blockID =
        some ⟨.keyBlock b.parent, some b.parent, t.height b.parent + 1⟩ := by
      show (t.addKeyBlock b.blockID b.parent).node b.blockID = _
      rw [addKeyBlock_eq hnone hp]
      exact grow_node_self
    exact ⟨stored_of_node hnode, fun _ _ => parent_eq hnode⟩

end BlockTree

/-- **A call places a block as it names its parent**, unless it brings in another block under its ID. -/
theorem PlacedAs.call {t : BlockTree BlockID} {b : Proto.Block} {c : Call} (h : PlacedAs t b)
    (hc : c.id = b.blockID → ∃ addr, c = .putBlock b addr) : PlacedAs (t.call c) b := by
  by_cases hs : t.Stored b.blockID
  · exact fun _ => (BlockTree.call_parent hs).trans (h hs)
  · intro hs'
    obtain ⟨addr, rfl⟩ := hc ((BlockTree.call_stored hs').resolve_right hs).symm
    by_cases hp : t.Stored b.parent
    · exact (BlockTree.call_putBlock addr hp).2 h hs'
    · have hsame : t.call (.putBlock b addr) = t := dif_neg fun hn => hp hn.2
      rw [hsame] at hs'
      exact absurd hs' hs

/-- **The blocks of a chain have consecutive heights**, as far as they are stored. -/
theorem Chained.parent_height {t : BlockTree BlockID} : ∀ {bs : List Proto.Block} {p : BlockID}, Chained p bs →
    (∀ b ∈ bs, PlacedAs t b) → ∀ i b, bs[i]? = some b → t.Stored b.parent →
    t.Stored p ∧ t.height b.parent = t.height p + i
  | [], _, _, _, _, _, h, _ => by simp at h
  | b :: bs, p, hch, hall, i, b', hi, hs => by
    obtain ⟨rfl, hch⟩ := hch
    obtain ⟨hb, hbs⟩ := List.forall_mem_cons.1 hall
    cases i with
    | zero =>
      obtain rfl : b = b' := by simpa using hi
      exact ⟨hs, rfl⟩
    | succ i =>
      obtain ⟨hsb, hh⟩ := parent_height hch hbs i b' (by simpa using hi) hs
      obtain ⟨hsp, hhb⟩ := t.isRooted.step _ _ hsb (hb hsb)
      exact ⟨hsp, by omega⟩

/-! ## Puts -/

namespace Refines
variable {gw : Gowaves} {l : Linkage} {t : BlockTree BlockID} (R : Refines gw l.st t) {b : Proto.Block} (addr : Addr)
include R

theorem putBlock_orphan (hn : ¬ t.Stored b.blockID) (hp : ¬ t.Stored b.parent) :
    l.putBlock gw b addr = Go.fail (.sentinel .parentNotFound) := by
  unfold Linkage.putBlock
  rw [Storage.hasBlock_eq, Storage.hasBlock_eq, R.nums_eq_none hn, R.nums_eq_none hp]
  rfl

/-- **A block in range on a stored parent is put.** -/
theorem exists_putBlock (hgw : gw.Addresses) (hp : t.Stored b.parent) (hbt : b.baseTarget.toNat ≤ 9223372036854775807)
    (hh : t.height b.parent + 1 < 2 ^ 32) : ∃ l', l.putBlock gw b addr = .ok l' := by
  by_cases hn : t.Stored b.blockID
  · exact ⟨_, R.putBlock_stored hn⟩
  · rcases R.putBlock_outcomes addr hn hp with ⟨e, -, he, -⟩ | ⟨-, -, -, hrange, -⟩ | ⟨-, l', -, -, -, hput⟩
    · obtain ⟨a, ha⟩ := hgw l.st.scheme b.generatorPublicKey
      rw [ha] at he
      cases he
    · exact absurd ⟨hbt, hh⟩ hrange
    · exact ⟨l', hput⟩

theorem putNewLink_noPanic {parentID id : BlockID} {num h : Nat} (h0 : h ≠ 0) :
    Go.NoPanic (l.st.putNewLinkForBlock num id h parentID) := by
  unfold Storage.putNewLinkForBlock Storage.getNumOfBlockID
  cases hpn : l.st.nums[parentID]? with
  | none => exact .fail _
  | some pn =>
    obtain ⟨parents, hps⟩ := R.exists_collectParents (Nat.clog 2 h) 0 (R.hasLink hpn)
    refine .bind (.of_ok rfl) fun pn' hpn' => ?_
    cases hpn'
    refine .bind (.of_ok (if_neg h0)) fun m hm => ?_
    obtain rfl := Except.ok.inj ((if_neg h0).symm.trans hm)
    exact .bind (.of_ok hps) fun _ _ => .of_ok rfl

/-- A micro-block never panics: it takes over the height of a stored block. -/
theorem putMicroBlock_noPanic (inv : MicroBlockInv) : Go.NoPanic (l.putMicroBlock inv addr) := by
  unfold Linkage.putMicroBlock
  rw [Storage.hasBlock_eq, Storage.hasBlock_eq]
  refine .bind (.of_ok rfl) fun ok hok => ?_
  cases hok
  split
  · exact .of_ok rfl
  · refine .bind (.of_ok rfl) fun ok hok => ?_
    cases hok
    split
    · exact .fail _
    · rename_i hr
      have hr' : l.st.nums[inv.reference]?.isSome = true := by simpa using hr
      obtain ⟨rn, hrn⟩ := Option.isSome_iff_exists.1 hr'
      obtain ⟨nd, rb, k, hnd, r⟩ := R.of_num hrn
      have hnum := Storage.getNumOfBlockID_eq_ok.2 hrn
      refine .bind ?_ fun _ _ => .of_ok rfl
      unfold Storage.putMicroBlock
      refine .bind (Go.noPanic_wrap.2 (.of_ok hnum)) fun rn' hrn' => ?_
      obtain rfl : rn = rn' := Except.ok.inj (hnum.symm.trans (Go.wrap_eq_ok.1 hrn'))
      refine .bind (Go.noPanic_wrap.2 (.of_ok (Storage.getBlock_eq_ok.2 r.block))) fun rb' hrb' => ?_
      obtain rfl : rb' = rb := Option.some.inj ((Storage.getBlock_eq_ok.1 (Go.wrap_eq_ok.1 hrb')).symm.trans r.block)
      refine .bind (Go.noPanic_wrap.2 ?_) fun parentID _ => ?_
      · unfold Proto.newBlockIDFromBytes
        split
        · exact .of_ok rfl
        · exact .fail _
      · refine .bind (Go.noPanic_wrap.2 ?_) fun link _ => ?_
        · refine R.putNewLink_noPanic ?_
          rw [r.block_height, ← BlockTree.height_eq hnd]
          exact (t.isRooted.height_pos (BlockTree.stored_of_node hnd)).ne'
        · exact .bind (Go.noPanic_wrap.2 (.of_ok (Storage.putHead_eq _ _ _))) fun _ _ => .of_ok rfl

end Refines

end Chains
end ForkDetector
