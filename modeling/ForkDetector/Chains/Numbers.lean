import ForkDetector.Chains.Heads
/-!
# Numbers — the records of a block under one number

The calls that write, each with the state it leaves: a call that fails leaves the database as it was, and a leash may
be moved to any ID.  Whatever the calls, a block has one number, a block record and a link record under it that agree,
and a parent with a smaller number (`run_numbered`).
-/
namespace ForkDetector
namespace Chains

open Ancestry Lifting
open Proto (BlockID Gowaves MicroBlockInv)

/-! ## Calls and the states they leave -/

namespace Linkage

/-- A call, a leash moved with no check of the block. -/
def exec (gw : Gowaves) (l : Linkage) : Call → Res Linkage
  | .putBlock b addr => l.putBlock gw b addr
  | .putMicroBlock inv addr => l.putMicroBlock inv addr
  | .moveLeash id addr => .ok (l.moveLeash id addr)

/-- The linkage that a call leaves, whether it returns, fails or panics. -/
def left (gw : Gowaves) (l : Linkage) (c : Call) : Linkage :=
  match l.exec gw c with
  | .ok l' => l'
  | .error _ => l

def run (gw : Gowaves) (l : Linkage) (calls : List Call) : Linkage := calls.foldl (left gw) l

theorem left_of_ok {gw : Gowaves} {l l' : Linkage} {c : Call} (h : l.exec gw c = .ok l') : l.left gw c = l' := by
  unfold left; rw [h]

/-- A guarded call that returns is the bare call. -/
theorem exec_of_call {gw : Gowaves} {l l' : Linkage} {c : Call} (h : l.call gw c = .ok l') : l.exec gw c = .ok l' := by
  cases c with
  | putBlock b addr => exact h
  | putMicroBlock inv addr => exact h
  | moveLeash id addr =>
    obtain ⟨ok, -, h⟩ := Go.bind_eq_ok.1 h
    cases ok with
    | true => exact h
    | false => cases h

end Linkage

namespace Storage

def Ordered (s : Storage) : Prop := ∀ n p, s.numParent n = some p → p < n

theorem collectParents_head {s : Storage} {k i pn q : Nat} {ps : List Nat} (h : s.collectParents k i pn = .ok ps)
    (hq : ps[0]? = some q) : q = pn := by
  cases k with
  | zero => cases h; cases hq
  | succ k =>
    obtain ⟨pl, -, h⟩ := Go.bind_eq_ok.1 h
    obtain ⟨rest, -, h⟩ := Go.bind_eq_ok.1 h
    cases h
    exact (Option.some.inj hq).symm

end Storage

/-- **A linkage that stands for a tree**, wherever its leashes point. -/
structure Stands (gw : Gowaves) (l : Linkage) (t : BlockTree BlockID) : Prop where
  refines : Refines gw l.st t
  heads : HeadsInv l.st t
  ordered : l.st.Ordered
  genesis_eq : l.genesis = t.root

/-- **What stays**: the blocks of the tree, their numbers and their records. -/
structure Kept (l l' : Linkage) (t t' : BlockTree BlockID) : Prop where
  node : ∀ x, t.Stored x → t'.node x = t.node x
  num : ∀ (x : BlockID) (n : Nat), l.st.nums[x]? = some n → l'.st.nums[x]? = some n
  block : ∀ (n : Nat) (b : StoredBlock), l.st.blocks[n]? = some b → l'.st.blocks[n]? = some b
  scheme : l'.st.scheme = l.st.scheme
  root : t'.root = t.root

theorem Kept.refl (l : Linkage) (t : BlockTree BlockID) : Kept l l t t :=
  ⟨fun _ _ => rfl, fun _ _ h => h, fun _ _ h => h, rfl, rfl⟩

theorem Kept.moveLeash (l : Linkage) (t : BlockTree BlockID) (id : BlockID) (addr : Addr) :
    Kept l (l.moveLeash id addr) t t := ⟨fun _ _ => rfl, fun _ _ h => h, fun _ _ h => h, rfl, rfl⟩

theorem Kept.stored {l l' : Linkage} {t t' : BlockTree BlockID} (K : Kept l l' t t') {x : BlockID} (h : t.Stored x) :
    t'.Stored x := by
  unfold BlockTree.Stored
  rw [K.node x h]
  exact h

theorem Kept.trans {l l' l'' : Linkage} {t t' t'' : BlockTree BlockID} (K : Kept l l' t t') (K' : Kept l' l'' t' t'') :
    Kept l l'' t t'' :=
  ⟨fun x hx => (K'.node x (K.stored hx)).trans (K.node x hx), fun x n h => K'.num x n (K.num x n h),
    fun n b h => K'.block n b (K.block n b h), K'.scheme.trans K.scheme, K'.root.trans K.root⟩

namespace Stands
variable {gw : Gowaves} {l : Linkage} {t : BlockTree BlockID} (S : Stands gw l t)
include S

theorem moveLeash (id : BlockID) (addr : Addr) : Stands gw (l.moveLeash id addr) t :=
  ⟨S.refines.updateLeash addr id, ⟨S.heads.inverse, S.heads.numbered, S.heads.leaves⟩, S.ordered, S.genesis_eq⟩

theorem growth {s' : Storage} {id p e : BlockID} {origin : Origin BlockID} {ext : Nat} {b : StoredBlock}
    {parents : List Nat} (G : Growth gw l.st s' t id p e origin ext b parents) :
    Stands gw ⟨l.genesis, s'⟩ G.tree ∧ Kept l ⟨l.genesis, s'⟩ t G.tree := by
  obtain ⟨hscheme, hcounter, hnums, hblocks, hlinks, -⟩ := G.inserted.fields
  obtain ⟨pn, hpn, hcollect⟩ := G.inserted.collected
  refine ⟨⟨S.refines.growth G, (S.heads.growth S.refines G).1, fun n p hp => ?_, S.genesis_eq⟩,
    fun x hx => BlockTree.grow_node_stored hx, fun x n hx => ?_, fun n b hb => ?_, hscheme, rfl⟩
  · by_cases hn : n = l.st.blocksCounter + 1
    · -- the parent was stored before, so that its number is at most the counter
      have hlink : s'.links[n]? = some ⟨b.height, id.bytes, parents⟩ := by
        rw [hlinks, Go.getElem?_insert_eq, if_pos hn]
      rw [Storage.numParent_eq hlink] at hp
      have := (S.refines.num_stored _ _ hpn).2.2
      rw [Storage.collectParents_head hcollect hp, hn]
      omega
    · refine S.ordered n p ?_
      rw [← hp]
      unfold Storage.numParent
      rw [hlinks, Go.getElem?_insert_eq, if_neg hn]
  · show s'.nums[x]? = some n
    have hne : x ≠ id := fun h => by
      have := (S.refines.num_stored x n hx).1
      rw [h, BlockTree.Stored, G.new] at this
      cases this
    rw [hnums, Go.getElem?_insert_eq, if_neg hne, hx]
  · show s'.blocks[n]? = some b
    have := (S.refines.block_le n b hb).2
    rw [hblocks, Go.getElem?_insert_eq, if_neg (by omega), hb]

/-- **What any call leaves** stands for the same tree, or for one grown by a block, and keeps what was there. -/
theorem exec {l' : Linkage} {c : Call} (h : l.exec gw c = .ok l') :
    Stands gw l' (t.call c) ∧ Kept l l' t (t.call c) := by
  have hgrown : ∀ {s' id p e origin ext b parents addr}, (G : Growth gw l.st s' t id p e origin ext b parents) →
      l' = (⟨l.genesis, s'⟩ : Linkage).moveLeash id addr → Stands gw l' G.tree ∧ Kept l l' t G.tree := by
    rintro s' id p e origin ext b parents addr G rfl
    obtain ⟨S', K⟩ := S.growth G
    exact ⟨S'.moveLeash id addr, K.node, K.num, K.block, K.scheme, K.root⟩
  cases c with
  | putBlock b addr =>
    show Stands gw l' (t.addKeyBlock b.blockID b.parent) ∧ Kept l l' t (t.addKeyBlock b.blockID b.parent)
    rcases S.refines.putBlock_cases h with ⟨-, rfl, ht⟩ | ⟨s', ext, pb, nb, parents, G, -, -, hl, ht⟩
    · rw [ht]
      exact ⟨S.moveLeash _ _, .moveLeash l t _ _⟩
    · rw [ht]
      exact hgrown G hl
  | putMicroBlock inv addr =>
    show Stands gw l' (t.addMicroBlock inv.totalBlockID inv.reference) ∧
      Kept l l' t (t.addMicroBlock inv.totalBlockID inv.reference)
    rcases S.refines.putMicroBlock_cases h with ⟨-, rfl, ht⟩ | ⟨s', p, ext, rb, parents, G, -, -, hl, ht⟩
    · rw [ht]
      exact ⟨S.moveLeash _ _, .moveLeash l t _ _⟩
    · rw [ht]
      exact hgrown G hl
  | moveLeash id addr =>
    cases h
    exact ⟨S.moveLeash id addr, .moveLeash l t id addr⟩

theorem left (c : Call) : ∃ t', Stands gw (l.left gw c) t' ∧ Kept l (l.left gw c) t t' := by
  unfold Linkage.left
  cases h : l.exec gw c with
  | ok l' => exact ⟨_, S.exec h⟩
  | error f => exact ⟨t, S, .refl l t⟩

end Stands

/-- **What any calls leave.** -/
theorem Stands.run {gw : Gowaves} : ∀ (calls : List Call) {l : Linkage} {t : BlockTree BlockID}, Stands gw l t →
    ∃ t', Stands gw (l.run gw calls) t' ∧ Kept l (l.run gw calls) t t'
  | [], l, t, S => ⟨t, S, .refl l t⟩
  | c :: calls, l, t, S => by
    obtain ⟨t1, S1, K1⟩ := S.left c
    obtain ⟨t2, S2, K2⟩ := Stands.run calls S1
    exact ⟨t2, S2, K1.trans K2⟩

theorem stands_start {gw : Gowaves} {scheme : Proto.Scheme} {genesis : Proto.Block} {l : Linkage}
    (h : newLinkage gw scheme genesis = .ok l) : Stands gw l (.single genesis.blockID) := by
  have M := mirrors_start h
  refine ⟨M.refines, headsInv_start h, fun n p hp => ?_, M.genesis_eq⟩
  obtain ⟨ga, score, -, -, rfl⟩ := newLinkage_eq_ok h
  unfold Storage.numParent at hp
  rw [Go.getElem?_insert_eq] at hp
  by_cases hn : n = 1 <;> simp [hn] at hp

theorem Reachable.stands {gw : Gowaves} {scheme : Proto.Scheme} {genesis : Proto.Block} {l : Linkage}
    {t : BlockTree BlockID} (h : Reachable gw scheme genesis l t) : Stands gw l t := by
  refine ⟨h.mirrors.refines, h.headsInv, ?_, h.mirrors.genesis_eq⟩
  induction h with
  | start h => exact (stands_start h).ordered
  | call c hr hc ih =>
    have S : Stands gw _ _ := ⟨hr.mirrors.refines, hr.headsInv, ih, hr.mirrors.genesis_eq⟩
    obtain ⟨S', -⟩ := S.exec (Linkage.exec_of_call hc)
    exact S'.ordered

theorem Reachable.genesis_eq {gw : Gowaves} {scheme : Proto.Scheme} {genesis : Proto.Block} {l : Linkage}
    {t : BlockTree BlockID} (h : Reachable gw scheme genesis l t) : l.genesis = genesis.blockID := by
  induction h with
  | start h => exact (mirrors_start h).genesis_eq
  | call c hr hc ih =>
    obtain ⟨S', K⟩ := hr.stands.exec (Linkage.exec_of_call hc)
    rw [← ih, S'.genesis_eq, K.root, hr.stands.genesis_eq]

/-! ## One number for each block -/

/-- The block record and the link record of a number agree, on the block, its height and its parent. -/
structure RecordsAgree (s : Storage) (id : BlockID) (n : Nat) (b : StoredBlock) (k : Link) : Prop where
  block : s.blocks[n]? = some b
  link : s.links[n]? = some k
  block_id : b.id = id.bytes
  link_id : k.blockID = id.bytes
  height : b.height = k.height
  no_parent : b.parent = [] ↔ k.parents = []
  parent : b.parent ≠ [] → ∃ (p : BlockID) (m : Nat), b.parent = p.bytes ∧ s.nums[p]? = some m ∧
    k.parents[0]? = some m ∧ m < n

/-- **The numbers of the blocks**: those from one to the counter, each with the records of one block, in a tree rooted
at the genesis block. -/
structure Numbered (s : Storage) (genesis : BlockID) : Prop where
  index_inj : ∀ (x y : BlockID) (n : Nat), s.nums[x]? = some n → s.nums[y]? = some n → x = y
  index_range : ∀ n : Nat, (∃ x : BlockID, s.nums[x]? = some n) ↔ 0 < n ∧ n ≤ s.blocksCounter
  records : ∀ (x : BlockID) (n : Nat), s.nums[x]? = some n → ∃ b k, RecordsAgree s x n b k
  no_other : ∀ n : Nat, s.blocks[n]?.isSome = true ∨ s.links[n]?.isSome = true → 0 < n ∧ n ≤ s.blocksCounter
  genesis_num : s.nums[genesis]? = some 1
  root : ∀ n : Nat, 0 < n → n ≤ s.blocksCounter → (s.numParent n = none ↔ n = 1)
  rooted : ∀ n : Nat, 0 < n → n ≤ s.blocksCounter → Anc s.numParent 1 n

theorem Refines.recordsAgree {gw : Gowaves} {s : Storage} {t : BlockTree BlockID} (R : Refines gw s t)
    (hord : s.Ordered) {x : BlockID} {n : Nat} (hx : s.nums[x]? = some n) : ∃ b k, RecordsAgree s x n b k := by
  obtain ⟨nd, b, k, hnd, r⟩ := R.of_num hx
  have hparent : b.parent = [] ↔ nd.parent = none := by
    rw [r.block_parent]
    cases nd.parent with
    | none => simp
    | some p => simp [p.bytes_ne_nil]
  have hsome : ∀ p, nd.parent = some p → ∃ m : Nat, s.nums[p]? = some m ∧ k.parents[0]? = some m := by
    intro p hp
    have hps := (t.isRooted.step x p (BlockTree.stored_of_node hnd) ((BlockTree.parent_eq hnd).trans hp)).1
    obtain ⟨m, hm⟩ := Option.isSome_iff_exists.1 (R.stored_iff.1 hps)
    exact ⟨m, hm, by rw [r.link_parent, hp]; exact hm⟩
  refine ⟨b, k, r.block, r.link, r.block_id, r.link_id, r.block_height.trans r.link_height.symm, ?_, fun hb => ?_⟩
  · rw [hparent]
    constructor
    · intro hnone
      have := r.link_parent
      rw [hnone, Option.bind_none, List.getElem?_eq_none_iff] at this
      exact List.length_eq_zero_iff.1 (Nat.le_zero.1 this)
    · intro hnil
      cases hp : nd.parent with
      | none => rfl
      | some p =>
        obtain ⟨m, -, hm⟩ := hsome p hp
        rw [hnil] at hm
        cases hm
  · obtain ⟨p, hp⟩ := Option.ne_none_iff_exists'.1 (fun h => hb (hparent.2 h))
    obtain ⟨m, hm, hk⟩ := hsome p hp
    refine ⟨p, m, by rw [r.block_parent, hp]; rfl, hm, hk, hord n m ?_⟩
    rw [Storage.numParent_eq r.link, hk]

theorem Stands.numbered {gw : Gowaves} {l : Linkage} {t : BlockTree BlockID} (S : Stands gw l t) :
    Numbered l.st l.genesis := by
  have R := S.refines
  have hlink : ∀ n, 0 < n → n ≤ l.st.blocksCounter → l.st.HasLink n := fun n h0 hle => by
    obtain ⟨x, hx⟩ := R.numbered n h0 hle
    exact R.hasLink hx
  refine ⟨fun x y n hx hy => R.num_inj hx hy, fun n => ⟨?_, fun h => R.numbered n h.1 h.2⟩,
    fun x n hx => R.recordsAgree S.ordered hx, fun n h => ?_, S.genesis_eq ▸ R.root_num,
    fun n h0 hle => R.rooted.parent_eq_none n (hlink n h0 hle), fun n h0 hle => R.rooted.anc_root (hlink n h0 hle)⟩
  · rintro ⟨x, hx⟩
    exact (R.num_stored x n hx).2
  · rcases h with h | h
    · obtain ⟨b, hb⟩ := Option.isSome_iff_exists.1 h
      exact R.block_le n b hb
    · obtain ⟨k, hk⟩ := Option.isSome_iff_exists.1 h
      exact R.link_le n k hk

/-- **The numbers after any calls** on a fresh database, accepted, repeated or rejected.  The counter has no bound
here; the database keeps it in 64 bits, and holds this storage while it is less than `2^64 - 1`
(`Linkage.run_represents`). -/
theorem run_numbered {gw : Gowaves} {scheme : Proto.Scheme} {genesis : Proto.Block} {l : Linkage}
    (h : newLinkage gw scheme genesis = .ok l) (calls : List Call) :
    Numbered (l.run gw calls).st genesis.blockID := by
  obtain ⟨t, S, K⟩ := (stands_start h).run calls
  have hg : (l.run gw calls).genesis = genesis.blockID := S.genesis_eq.trans K.root
  exact hg ▸ S.numbered

/-- A block, the same block again, a block with no parent stored, and a micro-block. -/
theorem run_numbered_sample : ∃ l, newLinkage Sample.gowaves 87 (Sample.block 1 0) = .ok l ∧
    Numbered (l.run Sample.gowaves [Sample.key 2 1, Sample.key 2 1, Sample.key 5 9, Sample.micro 3 2]).st
      (Sample.block 1 0).blockID := by
  obtain ⟨l, h⟩ := Go.exists_of_isOk (x := newLinkage Sample.gowaves 87 (Sample.block 1 0)) (by decide +kernel)
  exact ⟨l, h, run_numbered h _⟩

end Chains
end ForkDetector
