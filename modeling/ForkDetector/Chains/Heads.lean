import Mathlib.Logic.Relation
import ForkDetector.Chains.Links
/-!
# Heads — the leaves of the block tree

The two maps of heads and the counter name exactly the leaves: an insertion moves the head of the block it extends when
that block was a leaf, and counts a new head otherwise.
-/
namespace ForkDetector
namespace Chains

open Proto (BlockID Gowaves)

/-- **The heads of a database are the leaves of the tree**, numbered from one without gaps. -/
structure HeadsInv (s : Storage) (t : BlockTree BlockID) : Prop where
  inverse : ∀ h n : Nat, s.headToBlock[h]? = some n ↔ s.blockToHead[n]? = some h
  numbered : ∀ h : Nat, s.headToBlock[h]?.isSome = true ↔ 0 < h ∧ h ≤ s.headsCounter
  leaves : ∀ n : Nat, s.blockToHead[n]?.isSome = true ↔ ∃ id, s.nums[id]? = some n ∧ t.Leaf id

/-- What a head number points to after a call: the block it pointed to, or one that extends it. -/
def HeadsMove (s s' : Storage) (t' : BlockTree BlockID) : Prop :=
  ∀ (h : Nat) (id : BlockID) (n : Nat), s.headToBlock[h]? = some n → s.nums[id]? = some n →
    ∃ (id' : BlockID) (n' : Nat), s'.headToBlock[h]? = some n' ∧ s'.nums[id']? = some n' ∧
      (id' = id ∨ t'.Extends id' id)

/-- The same over a run: the block it points to after the run is reached from the one before by extensions. -/
def HeadsFollow (s s' : Storage) (t' : BlockTree BlockID) : Prop :=
  ∀ (h : Nat) (id : BlockID) (n : Nat), s.headToBlock[h]? = some n → s.nums[id]? = some n →
    ∃ (id' : BlockID) (n' : Nat), s'.headToBlock[h]? = some n' ∧ s'.nums[id']? = some n' ∧
      Relation.ReflTransGen (fun a b => t'.Extends b a) id id'

theorem headsInv_start {gw : Gowaves} {scheme : Proto.Scheme} {genesis : Proto.Block} {l : Linkage}
    (h : newLinkage gw scheme genesis = .ok l) : HeadsInv l.st (.single genesis.blockID) := by
  obtain ⟨ga, score, -, -, rfl⟩ := newLinkage_eq_ok h
  have hleaf : (BlockTree.single genesis.blockID).Leaf genesis.blockID :=
    ⟨BlockTree.isRooted _ |>.root_node, fun v ⟨nd, hnd, he⟩ => by
      simp only [BlockTree.single] at hnd
      split at hnd
      · cases hnd; cases he
      · cases hnd⟩
  refine ⟨fun h n => ?_, fun h => ?_, fun n => ?_⟩
  · simp only [Go.getElem?_insert_eq]
    by_cases h1 : h = 1 <;> by_cases n1 : n = 1 <;> simp [h1, n1, eq_comm]
  · simp only [Go.getElem?_insert_eq]
    by_cases h1 : h = 1
    · simp [h1]
    · simp only [h1, if_false, Std.ExtTreeMap.getElem?_empty, Option.isSome_none, Bool.false_eq_true, false_iff]
      omega
  · simp only [Go.getElem?_insert_eq]
    by_cases n1 : n = 1
    · simp only [n1, if_true, Option.isSome_some, true_iff]
      exact ⟨genesis.blockID, if_pos rfl, hleaf⟩
    · simp only [n1, if_false, Std.ExtTreeMap.getElem?_empty, Option.isSome_none, Bool.false_eq_true, false_iff]
      rintro ⟨id, hid, -⟩
      split at hid
      · cases hid; exact n1 rfl
      · cases hid

namespace HeadsInv
variable {gw : Gowaves} {s s' : Storage} {t : BlockTree BlockID} {id p e : BlockID} {origin : Origin BlockID}
  {ext : Nat} {b : StoredBlock} {parents : List Nat}

theorem of_leaf (H : HeadsInv s t) {x : BlockID} {n : Nat} (hx : s.nums[x]? = some n) (hl : t.Leaf x) :
    ∃ h, s.blockToHead[n]? = some h := Option.isSome_iff_exists.1 ((H.leaves n).2 ⟨x, hx, hl⟩)

theorem fresh (H : HeadsInv s t) (R : Refines gw s t) : s.blockToHead[s.blocksCounter + 1]? = none := by
  cases hh : s.blockToHead[s.blocksCounter + 1]? with
  | none => rfl
  | some h =>
    obtain ⟨x, hx, -⟩ := (H.leaves _).1 (by rw [hh]; rfl)
    have := (R.num_stored x _ hx).2.2
    omega

theorem leaf_grown (R : Refines gw s t) (G : Growth gw s s' t id p e origin ext b parents) (n : Nat) :
    (∃ x, s'.nums[x]? = some n ∧ G.tree.Leaf x) ↔
      n = s.blocksCounter + 1 ∨ (n ≠ ext ∧ ∃ x, s.nums[x]? = some n ∧ t.Leaf x) := by
  obtain ⟨-, -, hnums, -, -, -⟩ := G.inserted.fields
  have hleaf : ∀ x, G.tree.Leaf x ↔ x = id ∨ (t.Leaf x ∧ origin.extended ≠ some x) := fun x => BlockTree.grow_leaf
  have hid : ∀ {x}, t.Leaf x → x ≠ id := fun hx h => by
    subst h
    have := hx.1
    unfold BlockTree.Stored at this
    rw [G.new] at this; cases this
  constructor
  · rintro ⟨x, hx, hl⟩
    rw [hnums, Go.getElem?_insert_eq] at hx
    rcases (hleaf x).1 hl with rfl | ⟨hl, hne⟩
    · rw [if_pos rfl] at hx
      exact .inl (Option.some.inj hx).symm
    · rw [if_neg (hid hl)] at hx
      refine .inr ⟨fun h => hne ?_, x, hx, hl⟩
      rw [G.extended_eq, R.num_inj G.extended_num (h ▸ hx)]
  · rintro (rfl | ⟨hne, x, hx, hl⟩)
    · exact ⟨id, by rw [hnums, Go.getElem?_insert_eq, if_pos rfl], (hleaf id).2 (.inl rfl)⟩
    · refine ⟨x, by rw [hnums, Go.getElem?_insert_eq, if_neg (hid hl), hx], (hleaf x).2 (.inr ⟨hl, fun h => hne ?_⟩)⟩
      rw [G.extended_eq] at h
      cases h
      exact Option.some.inj (hx.symm.trans G.extended_num)

/-- **An insertion keeps the heads at the leaves**, and moves at most one of them, to the inserted block. -/
theorem growth (H : HeadsInv s t) (R : Refines gw s t) (G : Growth gw s s' t id p e origin ext b parents) :
    HeadsInv s' G.tree ∧ HeadsMove s s' G.tree := by
  obtain ⟨-, -, hnums, -, -, -⟩ := G.inserted.fields
  have hnew := H.fresh R
  have hid : s'.nums[id]? = some (s.blocksCounter + 1) := by rw [hnums, Go.getElem?_insert_eq, if_pos rfl]
  have hold : ∀ {x : BlockID} {n : Nat}, s.nums[x]? = some n → s'.nums[x]? = some n := fun {x n} hx => by
    rw [hnums, Go.getElem?_insert_eq, if_neg, hx]
    rintro rfl
    have := (R.num_stored x n hx).1
    unfold BlockTree.Stored at this
    rw [G.new] at this; cases this
  have hext : G.tree.Extends id e := BlockTree.grow_extends.2 (.inl ⟨rfl, G.extended_eq⟩)
  have hle : ext ≠ s.blocksCounter + 1 := by
    have := (R.num_stored e ext G.extended_num).2.2
    omega
  cases hhn : s.blockToHead[ext]? with
  | some hn =>
    -- the extended block was a leaf, and its head moves
    obtain ⟨hcount, hhb, hbh⟩ := G.inserted.moved_head hhn
    have hext_head := (H.inverse hn ext).2 hhn
    refine ⟨⟨fun h n => ?_, fun h => ?_, fun n => ?_⟩, fun h x n hh hx => ?_⟩
    · have := H.inverse h n
      have := H.inverse hn n
      have := H.inverse h ext
      have := H.inverse h (s.blocksCounter + 1)
      rw [hhb, hbh]
      simp only [Go.getElem?_insert_eq, Go.getElem?_erase_eq]
      grind
    · have := H.numbered h
      have := H.numbered hn
      rw [hhb, hcount]
      simp only [Go.getElem?_insert_eq]
      grind
    · rw [leaf_grown R G n, ← H.leaves n, hbh]
      simp only [Go.getElem?_insert_eq, Go.getElem?_erase_eq]
      grind
    · by_cases hhn' : h = hn
      · subst hhn'
        obtain rfl : n = ext := Option.some.inj (hh.symm.trans hext_head)
        obtain rfl : x = e := R.num_inj hx G.extended_num
        exact ⟨id, _, by rw [hhb, Go.getElem?_insert_eq, if_pos rfl], hid, .inr hext⟩
      · exact ⟨x, n, by rw [hhb, Go.getElem?_insert_eq, if_neg hhn', hh], hold hx, .inl rfl⟩
  | none =>
    -- the extended block was extended before, and a head is counted
    obtain ⟨hcount, hhb, hbh⟩ := G.inserted.new_head hhn
    have hfresh : s.headToBlock[s.headsCounter + 1]? = none := by
      cases hc : s.headToBlock[s.headsCounter + 1]? with
      | none => rfl
      | some n =>
        have := (H.numbered (s.headsCounter + 1)).1 (by rw [hc]; rfl)
        omega
    refine ⟨⟨fun h n => ?_, fun h => ?_, fun n => ?_⟩, fun h x n hh hx => ?_⟩
    · have := H.inverse h n
      have := H.inverse (s.headsCounter + 1) n
      have := H.inverse h (s.blocksCounter + 1)
      rw [hhb, hbh]
      simp only [Go.getElem?_insert_eq]
      grind
    · have := H.numbered h
      rw [hhb, hcount]
      simp only [Go.getElem?_insert_eq]
      grind
    · rw [leaf_grown R G n, ← H.leaves n, hbh]
      simp only [Go.getElem?_insert_eq]
      grind
    · have hne : h ≠ s.headsCounter + 1 := fun h' => by rw [h', hfresh] at hh; cases hh
      exact ⟨x, n, by rw [hhb, Go.getElem?_insert_eq, if_neg hne, hh], hold hx, .inl rfl⟩

end HeadsInv

/-- **A call keeps the heads at the leaves.** -/
theorem headsInv_call {gw : Gowaves} {l l' : Linkage} {t : BlockTree BlockID} {c : Call} (M : Mirrors gw l t)
    (H : HeadsInv l.st t) (h : l.call gw c = .ok l') :
    HeadsInv l'.st (t.call c) ∧ HeadsMove l.st l'.st (t.call c) := by
  rcases M.call_cases h with ⟨id, addr, -, rfl, ht⟩ | ⟨s', id, p, e, origin, ext, b, parents, addr, G, rfl, ht⟩
  · rw [ht]
    exact ⟨⟨H.inverse, H.numbered, H.leaves⟩, fun _ x n hh hx => ⟨x, n, hh, hx, .inl rfl⟩⟩
  · rw [ht]
    obtain ⟨H', hm⟩ := H.growth M.refines G
    exact ⟨⟨H'.inverse, H'.numbered, H'.leaves⟩, hm⟩

theorem Reachable.headsInv {gw : Gowaves} {scheme : Proto.Scheme} {genesis : Proto.Block} {l : Linkage}
    {t : BlockTree BlockID} (h : Reachable gw scheme genesis l t) : HeadsInv l.st t := by
  induction h with
  | start h => exact headsInv_start h
  | call c hr hc ih => exact (headsInv_call hr.mirrors ih hc).1

theorem extends_call {gw : Gowaves} {l l' : Linkage} {t : BlockTree BlockID} {c : Call} (M : Mirrors gw l t)
    (h : l.call gw c = .ok l') {v x : BlockID} (hx : t.Extends v x) : (t.call c).Extends v x := by
  rcases M.call_cases h with ⟨id, addr, -, -, ht⟩ | ⟨s', id, p, e, origin, ext, b, parents, addr, G, -, ht⟩
  · rw [ht]; exact hx
  · rw [ht]; exact BlockTree.grow_extends.2 (.inr hx)

/-- **A run moves heads along extensions only**, and also keeps the extensions there were. -/
theorem heads_run {gw : Gowaves} {scheme : Proto.Scheme} {genesis : Proto.Block} : ∀ {calls : List Call}
    {l l' : Linkage} {t : BlockTree BlockID}, Reachable gw scheme genesis l t →
    calls.foldlM (Linkage.call gw) l = .ok l' →
    HeadsFollow l.st l'.st (calls.foldl BlockTree.call t) ∧
      ∀ v x, t.Extends v x → (calls.foldl BlockTree.call t).Extends v x
  | [], l, l', t, _, h => by
    cases h
    exact ⟨fun _ x n hh hx => ⟨x, n, hh, hx, .refl⟩, fun _ _ hx => hx⟩
  | c :: calls, l, l', t, hr, h => by
    rw [List.foldlM_cons] at h
    obtain ⟨l1, h1, h⟩ := Go.bind_eq_ok.1 h
    obtain ⟨hf, he⟩ := heads_run (hr.call c h1) h
    refine ⟨fun hd x n hh hx => ?_, fun v x hx => he v x (extends_call hr.mirrors h1 hx)⟩
    obtain ⟨x1, n1, hh1, hx1, hmove⟩ := (headsInv_call hr.mirrors hr.headsInv h1).2 hd x n hh hx
    obtain ⟨x2, n2, hh2, hx2, hpath⟩ := hf hd x1 n1 hh1 hx1
    refine ⟨x2, n2, hh2, hx2, ?_⟩
    rcases hmove with rfl | hmove
    · exact hpath
    · exact .head (he _ _ hmove) hpath

/-- `Heads` returns, and lists each leaf once and nothing else. -/
def ListsLeaves (l : Linkage) (t : BlockTree BlockID) : Prop :=
  ∃ hs, l.heads = .ok hs ∧ (hs.map Head.blockID).Nodup ∧ ∀ id, id ∈ hs.map Head.blockID ↔ t.Leaf id

theorem HeadsInv.listsLeaves {gw : Gowaves} {l : Linkage} {t : BlockTree BlockID} (H : HeadsInv l.st t)
    (R : Refines gw l.st t) : ListsLeaves l t := by
  have hentry : ∀ r ∈ l.st.headToBlock.toList, ∃ id, l.st.nums[id]? = some r.2 ∧ t.Leaf id ∧ l.st.idOf r.2 = id := by
    intro r hr
    have hrn := (H.inverse r.1 r.2).1 (Std.ExtTreeMap.mem_toList_iff_getElem?_eq_some.1 hr)
    obtain ⟨id, hid, hl⟩ := (H.leaves r.2).1 (by rw [hrn]; rfl)
    exact ⟨id, hid, hl, R.idOf_eq hid⟩
  refine ⟨l.st.headToBlock.toList.map fun r => ⟨r.1, l.st.idOf r.2⟩, ?_, ?_, fun id => ?_⟩
  · refine Go.mapM_eq_ok.2 (List.forall₂_map_right_iff.2 (List.forall₂_same.2 fun r hr => ?_))
    obtain ⟨id, hid, -, hof⟩ := hentry r hr
    obtain ⟨nd, b, k, -, rec⟩ := R.of_num hid
    rw [Storage.getBlock_eq_ok.2 rec.block, hof]
    simp only [Go.wrap_ok, bind, Except.bind, rec.block_id, Proto.newBlockIDFromBytes_bytes]
  · rw [List.map_map]
    have hnodup : l.st.headToBlock.toList.Nodup :=
      Std.ExtTreeMap.distinct_keys_toList.imp fun {a b} hab h => hab (by rw [h]; exact Std.ReflCmp.compare_self)
    refine hnodup.map_on fun r hr r' hr' he => ?_
    obtain ⟨id, hid, -, hof⟩ := hentry r hr
    obtain ⟨id', hid', -, hof'⟩ := hentry r' hr'
    simp only [Function.comp_apply, hof, hof'] at he
    subst he
    have hn : r.2 = r'.2 := Option.some.inj (hid.symm.trans hid')
    have h1 := (H.inverse r.1 r.2).1 (Std.ExtTreeMap.mem_toList_iff_getElem?_eq_some.1 hr)
    have h2 := (H.inverse r'.1 r'.2).1 (Std.ExtTreeMap.mem_toList_iff_getElem?_eq_some.1 hr')
    rw [hn, h2] at h1
    exact Prod.ext (Option.some.inj h1).symm hn
  · rw [List.map_map, List.mem_map]
    constructor
    · rintro ⟨r, hr, rfl⟩
      obtain ⟨id, -, hl, hof⟩ := hentry r hr
      rw [← hof] at hl
      exact hl
    · intro hl
      obtain ⟨n, hn⟩ := Option.isSome_iff_exists.1 (R.stored_iff.1 hl.1)
      obtain ⟨h, hh⟩ := H.of_leaf hn hl
      exact ⟨(h, n), Std.ExtTreeMap.mem_toList_iff_getElem?_eq_some.2 ((H.inverse h n).2 hh), R.idOf_eq hn⟩

/-- **The heads of every reachable database**: they are the leaves, `Heads` lists them, a call moves each of them to a
block that extends the one before or not at all, and so does a run.  The numbers here have no bound: the database keeps
them in 64 bits, and holds this storage while there are fewer than `2^64 - 1` blocks (`Linkage.run_represents`). -/
theorem reachable_heads {gw : Gowaves} {scheme : Proto.Scheme} {genesis : Proto.Block} {l : Linkage}
    {t : BlockTree BlockID} (h : Reachable gw scheme genesis l t) :
    HeadsInv l.st t ∧ ListsLeaves l t ∧
    (∀ c l', l.call gw c = .ok l' → HeadsMove l.st l'.st (t.call c)) ∧
    ∀ (calls : List Call) (l' : Linkage), calls.foldlM (Linkage.call gw) l = .ok l' →
      HeadsFollow l.st l'.st (calls.foldl BlockTree.call t) :=
  ⟨h.headsInv, h.headsInv.listsLeaves h.mirrors.refines,
    fun _ _ hc => (headsInv_call h.mirrors h.headsInv hc).2, fun _ _ hc => (heads_run h hc).1⟩

/-- A fork of two key blocks, a micro-block on one branch. -/
theorem reachable_heads_sample :
    ∃ l, Sample.after [Sample.key 2 1, Sample.key 3 1, Sample.micro 4 3] = .ok l ∧
      ListsLeaves l (Sample.tree [Sample.key 2 1, Sample.key 3 1, Sample.micro 4 3]) := by
  obtain ⟨l, h⟩ := Go.exists_of_isOk (x := Sample.after [Sample.key 2 1, Sample.key 3 1, Sample.micro 4 3])
    (by decide +kernel)
  exact ⟨l, h, (reachable_heads (Sample.reachable h)).2.1⟩

end Chains
end ForkDetector
