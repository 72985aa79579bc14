import ForkDetector.Chains.Contributions
import ForkDetector.Loading.Arrival
/-!
# Carried — what a linkage has of a chain

The blocks of a chain that are there are the first ones, each on the parent that it names and with the score that it
adds.  That is kept by whatever brings in no other block under an ID of the chain: by the distributor, and by the loader
of a peer when it puts a part of the chain.
-/
namespace ForkDetector
namespace Loading

open Proto (BlockID Gowaves)
open Chains (Linkage Reachable Batch BlockTree Chained PlacedAs contribution)

/-! ## The chain in the linkage -/

/-- The score of a chain after its first `n` blocks, from the score `w` of the block below. -/
def weight (q : Batch) (w : Int) (n : Nat) : Int := w + ((q.blocks.take n).map fun b => contribution b.baseTarget).sum

/-- **What a linkage has of a chain**: the block below, at the height `h` with the score `w`, and of the chain the
blocks that came in, each on the parent that it names and with the score that it adds. -/
structure Carried (gw : Gowaves) (scheme : Proto.Scheme) (genesis : Proto.Block) (q : Batch) (h : Nat) (w : Int)
    (hp : Linkage) (t : BlockTree BlockID) : Prop where
  reachable : Reachable gw scheme genesis hp t
  parent : t.Stored q.parent
  height : t.height q.parent = h
  score : hp.scoreOf q.parent = w
  placed : ∀ b ∈ q.blocks, PlacedAs t b
  adds : ∀ b ∈ q.blocks, t.Stored b.blockID →
    hp.scoreOf b.blockID = contribution b.baseTarget + hp.scoreOf b.parent

section
variable {q : Batch} {w : Int} {n : Nat} {b : Proto.Block}

@[simp] theorem weight_zero : weight q w 0 = w := by simp [weight]

theorem weight_succ (h : q.blocks[n]? = some b) : weight q w (n + 1) = contribution b.baseTarget + weight q w n := by
  unfold weight
  rw [List.take_add_one, h]
  simp only [Option.toList_some, List.map_append, List.map_cons, List.map_nil, List.sum_append, List.sum_cons,
    List.sum_nil]
  omega

theorem weight_lt_succ (hbt : ∀ b ∈ q.blocks, b.baseTarget ≠ 0) (hn : n < q.blocks.length) :
    weight q w n < weight q w (n + 1) := by
  have hb := List.getElem?_eq_getElem hn
  have hpos := Chains.contribution_pos (hbt _ (List.mem_of_getElem? hb))
  rw [weight_succ hb]
  omega

theorem weight_lt (hbt : ∀ b ∈ q.blocks, b.baseTarget ≠ 0) {m : Nat} (hmn : m < n) (hn : n ≤ q.blocks.length) :
    weight q w m < weight q w n := by
  induction n with
  | zero => omega
  | succ n ih =>
    have hlast := weight_lt_succ (w := w) hbt (Nat.lt_of_succ_le hn)
    rcases Nat.lt_succ_iff_lt_or_eq.1 hmn with hlt | rfl
    · exact (ih hlt (by omega)).trans hlast
    · exact hlast

end

namespace Carried
variable {gw : Gowaves} {scheme : Proto.Scheme} {genesis : Proto.Block} {q : Batch} {h : Nat} {w : Int}
  {hp hp' : Linkage} {t : BlockTree BlockID} {n : Nat}

theorem stored_of_succ (hc : Carried gw scheme genesis q h w hp t) (hn : n < q.blocks.length)
    (hs : t.Stored (q.upTo (n + 1))) : t.Stored (q.upTo n) := by
  have hb := List.getElem?_eq_getElem hn
  rw [Batch.upTo_succ hb] at hs
  have hp := hc.placed _ (List.mem_of_getElem? hb) hs
  rw [q.chained.getElem? (d := q.parent) hb] at hp
  exact (t.isRooted.step _ _ hs hp).1

/-- The blocks of the chain that are there are the first ones. -/
theorem stored_of_le (hc : Carried gw scheme genesis q h w hp t) {m : Nat} (hmn : m ≤ n) (hn : n ≤ q.blocks.length)
    (hs : t.Stored (q.upTo n)) : t.Stored (q.upTo m) := by
  induction n with
  | zero =>
    obtain rfl := Nat.le_zero.1 hmn
    exact hs
  | succ n ih =>
    rcases Nat.lt_succ_iff_lt_or_eq.1 (Nat.lt_succ_of_le hmn) with hlt | rfl
    · exact ih (Nat.le_of_lt_succ hlt) (by omega) (hc.stored_of_succ (Nat.lt_of_succ_le hn) hs)
    · exact hs

theorem height_upTo (hc : Carried gw scheme genesis q h w hp t) (hn : n ≤ q.blocks.length)
    (hs : t.Stored (q.upTo n)) : t.height (q.upTo n) = h + n := by
  induction n with
  | zero => exact hc.height
  | succ n ih =>
    have hb := List.getElem?_eq_getElem (Nat.lt_of_succ_le hn)
    have hpar := hc.placed _ (List.mem_of_getElem? hb) (by rwa [← Batch.upTo_succ hb])
    rw [q.chained.getElem? (d := q.parent) hb, ← Batch.upTo_succ hb] at hpar
    rw [(t.isRooted.step _ _ hs hpar).2]
    show t.height (q.upTo n) + 1 = _
    rw [ih (by omega) (hc.stored_of_succ (Nat.lt_of_succ_le hn) hs)]
    omega

theorem score_upTo (hc : Carried gw scheme genesis q h w hp t) (hn : n ≤ q.blocks.length)
    (hs : t.Stored (q.upTo n)) : hp.scoreOf (q.upTo n) = weight q w n := by
  induction n with
  | zero => rw [weight_zero]; exact hc.score
  | succ n ih =>
    have hb := List.getElem?_eq_getElem (Nat.lt_of_succ_le hn)
    have hadd := hc.adds _ (List.mem_of_getElem? hb) (by rwa [← Batch.upTo_succ hb])
    rw [q.chained.getElem? (d := q.parent) hb] at hadd
    rw [Batch.upTo_succ hb, hadd, weight_succ hb]
    congr 1
    exact ih (by omega) (hc.stored_of_succ (Nat.lt_of_succ_le hn) hs)

theorem carries (hc : Carried gw scheme genesis q h w hp t) : Carries gw scheme genesis q h hp :=
  ⟨t, hc.reachable, hc.parent, hc.height, hc.placed⟩

/-- **A call keeps what is there of the chain**, unless it brings in another block under an ID of the chain. -/
theorem call (hc : Carried gw scheme genesis q h w hp t) {c : Chains.Call} (hcall : hp.call gw c = .ok hp')
    (hown : c.id ∈ q.ids → ∃ b ∈ q.blocks, ∃ addr, c = .putBlock b addr) :
    Carried gw scheme genesis q h w hp' (t.call c) := by
  have S := hc.reachable.stands
  have K := hc.reachable.kept_call hcall
  have hscore : ∀ {x}, t.Stored x → hp'.scoreOf x = hp.scoreOf x := fun hx => K.scoreOf S hx
  refine ⟨hc.reachable.call c hcall, hc.parent.call, (BlockTree.call_height hc.parent).trans hc.height,
    (hscore hc.parent).trans hc.score, fun b hb => ?_, fun b hb hs => ?_⟩
  · refine (hc.placed b hb).call fun hid => ?_
    obtain ⟨b', hb', addr, rfl⟩ := hown (hid ▸ List.mem_map_of_mem hb)
    obtain rfl : b' = b := Batch.eq_of_blockID hb' hb hid
    exact ⟨addr, rfl⟩
  · by_cases hold : t.Stored b.blockID
    · rw [hscore hold, hscore (t.isRooted.step _ _ hold (hc.placed b hb hold)).1]
      exact hc.adds b hb hold
    · -- the call has just brought the block in, so that its base target is the one that was noted
      have hid : b.blockID = c.id := (BlockTree.call_stored hs).resolve_right hold
      obtain ⟨b', hb', addr, rfl⟩ := hown (hid ▸ List.mem_map_of_mem hb)
      obtain rfl : b' = b := Batch.eq_of_blockID hb' hb hid.symm
      obtain ⟨targets, hr⟩ := Chains.reachableWith_iff.1 hc.reachable
      have hr' := hr.call (.putBlock b' addr) hcall
      have hnum : hp.st.nums[b'.blockID]? = none := S.refines.nums_eq_none hold
      have hpar : t.Stored b'.parent := by
        by_contra hp
        have hsame : t.call (.putBlock b' addr) = t := dif_neg fun hn => hp hn.2
        rw [hsame] at hs
        exact hold hs
      have hnode : (t.call (.putBlock b' addr)).node b'.blockID =
          some ⟨.keyBlock b'.parent, some b'.parent, t.height b'.parent + 1⟩ := by
        show (t.addKeyBlock b'.blockID b'.parent).node b'.blockID = _
        rw [BlockTree.addKeyBlock_eq (S.refines.node_eq_none hnum) hpar]
        exact BlockTree.grow_node_self
      have hsum := hr'.scored.keyBlock _ _ hnode (fun r ho => by cases ho)
      rw [Chains.noteTarget_of_new hnum] at hsum
      exact hsum

theorem moveLeash (hc : Carried gw scheme genesis q h w hp t) {id : BlockID} (peer : Addr) (hid : hp.Has id) :
    Carried gw scheme genesis q h w (hp.moveLeash id peer) t := by
  have hcall : hp.call gw (.moveLeash id peer) = .ok (hp.moveLeash id peer) := by
    refine Go.bind_eq_ok.2 ⟨true, (Chains.Storage.hasBlock_eq hp.st id).trans ?_, rfl⟩
    rw [show hp.st.nums[id]?.isSome = true from hid]
  exact ⟨hc.reachable.call _ hcall, hc.parent, hc.height, hc.score, hc.placed, hc.adds⟩

theorem skipKnown {peer : Addr} : ∀ {ids : List BlockID} {hp : Linkage} {r : Except (Go.Err Sentinel) (List BlockID)},
    Carried gw scheme genesis q h w hp t → Loading.skipKnown peer hp ids = .ok (hp', r) →
    Carried gw scheme genesis q h w hp' t
  | [], hp, r, hc, h => by
    cases h
    exact hc
  | id :: ids, hp, r, hc, h => by
    unfold Loading.skipKnown at h
    split at h
    · cases h
    · cases h
      exact hc
    · cases h
      exact hc
    · rename_i hhas
      split at h
      · cases h
      · cases h
        exact hc
      · refine skipKnown ?_ h
        split
        · refine hc.moveLeash peer ?_
          have hnum := hhas.symm.trans (Chains.Storage.hasBlock_eq hp.st id)
          exact (Except.ok.inj hnum).symm
        · exact hc

/-- The blocks of a batch that are put are those of the chain. -/
theorem putBlocks {peer : Addr} : ∀ {bs : List Proto.Block} {hp : Linkage} {t : BlockTree BlockID}
    {err : Option (Go.Err Sentinel)}, Carried gw scheme genesis q h w hp t → (∀ b ∈ bs, b ∈ q.blocks) →
    Loading.putBlocks gw peer hp bs = .ok (hp', err) → ∃ t', Carried gw scheme genesis q h w hp' t'
  | [], hp, t, err, hc, _, h => by
    cases h
    exact ⟨t, hc⟩
  | b :: bs, hp, t, err, hc, hbs, h => by
    obtain ⟨hb, hbs⟩ := List.forall_mem_cons.1 hbs
    unfold Loading.putBlocks at h
    split at h
    · cases h
    · cases h
      exact ⟨t, hc⟩
    · rename_i hput
      exact putBlocks (hc.call (c := .putBlock b peer) hput fun _ => ⟨b, hb, peer, rfl⟩) hbs h

theorem handleBlock (hgw : gw.Addresses) (hc : Carried gw scheme genesis q h w hp t) {b : Proto.Block}
    (ap : AddrPort) (hbt : b.baseTarget.toNat ≤ 9223372036854775807) (hown : b.blockID ∈ q.ids → b ∈ q.blocks)
    (hfit : h + q.blocks.length < 2 ^ 32)
    (hfits : b.blockID ∉ q.ids → ∀ pb, hp.st.block b.parent = .ok pb → pb.height + 1 < 2 ^ 32) :
    ∃ hp' t', Distributor.handleBlock gw hp b (some ap) = .ok (hp', ⟨ap.addr, b⟩) ∧
      Carried gw scheme genesis q h w hp' t' ∧ ∀ x, t.Stored x → t'.Stored x := by
  obtain ⟨hp', hh, -⟩ := hc.carries.handleBlock hgw ap hbt hown hfit hfits
  have hcall := hh
  unfold Distributor.handleBlock at hcall
  simp only at hcall
  split at hcall
  · rename_i hput
    cases hcall
    exact ⟨_, _, hh, hc.call (c := .putBlock b ap.addr) hput fun hid => ⟨b, hown hid, ap.addr, rfl⟩,
      fun x hx => hx.call⟩
  · cases hcall
  · split at hcall
    · cases hcall
      exact ⟨_, t, hh, hc, fun x hx => hx⟩
    · cases hcall

theorem handleMicroBlockInvMessage (hc : Carried gw scheme genesis q h w hp t) {inv : Proto.MicroBlockInv}
    (addr : Option AddrPort) (hown : inv.totalBlockID ∉ q.ids) :
    ∃ hp' t', Distributor.handleMicroBlockInvMessage hp inv addr = .ok hp' ∧
      Carried gw scheme genesis q h w hp' t' ∧ ∀ x, t.Stored x → t'.Stored x := by
  obtain ⟨hp', hh, -⟩ := hc.carries.handleMicroBlockInvMessage addr hown
  have hcall := hh
  unfold Distributor.handleMicroBlockInvMessage at hcall
  split at hcall
  · cases hcall
    exact ⟨_, t, hh, hc, fun x hx => hx⟩
  · split at hcall
    · rename_i hput
      cases hcall
      exact ⟨_, _, hh, hc.call (c := .putMicroBlock inv _) hput fun hid => absurd hid hown, fun x hx => hx.call⟩
    · cases hcall
    · cases hcall
      exact ⟨_, t, hh, hc, fun x hx => hx⟩

/-- **A part of the chain is put**, from a block that is there on. -/
theorem exists_putBlocks (hgw : gw.Addresses) (hc : Carried gw scheme genesis q h w hp t) (peer : Addr) {m : Nat}
    (hm : m < n) (hn : n ≤ q.blocks.length) (hs : t.Stored (q.upTo m)) (hfit : h + q.blocks.length < 2 ^ 32)
    (hbt : ∀ b ∈ q.blocks, b.baseTarget.toNat ≤ 9223372036854775807) :
    ∃ hp' t', Loading.putBlocks gw peer hp ((q.blocks.take n).drop m) = .ok (hp', none) ∧
      Carried gw scheme genesis q h w hp' t' ∧ t'.Stored (q.upTo n) := by
  have hmem : ∀ b ∈ (q.blocks.take n).drop m, b ∈ q.blocks := fun b hb => List.mem_of_mem_take (List.mem_of_mem_drop hb)
  have hlen : (q.blocks.take n).length = n := List.length_take_of_le hn
  have hch : Chained (q.upTo m) ((q.blocks.take n).drop m) := by
    rw [List.drop_take]
    exact (q.chained.drop m (by omega)).take _
  have hnd : (((q.blocks.take n).drop m).map Proto.Block.blockID).Nodup :=
    q.distinct.sublist (((List.drop_sublist _ _).trans (List.take_sublist _ _)).map _)
  obtain ⟨hp', t1, hputs, hr, -, hall⟩ := Loading.exists_putBlocks hgw peer hc.reachable hch hnd hs
    (by rw [hc.height_upTo (by omega) hs, List.length_drop, hlen]; omega)
    fun b hb => ⟨hbt b (hmem b hb), hc.placed b (hmem b hb)⟩
  obtain ⟨t', hc'⟩ := hc.putBlocks hmem hputs
  refine ⟨hp', t', hputs, hc', ?_⟩
  obtain ⟨b, hlast⟩ : ∃ b, q.blocks[n - 1]? = some b :=
    ⟨_, List.getElem?_eq_getElem (by omega)⟩
  have hin : b ∈ (q.blocks.take n).drop m := by
    refine List.mem_of_getElem? (i := n - 1 - m) ?_
    rw [List.getElem?_drop, List.getElem?_take_of_lt (by omega), ← hlast]
    congr 1
    omega
  have hup := Batch.upTo_succ hlast
  rw [Nat.sub_add_cancel (by omega : 1 ≤ n)] at hup
  rw [hup, hc'.reachable.mirrors.refines.stored_iff]
  exact hr.mirrors.refines.stored_iff.1 (hall _ hin).1

end Carried

end Loading
end ForkDetector
