import ForkDetector.Chains.Numbers
import ForkDetector.Chains.Lca
/-!
# Append — what later calls leave as it was

A call adds a block at most, so that every read of the blocks there were answers as before (`run_append_only`).
-/
namespace ForkDetector
namespace Chains

open Ancestry Lifting
open Proto (BlockID Gowaves MicroBlockInv)

def Call.id : Call → BlockID
  | .putBlock b _ => b.blockID
  | .putMicroBlock inv _ => inv.totalBlockID
  | .moveLeash id _ => id

def Call.addr : Call → Addr
  | .putBlock _ addr => addr
  | .putMicroBlock _ addr => addr
  | .moveLeash _ addr => addr

/-! ## Leashes -/

/-- An IPv4 address shares its key with no other address. -/
theorem eq_of_addrKeyBytes {a b : Addr} (ha : a.is4 = true) (h : addrKeyBytes a = addrKeyBytes b) : a = b := by
  have hbytes : a.bytes = b.bytes := (List.cons.inj h).2
  have hb : b.is4 = true := by
    unfold Addr.is4 at *
    rw [← hbytes]
    exact ha
  exact Addr.ext_fields hbytes (by rw [Addr.zone_of_is4 ha, Addr.zone_of_is4 hb])

/-- **A call that returns moves the leash of its peer**, and no other. -/
theorem Linkage.leashRecords_exec {gw : Gowaves} {l l' : Linkage} {c : Call} (h : l.exec gw c = .ok l') :
    l'.st.leashRecords = l.st.leashRecords.insert (addrKeyBytes c.addr) c.id := by
  cases c with
  | putBlock b addr =>
    rcases putBlock_eq_ok h with ⟨-, rfl⟩ | ⟨-, -, st, hst, rfl⟩
    · rfl
    · obtain ⟨pn, pb, nb, parents, -, -, -, I⟩ := Storage.putProtoBlock_eq_ok hst
      show st.leashRecords.insert _ _ = _
      rw [I.fields.2.2.2.2.2]; rfl
  | putMicroBlock inv addr =>
    rcases putMicroBlock_eq_ok h with ⟨-, rfl⟩ | ⟨-, -, st, hst, rfl⟩
    · rfl
    · obtain ⟨rn, rb, p, parents, -, -, -, I⟩ := Storage.putMicroBlock_eq_ok hst
      show st.leashRecords.insert _ _ = _
      rw [I.fields.2.2.2.2.2]; rfl
  | moveLeash id addr =>
    cases h
    rfl

theorem Linkage.leash_left {gw : Gowaves} (l : Linkage) (c : Call) {a : Addr} (ha : a.is4 = true) (hne : a ≠ c.addr) :
    (l.left gw c).st.leash a = l.st.leash a := by
  unfold left
  cases h : l.exec gw c with
  | error f => rfl
  | ok l' =>
    simp only [Storage.getLeash_eq, leashRecords_exec h, Go.getElem?_insert_eq]
    rw [if_neg fun he => hne (eq_of_addrKeyBytes ha he)]

/-! ## Reads of the tree -/

namespace Refines
variable {gw : Gowaves} {s : Storage} {t : BlockTree BlockID} (R : Refines gw s t)
include R

theorem ancestorsFrom_eq : ∀ (k : Nat) {x : BlockID} {n : Nat}, s.nums[x]? = some n →
    s.ancestorsFrom k n = .ok (path t.parent k x)
  | 0, _, _, _ => rfl
  | k + 1, x, n, hx => by
    obtain ⟨nd, b, kl, hnd, r⟩ := R.of_num hx
    rw [Storage.ancestorsFrom, Storage.getLink_eq_ok.2 r.link]
    simp only [Go.wrap_ok, bind, Except.bind, r.link_id, Proto.newBlockIDFromBytes_bytes]
    have hpar := R.numParent_num hx
    rw [Storage.numParent_eq r.link] at hpar
    rw [path]
    cases hp : t.parent x with
    | none =>
      rw [hp, Option.bind_none, List.getElem?_eq_none_iff] at hpar
      rw [List.length_eq_zero_iff.1 (Nat.le_zero.1 hpar)]
      rfl
    | some p =>
      have hps := (t.isRooted.step x p (BlockTree.stored_of_node hnd) hp).1
      obtain ⟨m, hm⟩ := Option.isSome_iff_exists.1 (R.stored_iff.1 hps)
      rw [hp, Option.bind_some, hm] at hpar
      obtain ⟨ps, hps⟩ : ∃ ps, kl.parents = m :: ps := by
        cases hl : kl.parents with
        | nil => rw [hl] at hpar; cases hpar
        | cons q ps =>
          rw [hl] at hpar
          cases hpar
          exact ⟨ps, rfl⟩
      simp only [hps, ancestorsFrom_eq k hm, Option.elim_some]

/-- **The last IDs of a block** are the block and its ancestors. -/
theorem getAncestors_eq {x : BlockID} (hx : t.Stored x) (n : Nat) : s.getAncestors x n = .ok (path t.parent n x) := by
  obtain ⟨m, hm⟩ := Option.isSome_iff_exists.1 (R.stored_iff.1 hx)
  unfold Storage.getAncestors
  rw [Storage.getNumOfBlockID_eq_ok.2 hm]
  exact R.ancestorsFrom_eq n hm

end Refines

/-- **`lca` depends on the tree alone.** -/
theorem lca_congr {gw : Gowaves} {s s' : Storage} {t t' : BlockTree BlockID} (R : Refines gw s t)
    (R' : Refines gw s' t') (hnode : ∀ x, t.Stored x → t'.node x = t.node x) {x y : BlockID} (hx : t.Stored x)
    (hy : t.Stored y) : s'.lca x y = s.lca x y := by
  have hheight : ∀ z, t.Stored z → t'.height z = t.height z := fun z hz => by
    unfold BlockTree.height heightIn; rw [hnode z hz]
  have hstored : ∀ z, t.Stored z → t'.Stored z := fun z hz => by
    unfold BlockTree.Stored; rw [hnode z hz]; exact hz
  have A : Ancestry.Agree t.Stored t.parent t'.parent :=
    ⟨fun a b ha hb => (t.isRooted.step a b ha hb).1, fun a ha => by
      unfold BlockTree.parent parentIn; rw [hnode a ha]⟩
  obtain ⟨c, hc⟩ := t.isRooted.exists_deepestCommon hy _ x hx rfl
  have hcs := t.isRooted.anc_node hx hc.left
  obtain ⟨h1, h2⟩ := R.lca_spec hx hy hc
  obtain ⟨h3, h4⟩ := R'.lca_spec (hstored x hx) (hstored y hy) (A.deepestCommon hx hy hcs hc)
  rw [hheight c hcs, hheight x hx, hheight y hy] at h3 h4
  by_cases hr : InRange (t.height c) (min (t.height x) (t.height y) - t.height c)
  · rw [h1 hr, h3 hr]
  · rw [h2 hr, h4 hr]

/-! ## The tree is append-only -/

/-- **What a call of a peer leaves as it was**: the reads of the blocks there were, and the leashes of others. -/
structure AppendOnly (gw : Gowaves) (l l' : Linkage) (caller : Addr) : Prop where
  block : ∀ x, l.hasBlock x = .ok true → l'.block gw x = l.block gw x
  lastIDs : ∀ x, l.hasBlock x = .ok true → ∀ n, l'.lastIDs x n = l.lastIDs x n
  lca : ∀ x y, l.hasBlock x = .ok true → l.hasBlock y = .ok true → l'.st.lca x y = l.st.lca x y
  leash : ∀ a : Addr, a.is4 = true → a ≠ caller → l'.st.leash a = l.st.leash a

namespace Kept
variable {gw : Gowaves} {l l' : Linkage} {t t' : BlockTree BlockID} (K : Kept l l' t t') (S : Stands gw l t)
  (S' : Stands gw l' t')
include K S

theorem getBlock {x : BlockID} (hx : t.Stored x) : l'.st.block x = l.st.block x := by
  obtain ⟨n, hn⟩ := Option.isSome_iff_exists.1 (S.refines.stored_iff.1 hx)
  obtain ⟨nd, b, k, -, r⟩ := S.refines.of_num hn
  have hb : l.st.block x = .ok b := Storage.getBlockByID_eq_ok.2 ⟨n, hn, r.block⟩
  have hb' : l'.st.block x = .ok b := Storage.getBlockByID_eq_ok.2 ⟨n, K.num x n hn, K.block n b r.block⟩
  rw [hb, hb']

theorem readBlock {x : BlockID} (hx : t.Stored x) : l'.block gw x = l.block gw x := by
  unfold Linkage.block
  rw [K.getBlock S hx]

omit S in
theorem agree : Ancestry.Agree t.Stored t.parent t'.parent :=
  ⟨fun a b ha hb => (t.isRooted.step a b ha hb).1, fun a ha => by
    unfold BlockTree.parent parentIn; rw [K.node a ha]⟩

include S'

theorem lastIDs {x : BlockID} (hx : t.Stored x) (n : Nat) : l'.lastIDs x n = l.lastIDs x n := by
  unfold Linkage.lastIDs
  rw [S.refines.getAncestors_eq hx, S'.refines.getAncestors_eq (K.stored hx), K.agree.path_eq n hx]

end Kept

/-- **Every call appends**: whatever calls came before, and whether it is accepted or not. -/
theorem run_append_only {gw : Gowaves} {scheme : Proto.Scheme} {genesis : Proto.Block} {l : Linkage}
    (h : newLinkage gw scheme genesis = .ok l) (calls : List Call) (c : Call) :
    AppendOnly gw (l.run gw calls) ((l.run gw calls).left gw c) c.addr := by
  obtain ⟨t, S, -⟩ := (stands_start h).run calls
  obtain ⟨t', S', K⟩ := S.left c
  have hstored : ∀ {x}, (l.run gw calls).hasBlock x = .ok true → t.Stored x := S.refines.hasBlock_iff.1
  exact ⟨fun x hx => K.readBlock S (hstored hx), fun x hx n => K.lastIDs S S' (hstored hx) n,
    fun x y hx hy => lca_congr S.refines S'.refines K.node (hstored hx) (hstored hy),
    fun a ha hne => Linkage.leash_left _ c ha hne⟩

/-- A leash moved to a block that is not stored, and then a new block. -/
theorem run_append_only_sample : ∃ l, newLinkage Sample.gowaves 87 (Sample.block 1 0) = .ok l ∧
    AppendOnly Sample.gowaves (l.run Sample.gowaves [Sample.key 2 1, .moveLeash (Sample.id 9) (Sample.peer 2)])
      ((l.run Sample.gowaves [Sample.key 2 1, .moveLeash (Sample.id 9) (Sample.peer 2)]).left Sample.gowaves
        (Sample.key 3 2)) (Sample.peer 3) := by
  obtain ⟨l, h⟩ := Go.exists_of_isOk (x := newLinkage Sample.gowaves 87 (Sample.block 1 0)) (by decide +kernel)
  exact ⟨l, h, run_append_only h _ _⟩

end Chains
end ForkDetector
