import ForkDetector.Chains.Refinement
/-!
# Placing — which blocks a linkage takes

A linkage takes a block that it has, or a block on one that it has whose generator has an address.  Nothing else makes
it fail on a block: the reads of a reachable database find their records.
-/
namespace ForkDetector
namespace Chains

open Ancestry Lifting
open Go (NoError)
open Proto (BlockID Gowaves)

def Linkage.Has (l : Linkage) (id : BlockID) : Prop := l.st.nums[id]?.isSome = true

def HasGenerator (gw : Gowaves) (scheme : Proto.Scheme) (b : Proto.Block) : Prop :=
  ∃ a, gw.newAddressFromPublicKey scheme b.generatorPublicKey = .ok a

/-- Blocks that a linkage takes one after the other: each is had, or stands on one that is had or comes before it. -/
def Connected (gw : Gowaves) (scheme : Proto.Scheme) (has : BlockID → Prop) : List Proto.Block → Prop
  | [] => True
  | b :: bs => (has b.blockID ∨ has b.parent ∧ HasGenerator gw scheme b) ∧
      Connected gw scheme (fun id => id = b.blockID ∨ has id) bs

theorem Refines.exists_collectParents {gw : Gowaves} {s : Storage} {t : BlockTree BlockID} (R : Refines gw s t) :
    ∀ (k l : Nat) {n : Nat}, s.HasLink n → ∃ ps, s.collectParents k l n = .ok ps
  | 0, _, _, _ => ⟨[], rfl⟩
  | k + 1, l, n, hn => by
    obtain ⟨pl, hpl⟩ := Option.isSome_iff_exists.1 hn
    have hnext : s.HasLink (if pl.parents.length > l then pl.parents.getD l n else n) := by
      split
      · rename_i hl
        have hget := List.getElem?_eq_getElem hl
        rw [List.getD_eq_getElem?_getD, hget, Option.getD_some]
        have hsk := R.skips n pl hpl
        rw [← Storage.numHeight_eq hpl] at hsk
        exact (hsk.get R.rooted hn hget).2.1
      · exact hn
    obtain ⟨rest, hrest⟩ := R.exists_collectParents k (l + 1) hnext
    exact ⟨n :: rest, Go.bind_eq_ok.2 ⟨pl, Storage.getLink_eq_ok.2 hpl, Go.bind_eq_ok.2 ⟨rest, hrest, rfl⟩⟩⟩

namespace Refines
variable {gw : Gowaves} {s : Storage} {t : BlockTree BlockID} (R : Refines gw s t)
include R

end Refines

namespace Mirrors
variable {gw : Gowaves} {l l' : Linkage} {t : BlockTree BlockID} {b : Proto.Block} {addr : Addr}

/-- The score of a leash can always be looked up. -/
theorem exists_leashScore (M : Mirrors gw l t) (addr : Addr) : ∃ score, l.leashScore addr = .ok score := by
  have hblock : ∀ id, t.Stored id → ∃ b, l.st.block id = .ok b := fun id hid => by
    obtain ⟨nd, hnd⟩ := hid.node
    obtain ⟨n, b, k, r⟩ := M.refines.recorded id nd hnd
    exact ⟨b, Storage.getBlockByID_eq_ok.2 ⟨n, r.num, r.block⟩⟩
  unfold Linkage.leashScore
  rw [Storage.getLeash_eq]
  cases hr : l.st.leashRecords[addrKeyBytes addr]? with
  | none =>
    obtain ⟨b, hb⟩ := hblock l.genesis (M.genesis_eq ▸ t.isRooted.root_node)
    exact ⟨b.score, Go.bind_eq_ok.2 ⟨b, Go.wrap_eq_ok.2 hb, rfl⟩⟩
  | some id =>
    obtain ⟨b, hb⟩ := hblock id (M.leashes _ _ hr).1
    exact ⟨b.score, Go.bind_eq_ok.2 ⟨b, Go.wrap_eq_ok.2 hb, rfl⟩⟩

end Mirrors

end Chains
end ForkDetector
