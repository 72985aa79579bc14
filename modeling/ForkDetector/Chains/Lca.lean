import ForkDetector.Chains.Links
/-!
# Lca — the common ancestor of two blocks

`storage.lca` walks the farther block down to the height of the other (`fastBackward_spec`) and brings both below their
deepest common ancestor (`descend_spec`).  The walk always succeeds.  The descent reads the next skip at the pair just
jumped to, whose lists are shorter, and panics when it is not there: `lca_spec` says that the call returns the deepest
common ancestor exactly when the shorter branch is in range of the common part.
-/
namespace ForkDetector
namespace Chains

open Ancestry Lifting
open Proto (BlockID Gowaves)

namespace Refines
variable {gw : Gowaves} {s : Storage} {t : BlockTree BlockID} (R : Refines gw s t)
include R

theorem skip {n i : Nat} {k : Link} (hk : s.links[n]? = some k) (hi : 2 ^ i < k.height) :
    ∃ m km, k.parents[i]? = some m ∧ s.links[m]? = some km ∧ up s.numParent (2 ^ i) n = some m ∧
      k.height = km.height + 2 ^ i := by
  have hsk := R.skips n k hk
  have hlt := hsk.lt_length.2 hi
  obtain ⟨m, hm⟩ : ∃ m, k.parents[i]? = some m := ⟨_, List.getElem?_eq_getElem hlt⟩
  have hu : up s.numParent (2 ^ i) n = some m := by rw [← hsk.get_eq i hlt, hm]
  obtain ⟨hl, hh⟩ := R.rooted.up_height (Storage.hasLink_of hk) hu
  obtain ⟨km, hkm⟩ := Option.isSome_iff_exists.1 hl
  rw [Storage.numHeight_eq hk, Storage.numHeight_eq hkm] at hh
  exact ⟨m, km, hm, hkm, hu, hh⟩

theorem link_height_lt {n : Nat} {k : Link} (hk : s.links[n]? = some k) : 0 < k.height ∧ k.height < 2 ^ 32 := by
  obtain ⟨id, nd, b, hnd, r⟩ := R.of_link hk
  rw [r.link_height, ← BlockTree.height_eq hnd]
  exact ⟨t.isRooted.height_pos (BlockTree.stored_of_node hnd), R.height_lt id⟩

/-- **The walk down to a height reaches the ancestor at that height.**  The indices still to go reach over what is
left of the way. -/
theorem fastBackward_spec {O : Link} (hO : 0 < O.height) : ∀ (k : Nat) {n : Nat} {F : Link},
    s.links[n]? = some F → O.height ≤ F.height → k ≤ F.parents.length → F.height - O.height < 2 ^ k →
    ∃ m F', s.fastBackward F O k = .ok F' ∧ s.links[m]? = some F' ∧ F'.height = O.height ∧
      up s.numParent (F.height - O.height) n = some m := by
  intro k
  induction k using Nat.strong_induction_on with
  | _ k ih =>
    intro n F hF hle hk hd
    rw [Storage.fastBackward.eq_def]
    cases k with
    | zero =>
      have h0 : F.height = O.height := by omega
      exact ⟨n, F, rfl, hF, h0, by rw [h0, Nat.sub_self]; rfl⟩
    | succ i =>
      have hsk := R.skips n F hF
      have hin : 2 ^ i < F.height := hsk.lt_length.1 hk
      have hlt := (R.link_height_lt hF).2
      have hsub : Storage.sub32 F.height (2 ^ i) = F.height - 2 ^ i := by
        unfold Storage.sub32
        omega
      rw [Nat.pow_succ] at hd
      simp only [hsub]
      by_cases hjump : O.height ≤ F.height - 2 ^ i
      · obtain ⟨m, M, hm, hM, hu, hh⟩ := R.skip hF hin
        rw [if_pos hjump, Go.index_eq_ok.2 hm]
        simp only [Storage.getLink_eq_ok.2 hM]
        have hway : F.height - O.height = 2 ^ i + (M.height - O.height) := by omega
        have hnext : ∀ k', k' < i + 1 → k' ≤ M.parents.length → M.height - O.height < 2 ^ k' →
            ∃ m' F', s.fastBackward M O k' = .ok F' ∧ s.links[m']? = some F' ∧ F'.height = O.height ∧
              up s.numParent (F.height - O.height) n = some m' := by
          intro k' hk' hle' hd'
          obtain ⟨m', F', h1, h2, h3, h4⟩ := ih k' hk' hM (by omega) hle' hd'
          exact ⟨m', F', h1, h2, h3, by rw [hway, up_add, hu]; exact h4⟩
        split
        · rename_i hshort
          refine hnext _ (by omega) (Nat.le_refl _) ?_
          -- the restarted index covers the whole height of the link jumped to
          have hskM := R.skips m M hM
          rw [hskM.length_eq]
          have := Nat.le_pow_clog Nat.one_lt_two M.height
          omega
        · exact hnext i (Nat.lt_succ_self i) (by omega) (by omega)
      · rw [if_neg hjump]
        exact ih i (Nat.lt_succ_self i) hF hle (by omega) (by omega)

/-- **The descent ends just above the deepest common ancestor, or runs out of a list.**  Before the index `k` the
ancestor is at most `2^k` down. -/
theorem descend_spec {x y c : Nat} {C : Link} (hx : s.HasLink x) (hy : s.HasLink y)
    (hc : DeepestCommon s.numParent x y c) (hC : s.links[c]? = some C) : ∀ (k : Nat) {n m i j : Nat} {F O : Link},
    up s.numParent i x = some n → up s.numParent j y = some m → s.links[n]? = some F → s.links[m]? = some O →
    F.height = O.height → C.height < F.height → F.height - C.height ≤ 2 ^ k →
    (descentSafe k F.height C.height → ∃ F' O', s.descend F O k = .ok (F', O') ∧ F'.parents[0]? = some c) ∧
    (¬ descentSafe k F.height C.height → s.descend F O k = Go.panic "index out of range") := by
  intro k
  induction k with
  | zero =>
    intro n m i j F O hn hm hF hO hFO hCF hd
    refine ⟨fun _ => ⟨F, O, rfl, ?_⟩, fun h => absurd trivial h⟩
    obtain ⟨p, P, hp, hP, hu, hh⟩ := R.skip hF (i := 0) (by have := (R.link_height_lt hC).1; omega)
    have hup : up s.numParent (i + 1) x = some p := by rw [up_add, hn]; exact hu
    have hpc : p = c := R.rooted.anc_eq hx ⟨_, hup⟩ hc.left (by
      rw [Storage.numHeight_eq hP, Storage.numHeight_eq hC]
      omega)
    rw [hp, hpc]
  | succ k ih =>
    intro n m i j F O hn hm hF hO hFO hCF hd
    rw [Nat.pow_succ] at hd
    unfold Storage.descend
    by_cases hin : 2 ^ k < F.height
    · obtain ⟨p, P, hp, hP, hup, hhp⟩ := R.skip hF hin
      obtain ⟨q, Q, hq, hQ, huq, hhq⟩ := R.skip hO (hFO ▸ hin)
      have hpx : up s.numParent (i + 2 ^ k) x = some p := by rw [up_add, hn]; exact hup
      have hqy : up s.numParent (j + 2 ^ k) y = some q := by rw [up_add, hm]; exact huq
      have heq : p = q ↔ P.height ≤ C.height := by
        rw [R.rooted.up_eq_iff_le hx hy hc hpx hqy (by
          rw [Storage.numHeight_eq hP, Storage.numHeight_eq hQ]; omega), Storage.numHeight_eq hP,
          Storage.numHeight_eq hC]
      rw [Go.index_eq_ok.2 hp, Go.index_eq_ok.2 hq]
      simp only [Except.bind, bind, Storage.getLink_eq_ok.2 hP, Storage.getLink_eq_ok.2 hQ, Go.wrap_ok]
      by_cases hjump : C.height < F.height - 2 ^ k
      · rw [if_pos (show p ≠ q from fun e => by have := heq.1 e; omega)]
        rw [descentSafe_jump hin hjump, show F.height - 2 ^ k = P.height by omega]
        exact ih hpx hqy hP hQ (by omega) (by omega) (by omega)
      · rw [if_neg (show ¬ p ≠ q from fun hne => hne (heq.2 (by omega)))]
        rw [descentSafe_stay hin hjump]
        exact ih hn hm hF hO hFO hCF (by omega)
    · have hlen := (R.skips n F hF).lt_length (i := k)
      refine ⟨fun h => absurd h (not_descentSafe hin), fun _ => ?_⟩
      rw [Go.index_of_le _ _ (by omega)]
      rfl

theorem anc_iff {a x : BlockID} {m n : Nat} (ha : s.nums[a]? = some m) (hx : s.nums[x]? = some n) :
    Anc t.parent a x ↔ Anc s.numParent m n := by
  constructor
  · rintro ⟨k, hk⟩
    have hid := R.up_idOf (R.hasLink hx) k
    rw [R.idOf_eq hx, hk] at hid
    obtain ⟨m', hm', hma⟩ := Option.map_eq_some_iff.1 hid.symm
    obtain ⟨a', ha', -⟩ := R.up_num hx hm'
    rw [R.idOf_eq ha'] at hma
    subst hma
    exact ⟨k, hm'.trans (ha'.symm.trans ha)⟩
  · rintro ⟨k, hk⟩
    obtain ⟨a', ha', hk'⟩ := R.up_num hx hk
    exact ⟨k, by rw [hk', R.num_inj ha' ha]⟩

theorem deepestCommon_num {x y c : BlockID} {nx ny nc : Nat} (hx : s.nums[x]? = some nx) (hy : s.nums[y]? = some ny)
    (hnc : s.nums[c]? = some nc) (hc : DeepestCommon t.parent x y c) : DeepestCommon s.numParent nx ny nc := by
  refine ⟨(R.anc_iff hnc hx).1 hc.left, (R.anc_iff hnc hy).1 hc.right, fun d hdx hdy => ?_⟩
  obtain ⟨k, hk⟩ := hdx
  obtain ⟨a, ha, hka⟩ := R.up_num hx hk
  exact (R.anc_iff ha hnc).1 (hc.deepest a ⟨k, hka⟩ ((R.anc_iff ha hy).2 hdy))

theorem link_of_num {id : BlockID} {n : Nat} (h : s.nums[id]? = some n) :
    ∃ k, s.links[n]? = some k ∧ k.blockID = id.bytes ∧ k.height = t.height id := by
  obtain ⟨nd, b, k, hnd, r⟩ := R.of_num h
  exact ⟨k, r.link, r.link_id, by rw [r.link_height, BlockTree.height_eq hnd]⟩

/-- **The two ends of `lca`**, the farther block first: the deepest common ancestor, or a panic in the descent. -/
theorem lcaOfLinks_spec {x y c : BlockID} {nx ny : Nat} {F O : Link} (hx : s.nums[x]? = some nx)
    (hy : s.nums[y]? = some ny) (hF : s.links[nx]? = some F) (hO : s.links[ny]? = some O) (hle : O.height ≤ F.height)
    (hc : DeepestCommon t.parent x y c) :
    (InRange (t.height c) (O.height - t.height c) → s.lcaOfLinks F O = .ok c) ∧
    (¬ InRange (t.height c) (O.height - t.height c) → s.lcaOfLinks F O = Go.panic "index out of range") := by
  obtain ⟨nc, hnc⟩ := Option.isSome_iff_exists.1
    (R.stored_iff.1 (t.isRooted.anc_node (R.num_stored x nx hx).1 hc.left))
  obtain ⟨C, hC, hCid, hCh⟩ := R.link_of_num hnc
  have hcn := R.deepestCommon_num hx hy hnc hc
  have hcy := R.rooted.anc_height_le (R.hasLink hy) hcn.right
  rw [Storage.numHeight_eq hC, Storage.numHeight_eq hO] at hcy
  have hC0 := (R.link_height_lt hC).1
  have hlen : F.parents.length = Nat.clog 2 F.height := (R.skips nx F hF).length_eq
  obtain ⟨m, M, hwalk, hM, hMh, hup⟩ := R.fastBackward_spec (R.link_height_lt hO).1 F.parents.length hF hle
    (Nat.le_refl _) (by
      rw [hlen]
      have := Nat.le_pow_clog Nat.one_lt_two F.height
      have := (R.link_height_lt hO).1
      omega)
  obtain ⟨z, hz, -⟩ := R.up_num hx hup
  have hMid : M.blockID = z.bytes := by
    obtain ⟨k, hk, hid, -⟩ := R.link_of_num hz
    obtain rfl : k = M := Option.some.inj (hk.symm.trans hM)
    exact hid
  have hOid : O.blockID = y.bytes := by
    obtain ⟨k, hk, hid, -⟩ := R.link_of_num hy
    obtain rfl : k = O := Option.some.inj (hk.symm.trans hO)
    exact hid
  -- the block reached is an ancestor of `y` exactly when it is `y`
  have hsame : m = ny ↔ O.height ≤ C.height := by
    rw [R.rooted.up_eq_iff_le (R.hasLink hx) (R.hasLink hy) hcn hup (n := 0) rfl (by
      rw [Storage.numHeight_eq hM, Storage.numHeight_eq hO, hMh]), Storage.numHeight_eq hM,
      Storage.numHeight_eq hC, hMh]
  have hids : M.blockID = O.blockID ↔ m = ny := by
    rw [hMid, hOid]
    constructor
    · intro h
      have hzy := BlockID.ext_bytes h
      rw [hzy, hy] at hz
      exact (Option.some.inj hz).symm
    · rintro rfl
      rw [R.num_inj hz hy]
  unfold Storage.lcaOfLinks Storage.fastBackwardFarthest
  rw [hwalk]
  simp only [Go.wrap_ok, bind, Except.bind]
  by_cases hmy : m = ny
  · -- `y` itself is the common ancestor
    have hOC : O.height = C.height := Nat.le_antisymm (hsame.1 hmy) hcy
    rw [if_pos (hids.2 hmy), hMid, Proto.newBlockIDFromBytes_bytes]
    have hzc : z = c := by
      have hcm : nc = ny := R.rooted.anc_eq (R.hasLink hy) hcn.right (.refl ny) (by
        rw [Storage.numHeight_eq hC, Storage.numHeight_eq hO, hOC])
      rw [hmy, ← hcm] at hz
      exact R.num_inj hz hnc
    refine ⟨fun _ => by rw [hzc], fun h => absurd ?_ h⟩
    exact inRange_of_le (by omega)
  · rw [if_neg (fun h => hmy (hids.1 h))]
    have hOC : C.height < O.height := Nat.lt_of_not_le fun h => hmy (hsame.2 h)
    have hMlen : M.parents.length = Nat.clog 2 M.height := (R.skips m M hM).length_eq
    have hMpow := Nat.le_pow_clog Nat.one_lt_two M.height
    obtain ⟨hsafe, hpanic⟩ := R.descend_spec (R.hasLink hx) (R.hasLink hy) hcn hC M.parents.length hup
      (j := 0) rfl hM hO hMh (hMh ▸ hOC) (by rw [hMlen]; omega)
    rw [hMlen, descentSafe_iff (hMh ▸ hOC) hC0, hMh, hCh] at hsafe hpanic
    rw [hMlen, hMh]
    refine ⟨fun h => ?_, fun h => ?_⟩
    · obtain ⟨F', O', hd, hp⟩ := hsafe h
      rw [hd]
      simp only [Go.index_eq_ok.2 hp, Storage.getLink_eq_ok.2 hC, Go.wrap_ok, hCid, Proto.newBlockIDFromBytes_bytes]
    · rw [hpanic h]
      rfl

/-- **`lca` returns the deepest common ancestor exactly when the shorter branch is in range**, and panics otherwise. -/
theorem lca_spec {x y c : BlockID} (hx : t.Stored x) (hy : t.Stored y) (hc : DeepestCommon t.parent x y c) :
    (InRange (t.height c) (min (t.height x) (t.height y) - t.height c) → s.lca x y = .ok c) ∧
    (¬ InRange (t.height c) (min (t.height x) (t.height y) - t.height c) →
      s.lca x y = Go.panic "index out of range") := by
  obtain ⟨nx, hnx⟩ := Option.isSome_iff_exists.1 (R.stored_iff.1 hx)
  obtain ⟨ny, hny⟩ := Option.isSome_iff_exists.1 (R.stored_iff.1 hy)
  obtain ⟨X, hX, -, hXh⟩ := R.link_of_num hnx
  obtain ⟨Y, hY, -, hYh⟩ := R.link_of_num hny
  unfold Storage.lca
  rw [Storage.getLinkByID_eq_ok.2 ⟨nx, hnx, hX⟩, Storage.getLinkByID_eq_ok.2 ⟨ny, hny, hY⟩]
  simp only [Go.wrap_ok, bind, Except.bind]
  by_cases h : X.height < Y.height
  · rw [if_pos h, Nat.min_eq_left (by omega), ← hXh]
    exact R.lcaOfLinks_spec hny hnx hY hX (Nat.le_of_lt h) hc.symm
  · rw [if_neg h, Nat.min_eq_right (by omega), ← hYh]
    exact R.lcaOfLinks_spec hnx hny hX hY (Nat.le_of_not_lt h) hc

theorem lca_comm {x y : BlockID} (hx : t.Stored x) (hy : t.Stored y) : s.lca x y = s.lca y x := by
  obtain ⟨c, hc⟩ := t.isRooted.exists_deepestCommon hy _ x hx rfl
  obtain ⟨h1, h2⟩ := R.lca_spec hx hy hc
  obtain ⟨h3, h4⟩ := R.lca_spec hy hx hc.symm
  rw [Nat.min_comm] at h3 h4
  by_cases hr : InRange (t.height c) (min (t.height x) (t.height y) - t.height c)
  · rw [h1 hr, h3 hr]
  · rw [h2 hr, h4 hr]

end Refines

/-- **When `lca` returns the deepest common ancestor**, in either order of its arguments. -/
theorem lca_deepest_iff {gw : Gowaves} {scheme : Proto.Scheme} {genesis : Proto.Block} {l : Linkage}
    {t : BlockTree BlockID} (h : Reachable gw scheme genesis l t) {x y : BlockID} (hx : t.Stored x)
    (hy : t.Stored y) :
    (∃ c, l.st.lca x y = .ok c ∧ l.st.lca y x = .ok c ∧ DeepestCommon t.parent x y c) ↔
      InRange (commonCount t.parent x y) (min (t.height x) (t.height y) - commonCount t.parent x y) := by
  have R := h.mirrors.refines
  obtain ⟨c, hc⟩ := t.isRooted.exists_deepestCommon hy _ x hx rfl
  rw [t.isRooted.commonCount_eq hx hc]
  obtain ⟨hok, hpanic⟩ := R.lca_spec hx hy hc
  constructor
  · rintro ⟨c', h1, -, -⟩
    by_contra hr
    rw [hpanic hr] at h1
    cases h1
  · intro hr
    exact ⟨c, hok hr, by rw [← R.lca_comm hx hy, hok hr], hc⟩

namespace Sample

/-- Two forks of five key blocks from the genesis block. -/
def longForks : List Call :=
  [key 2 1, key 3 2, key 4 3, key 5 4, key 6 5, key 7 1, key 8 7, key 9 8, key 10 9, key 11 10]

theorem stored {calls : List Call} {l : Linkage} (h : after calls = .ok l) {n : UInt8}
    (hn : l.st.hasBlock (id n) = .ok true) : (tree calls).Stored (id n) :=
  (reachable h).mirrors.refines.hasBlock_iff.1 hn

theorem longForks_stored {l : Linkage} (h : after longForks = .ok l) :
    (tree longForks).Stored (id 6) ∧ (tree longForks).Stored (id 11) := by
  have h6 : (after longForks >>= fun l => l.st.hasBlock (id 6)) = .ok true := by decide +kernel
  have h11 : (after longForks >>= fun l => l.st.hasBlock (id 11)) = .ok true := by decide +kernel
  rw [h] at h6 h11
  exact ⟨stored h h6, stored h h11⟩

end Sample

theorem lca_deepest_iff_sample : ∃ l, Sample.after Sample.longForks = .ok l ∧
    ((∃ c, l.st.lca (Sample.id 6) (Sample.id 11) = .ok c ∧ l.st.lca (Sample.id 11) (Sample.id 6) = .ok c ∧
        DeepestCommon (Sample.tree Sample.longForks).parent (Sample.id 6) (Sample.id 11) c) ↔
      InRange (commonCount (Sample.tree Sample.longForks).parent (Sample.id 6) (Sample.id 11))
        (min ((Sample.tree Sample.longForks).height (Sample.id 6))
            ((Sample.tree Sample.longForks).height (Sample.id 11)) -
          commonCount (Sample.tree Sample.longForks).parent (Sample.id 6) (Sample.id 11))) := by
  obtain ⟨l, h⟩ := Go.exists_of_isOk (x := Sample.after Sample.longForks) (by decide +kernel)
  obtain ⟨h6, h11⟩ := Sample.longForks_stored h
  exact ⟨l, h, lca_deepest_iff (Sample.reachable h) h6 h11⟩

/-- **Forks long for their common part break `lca`**: the jump of four from height six lands at height two, whose list
has one entry, and the next index is one. -/
theorem lca_panics : ∃ l, Reachable Sample.gowaves 87 (Sample.block 1 0) l (Sample.tree Sample.longForks) ∧
    (Sample.tree Sample.longForks).Stored (Sample.id 6) ∧ (Sample.tree Sample.longForks).Stored (Sample.id 11) ∧
    l.st.lca (Sample.id 6) (Sample.id 11) = Go.panic "index out of range" := by
  obtain ⟨l, h⟩ := Go.exists_of_isOk (x := Sample.after Sample.longForks) (by decide +kernel)
  obtain ⟨h6, h11⟩ := Sample.longForks_stored h
  have hlca : (Sample.after Sample.longForks >>= fun l => l.st.lca (Sample.id 6) (Sample.id 11)) =
      Go.panic "index out of range" := by decide +kernel
  rw [h] at hlca
  exact ⟨l, Sample.reachable h, h6, h11, hlca⟩

end Chains
end ForkDetector
