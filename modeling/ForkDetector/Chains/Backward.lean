import ForkDetector.Lib.Run
import ForkDetector.Chains.Lca
/-!
# Backward — the rounds of the walk down to a height

`fastBackwardFarthest` tries the skips of a link from the longest to the shortest, and starts again at the longest skip
of the link jumped to when that has fewer.  Before the round at an index the link is an ancestor of the first one, the
index is in its list, and what is left of the way is shorter than twice the skip (`OnTheWay`).  So every round stays in
bounds, the walk ends, and it ends at the ancestor of the height asked for (`walks_back`).
-/
namespace ForkDetector
namespace Chains

open Ancestry Lifting
open Proto (BlockID Gowaves)
open Run (Path)

namespace Storage

/-- One round of the loop of `fastBackwardFarthest`: the link after it, and the number of indices still to go. -/
def backwardRound (s : Storage) (other farthest : Link) (i : Nat) : Res (Link × Nat) :=
  if other.height ≤ sub32 farthest.height (2 ^ i) then do
    let n ← Go.index farthest.parents i
    let l ← s.getLink n
    .ok (l, if l.parents.length ≤ i then l.parents.length else i)
  else .ok (farthest, i)

/-- The round at the index `i`, the last of those to go. -/
def Round (s : Storage) (other : Link) (p : Link × Nat) (i : Nat) (p' : Link × Nat) : Prop :=
  p.2 = i + 1 ∧ s.backwardRound other p.1 i = .ok p'

variable {s : Storage} {F O : Link} {p p' : Link × Nat}

theorem fastBackward_succ (i : Nat) :
    s.fastBackward F O (i + 1) = s.backwardRound O F i >>= fun p => s.fastBackward p.1 O p.2 := by
  rw [fastBackward.eq_def]
  unfold backwardRound
  simp only
  split
  · cases Go.index (σ := Sentinel) F.parents i with
    | error f => rfl
    | ok n =>
      cases hl : s.getLink n with
      | error f => simp only [bind, Except.bind, hl]
      | ok l =>
        simp only [bind, Except.bind, hl]
        split <;> rfl
  · rfl

/-- The rounds of the loop lead to what the loop returns. -/
theorem fastBackward_of_path {tr : List (Run.Link (Link × Nat) Nat)} (h : Path (s.Round O) p tr p') :
    s.fastBackward p.1 O p.2 = s.fastBackward p'.1 O p'.2 := by
  induction h with
  | nil => rfl
  | cons h1 _ ih =>
    obtain ⟨hi, hround⟩ := h1
    rw [hi, fastBackward_succ, hround]
    exact ih

end Storage

/-- **A round in bounds**: its index is in the list, the subtraction does not wrap, what is left of the way is shorter
than twice the skip, and fewer indices are to go after it. -/
structure RoundInBounds (O : Link) (x : Run.Link (Link × Nat) Nat) : Prop where
  listed : x.input < x.pre.1.parents.length
  no_wrap : 2 ^ x.input ≤ x.pre.1.height ∧ Storage.sub32 x.pre.1.height (2 ^ x.input) = x.pre.1.height - 2 ^ x.input
  close : x.pre.1.height - O.height < 2 ^ (x.input + 1)
  shorter : x.post.2 < x.pre.2

/-- **The walk from the block `n` before a round.** -/
structure OnTheWay (s : Storage) (O : Link) (n : Nat) (p : Link × Nat) : Prop where
  link : ∃ m, s.links[m]? = some p.1 ∧ Anc s.numParent m n
  above : O.height ≤ p.1.height
  listed : p.2 ≤ p.1.parents.length
  close : p.1.height - O.height < 2 ^ p.2

namespace Refines
variable {gw : Gowaves} {s : Storage} {t : BlockTree BlockID} (R : Refines gw s t) {O : Link} {n i : Nat}
  {p p' : Link × Nat}
include R

theorem onTheWay_start {F : Link} (hF : s.links[n]? = some F) (hle : O.height ≤ F.height) (hO : 0 < O.height) :
    OnTheWay s O n (F, F.parents.length) := by
  refine ⟨⟨n, hF, .refl n⟩, hle, Nat.le_refl _, ?_⟩
  have hpow := Nat.le_pow_clog Nat.one_lt_two F.height
  rw [(R.skips n F hF).length_eq]
  show F.height - O.height < 2 ^ Nat.clog 2 F.height
  omega

/-- The subtraction of a listed skip does not wrap. -/
theorem sub32_skip {m : Nat} {F : Link} (hF : s.links[m]? = some F) (hi : i < F.parents.length) :
    2 ^ i < F.height ∧ Storage.sub32 F.height (2 ^ i) = F.height - 2 ^ i := by
  have hin : 2 ^ i < F.height := (R.skips m F hF).lt_length.1 hi
  have hlt := (R.link_height_lt hF).2
  refine ⟨hin, ?_⟩
  unfold Storage.sub32
  generalize 2 ^ i = skip at hin
  omega

/-- **What a round does on the way**: it returns, and the walk goes on with fewer indices to go. -/
theorem exists_round (hO : 0 < O.height) (h : OnTheWay s O n p) (hi : p.2 = i + 1) :
    ∃ p', s.backwardRound O p.1 i = .ok p' ∧ OnTheWay s O n p' ∧ p'.2 < p.2 := by
  obtain ⟨⟨m, hm, hanc⟩, habove, hlisted, hclose⟩ := h
  obtain ⟨F, k⟩ := p
  obtain rfl : k = i + 1 := hi
  obtain ⟨hin, hsub⟩ := R.sub32_skip hm (Nat.lt_of_succ_le hlisted)
  rw [Nat.pow_succ] at hclose
  unfold Storage.backwardRound
  simp only [hsub] at *
  by_cases hjump : O.height ≤ F.height - 2 ^ i
  · obtain ⟨m', M, hm', hM, hup, hh⟩ := R.skip hm hin
    have hanc' : Anc s.numParent m' n := Anc.trans ⟨_, hup⟩ hanc
    rw [if_pos hjump]
    refine ⟨_, Go.bind_eq_ok.2 ⟨m', Go.index_eq_ok.2 hm', Go.bind_eq_ok.2 ⟨M, Storage.getLink_eq_ok.2 hM, rfl⟩⟩, ?_⟩
    split
    · rename_i hshort
      -- the restarted index covers the whole height of the link jumped to
      have hstart := R.onTheWay_start (n := m') hM (show O.height ≤ M.height by omega) hO
      exact ⟨⟨⟨m', hM, hanc'⟩, hstart.above, hstart.listed, hstart.close⟩, Nat.lt_succ_of_le hshort⟩
    · rename_i hlong
      exact ⟨⟨⟨m', hM, hanc'⟩, by show O.height ≤ M.height; omega, by show i ≤ M.parents.length; omega,
        by show M.height - O.height < 2 ^ i; omega⟩, Nat.lt_succ_self i⟩
  · rw [if_neg hjump]
    exact ⟨_, rfl, ⟨⟨m, hm, hanc⟩, habove, Nat.le_of_succ_le hlisted, by show F.height - O.height < 2 ^ i; omega⟩,
      Nat.lt_succ_self i⟩

theorem round_inBounds (hO : 0 < O.height) (h : OnTheWay s O n p) (hr : s.Round O p i p') :
    OnTheWay s O n p' ∧ RoundInBounds O ⟨p, i, p'⟩ := by
  obtain ⟨hi, hround⟩ := hr
  obtain ⟨q, hq, hon, hlt⟩ := R.exists_round hO h hi
  obtain rfl : q = p' := Except.ok.inj (hq.symm.trans hround)
  obtain ⟨⟨m, hm, -⟩, -, hlisted, hclose⟩ := h
  obtain ⟨hin, hsub⟩ := R.sub32_skip hm (show i < p.1.parents.length by omega)
  exact ⟨hon, show i < p.1.parents.length by omega, ⟨Nat.le_of_lt hin, hsub⟩, hi ▸ hclose, hlt⟩

end Refines

/-- **The walk of `fastBackwardFarthest`** from the link of `x` to the height of `O`: its rounds come to an end, at the
link of the only ancestor of that height, and stay in bounds. -/
structure WalksBack (l : Linkage) (t : BlockTree BlockID) (x : BlockID) (F O : Link) : Prop where
  unique : ∃! a, Anc t.parent a x ∧ t.height a = O.height
  ends : ∀ a, Anc t.parent a x → t.height a = O.height → ∃ L tr, l.st.getLinkByID a = .ok L ∧
    Path (l.st.Round O) (F, F.parents.length) tr (L, 0) ∧ l.st.fastBackwardFarthest F O = .ok L
  inBounds : ∀ tr p, Path (l.st.Round O) (F, F.parents.length) tr p → ∀ r ∈ tr, RoundInBounds O r

/-- **The walk down to the height of another link**, for any two stored links, the first not below the second. -/
theorem walks_back {gw : Gowaves} {scheme : Proto.Scheme} {genesis : Proto.Block} {l : Linkage}
    {t : BlockTree BlockID} (h : Reachable gw scheme genesis l t) {x y : BlockID} {F O : Link}
    (hF : l.st.getLinkByID x = .ok F) (hO : l.st.getLinkByID y = .ok O) (hle : O.height ≤ F.height) :
    WalksBack l t x F O := by
  have R := h.mirrors.refines
  have T := t.isRooted
  obtain ⟨n, hn, hFn, hFh, -, -⟩ := R.getLinkByID hF
  obtain ⟨m, hm, hOm, -, -, -⟩ := R.getLinkByID hO
  have hx := (R.num_stored x n hn).1
  have hO0 := (R.link_height_lt hOm).1
  have hstart := R.onTheWay_start hFn hle hO0
  have hround : ∀ p, OnTheWay l.st O n p → ¬ p.2 = 0 → ∃ i p', l.st.Round O p i p' ∧ OnTheWay l.st O n p' ∧
      p'.2 < p.2 := fun p hp hd => by
    obtain ⟨i, hi⟩ := Nat.exists_eq_succ_of_ne_zero hd
    obtain ⟨p', hp', hon, hlt⟩ := R.exists_round hO0 hp hi
    exact ⟨i, p', ⟨hi, hp'⟩, hon, hlt⟩
  obtain ⟨tr, ⟨L, k⟩, htr, hend, hdone⟩ := Path.exists_done Prod.snd hround hstart
  obtain rfl : k = 0 := hdone
  obtain ⟨⟨q, hq, j, hup⟩, habove, -, hclose⟩ := hend
  obtain ⟨a, ha, hua⟩ := R.up_num hn hup
  have hL : l.st.getLinkByID a = .ok L := Storage.getLinkByID_eq_ok.2 ⟨q, ha, hq⟩
  obtain ⟨_, _, _, hLh, -, -⟩ := R.getLinkByID hL
  have hah : t.height a = O.height := by
    simp only at habove hclose
    omega
  have hone : ∀ b, Anc t.parent b x → t.height b = O.height → b = a := fun b hb hbh =>
    T.anc_eq hx hb ⟨j, hua⟩ (hbh.trans hah.symm)
  refine ⟨⟨a, ⟨⟨j, hua⟩, hah⟩, fun b hb => hone b hb.1 hb.2⟩, fun b hb hbh => ?_, fun tr' p htr' r hr => ?_⟩
  · obtain rfl := hone b hb hbh
    refine ⟨L, tr, hL, htr, ?_⟩
    unfold Storage.fastBackwardFarthest
    rw [Storage.fastBackward_of_path htr, Storage.fastBackward.eq_def]
  · have hkept : ∀ p i p', OnTheWay l.st O n p → l.st.Round O p i p' → OnTheWay l.st O n p' :=
      fun p i p' hp h1 => (R.round_inBounds hO0 hp h1).1
    obtain ⟨hall, -⟩ := Path.invariant hkept hstart htr'
    exact (R.round_inBounds hO0 (hall r hr).1 (htr'.step_of_mem hr)).2

/-- From height six down to height two, by one skip of four. -/
theorem walks_back_sample : ∃ l F O, Sample.after Sample.longForks = .ok l ∧ l.st.getLinkByID (Sample.id 6) = .ok F ∧
    l.st.getLinkByID (Sample.id 7) = .ok O ∧ O.height ≤ F.height ∧
    WalksBack l (Sample.tree Sample.longForks) (Sample.id 6) F O := by
  obtain ⟨l, h⟩ := Go.exists_of_isOk (x := Sample.after Sample.longForks) (by decide +kernel)
  have hlinks : (Sample.after Sample.longForks).map (fun l => (l.st.getLinkByID (Sample.id 6),
      l.st.getLinkByID (Sample.id 7))) = .ok (.ok ⟨6, (Sample.id 6).bytes, [5, 4, 2]⟩,
      .ok ⟨2, (Sample.id 7).bytes, [1]⟩) := by decide +kernel
  rw [h] at hlinks
  obtain ⟨hF, hO⟩ := Prod.mk.inj (Except.ok.inj hlinks)
  exact ⟨l, _, _, h, hF, hO, by decide, walks_back (Sample.reachable h) hF hO (by decide)⟩

end Chains
end ForkDetector
