import ForkDetector.Chains.Ranges
/-!
# Contributions — what the score of a block is made of

A score is stored with each block and grows along one field: a key block adds what its base target is worth to the
score of its parent, and a micro-block copies the score of the block it references, on whose parent it stands.  Over
any calls the score of a block is the sum of the contributions along its parent path (`scores_add_up`), a micro-block
contributing what the key block under it does.
-/
namespace ForkDetector
namespace Chains

open Ancestry
open Proto (BlockID Gowaves MicroBlockInv)

/-- What a key block with a base target contributes. -/
def contribution (baseTarget : UInt64) : Int := if baseTarget = 0 then 0 else 2 ^ 64 / baseTarget.toNat

/-- The base targets that the blocks were put with, after one more call that returns. -/
def Linkage.noteTarget (l : Linkage) (targets : BlockID → UInt64) : Call → BlockID → UInt64
  | .putBlock b _ => if l.st.nums[b.blockID]? = none then Function.update targets b.blockID b.baseTarget else targets
  | .putMicroBlock _ _ => targets
  | .moveLeash _ _ => targets

/-- **The states that calls reach**, with the base target of each key block there. -/
inductive ReachableWith (gw : Gowaves) (scheme : Proto.Scheme) (genesis : Proto.Block) :
    Linkage → BlockTree BlockID → (BlockID → UInt64) → Prop where
  | start {l : Linkage} : newLinkage gw scheme genesis = .ok l →
      ReachableWith gw scheme genesis l (.single genesis.blockID) fun _ => genesis.baseTarget
  | call {l l' : Linkage} {t : BlockTree BlockID} {targets : BlockID → UInt64} (c : Call) :
      ReachableWith gw scheme genesis l t targets → l.call gw c = .ok l' →
      ReachableWith gw scheme genesis l' (t.call c) (l.noteTarget targets c)

/-- The key block that `x` is, or that it references through other micro-blocks. -/
def KeyBlockOf (t : BlockTree BlockID) (k x : BlockID) : Prop :=
  Copies t k x ∧ ∃ nd, t.node k = some nd ∧ ∀ r, nd.origin ≠ .microBlock r

/-- **Every score is the sum of what the blocks of the parent path contribute**, and grows along the path. -/
structure ScoresAddUp (l : Linkage) (t : BlockTree BlockID) (targets : BlockID → UInt64) : Prop where
  keyBlock : ∀ x, t.Stored x → ∃! k, KeyBlockOf t k x
  toRoot : ∀ x, t.Stored x → (path t.parent (t.height x) x).length = t.height x ∧
    (path t.parent (t.height x) x).getLast? = some t.root
  sum : ∀ (key : BlockID → BlockID), (∀ a, t.Stored a → KeyBlockOf t (key a) a) →
    ∀ (x : BlockID) (b : StoredBlock), l.st.block x = .ok b →
    b.score = ((path t.parent (t.height x) x).map fun a => contribution (targets (key a))).sum
  le : ∀ (a x : BlockID) (ba bx : StoredBlock), Anc t.parent a x → l.st.block a = .ok ba → l.st.block x = .ok bx →
    ba.score ≤ bx.score
  lt : ∀ (a x k : BlockID) (ba bx : StoredBlock), Anc t.parent a x → a ≠ x → KeyBlockOf t k x → targets k ≠ 0 →
    l.st.block a = .ok ba → l.st.block x = .ok bx → ba.score < bx.score

theorem ReachableWith.reachable {gw : Gowaves} {scheme : Proto.Scheme} {genesis : Proto.Block} {l : Linkage}
    {t : BlockTree BlockID} {targets : BlockID → UInt64} (h : ReachableWith gw scheme genesis l t targets) :
    Reachable gw scheme genesis l t := by
  induction h with
  | start h => exact .start h
  | call c _ hc ih => exact .call c ih hc

/-- Nothing is left out by keeping the base targets. -/
theorem reachableWith_iff {gw : Gowaves} {scheme : Proto.Scheme} {genesis : Proto.Block} {l : Linkage}
    {t : BlockTree BlockID} :
    Reachable gw scheme genesis l t ↔ ∃ targets, ReachableWith gw scheme genesis l t targets := by
  refine ⟨fun h => ?_, fun ⟨_, h⟩ => h.reachable⟩
  induction h with
  | start h => exact ⟨_, .start h⟩
  | call c _ hc ih =>
    obtain ⟨targets, ih⟩ := ih
    exact ⟨_, .call c ih hc⟩

/-! ## One block -/

theorem calculateScore_eq_ok {baseTarget : UInt64} {score : Int} (h : calculateScore baseTarget = .ok score) :
    score = contribution baseTarget ∧ baseTarget.toNat ≤ 9223372036854775807 := by
  unfold calculateScore at h
  unfold contribution
  split at h
  · rename_i h0
    cases h
    exact ⟨(if_pos h0).symm, by rw [h0]; decide⟩
  · rename_i h0
    split at h
    · cases h
    · cases h
      exact ⟨(if_neg h0).symm, by omega⟩

theorem contribution_nonneg (baseTarget : UInt64) : 0 ≤ contribution baseTarget := by
  unfold contribution
  split
  · exact Int.le_refl _
  · exact Int.ediv_nonneg (by decide) (Int.natCast_nonneg _)

theorem contribution_pos {baseTarget : UInt64} (h0 : baseTarget ≠ 0) : 0 < contribution baseTarget := by
  unfold contribution
  rw [if_neg h0]
  have hpos : 0 < baseTarget.toNat := Nat.pos_of_ne_zero fun h => h0 (UInt64.toNat_inj.1 h)
  have hlt := baseTarget.toNat_lt
  refine (Int.le_ediv_iff_mul_le (Int.natCast_pos.2 hpos)).2 ?_
  omega

theorem Linkage.scoreOf_eq {l : Linkage} {x : BlockID} {b : StoredBlock} (h : l.st.block x = .ok b) :
    l.scoreOf x = b.score := by
  unfold scoreOf
  rw [h]

theorem Kept.scoreOf {gw : Gowaves} {l l' : Linkage} {t t' : BlockTree BlockID} (K : Kept l l' t t')
    (S : Stands gw l t) {x : BlockID} (hx : t.Stored x) : l'.scoreOf x = l.scoreOf x := by
  unfold Linkage.scoreOf
  rw [K.getBlock S hx]

theorem noteTarget_of_num {l : Linkage} {targets : BlockID → UInt64} {x : BlockID} {n : Nat}
    (hx : l.st.nums[x]? = some n) (c : Call) : l.noteTarget targets c x = targets x := by
  cases c with
  | putBlock b addr =>
    simp only [Linkage.noteTarget]
    split
    · rename_i hn
      exact Function.update_of_ne (fun e => by rw [← e, hx] at hn; cases hn) _ _
    · rfl
  | putMicroBlock inv addr => rfl
  | moveLeash id addr => rfl

theorem noteTarget_of_new {l : Linkage} {targets : BlockID → UInt64} {b : Proto.Block} {addr : Addr}
    (hn : l.st.nums[b.blockID]? = none) :
    l.noteTarget targets (.putBlock b addr) b.blockID = b.baseTarget := by
  simp only [Linkage.noteTarget, if_pos hn, Function.update_self]

/-- A block just inserted has the score of its record. -/
theorem Growth.scoreOf {gw : Gowaves} {l : Linkage} {s' : Storage} {t : BlockTree BlockID} {id p e : BlockID}
    {origin : Origin BlockID} {ext : Nat} {b : StoredBlock} {parents : List Nat}
    (G : Growth gw l.st s' t id p e origin ext b parents) (addr : Addr) :
    ((⟨l.genesis, s'⟩ : Linkage).moveLeash id addr).scoreOf id = b.score := by
  obtain ⟨-, -, hnums, hblocks, -, -⟩ := G.inserted.fields
  refine Linkage.scoreOf_eq (Storage.getBlockByID_eq_ok.2 ⟨l.st.blocksCounter + 1, ?_, ?_⟩)
  · show s'.nums[id]? = _
    rw [hnums, Go.getElem?_insert_eq, if_pos rfl]
  · show s'.blocks[l.st.blocksCounter + 1]? = _
    rw [hblocks, Go.getElem?_insert_eq, if_pos rfl]

/-! ## Every reachable state -/

/-- How the score of one block comes from that of another. -/
structure Scored (l : Linkage) (t : BlockTree BlockID) (targets : BlockID → UInt64) : Prop where
  keyBlock : ∀ (x : BlockID) (nd : Node BlockID), t.node x = some nd → (∀ r, nd.origin ≠ .microBlock r) →
    l.scoreOf x = contribution (targets x) + nd.parent.elim 0 l.scoreOf
  microBlock : ∀ (x r : BlockID) (nd : Node BlockID), t.node x = some nd → nd.origin = .microBlock r →
    l.scoreOf x = l.scoreOf r

theorem scored_start {gw : Gowaves} {scheme : Proto.Scheme} {genesis : Proto.Block} {l : Linkage}
    (h : newLinkage gw scheme genesis = .ok l) :
    Scored l (.single genesis.blockID) fun _ => genesis.baseTarget := by
  obtain ⟨ga, score, -, hscore, rfl⟩ := newLinkage_eq_ok h
  have hnode : ∀ (x : BlockID) (nd : Node BlockID), (BlockTree.single genesis.blockID).node x = some nd →
      x = genesis.blockID ∧ nd = ⟨.genesis, none, 1⟩ := fun x nd hx => by
    simp only [BlockTree.single] at hx
    split at hx
    · rename_i e
      cases hx
      exact ⟨e, rfl⟩
    · cases hx
  refine ⟨fun x nd hx _ => ?_, fun x r nd hx ho => ?_⟩
  · obtain ⟨rfl, rfl⟩ := hnode x nd hx
    rw [← (calculateScore_eq_ok hscore).1, Option.elim_none, Int.add_zero]
    refine Linkage.scoreOf_eq (b := ⟨1, genesis.timestamp, score, genesis.blockID.bytes, [], ga.bytes⟩)
      (Storage.getBlockByID_eq_ok.2 ⟨1, ?_, ?_⟩)
    · exact by rw [Go.getElem?_insert_eq, if_pos rfl]
    · exact by rw [Go.getElem?_insert_eq, if_pos rfl]
  · obtain ⟨-, rfl⟩ := hnode x nd hx
    cases ho

namespace Scored
variable {gw : Gowaves} {l l' : Linkage} {t t' : BlockTree BlockID} {targets targets' : BlockID → UInt64}

/-- The blocks there were keep the law. -/
theorem kept (H : Scored l t targets) (S : Stands gw l t) (K : Kept l l' t t')
    (htargets : ∀ x, t.Stored x → targets' x = targets x) {x : BlockID} {nd : Node BlockID} (hx : t.Stored x)
    (hnd : t'.node x = some nd) :
    ((∀ r, nd.origin ≠ .microBlock r) → l'.scoreOf x = contribution (targets' x) + nd.parent.elim 0 l'.scoreOf) ∧
    ∀ r, nd.origin = .microBlock r → l'.scoreOf x = l'.scoreOf r := by
  rw [K.node x hx] at hnd
  rw [K.scoreOf S hx, htargets x hx]
  constructor
  · intro ho
    rw [H.keyBlock x nd hnd ho]
    cases hp : nd.parent with
    | none => rfl
    | some p =>
      have hps := (t.isRooted.step x p hx ((BlockTree.parent_eq hnd).trans hp)).1
      rw [Option.elim_some, Option.elim_some, K.scoreOf S hps]
  · intro r ho
    rw [H.microBlock x r nd hnd ho, K.scoreOf S (t.extended_stored x nd r hnd (by rw [ho]; rfl))]

theorem call {scheme : Proto.Scheme} {genesis : Proto.Block} (H : Scored l t targets)
    (h : Reachable gw scheme genesis l t) {c : Call} (hc : l.call gw c = .ok l') :
    Scored l' (t.call c) (l.noteTarget targets c) := by
  have S := h.stands
  have K := h.kept_call hc
  have htargets : ∀ x, t.Stored x → l.noteTarget targets c x = targets x := fun x hx => by
    obtain ⟨n, hn⟩ := Option.isSome_iff_exists.1 (S.refines.stored_iff.1 hx)
    exact noteTarget_of_num hn c
  -- a block that was not there is the one that the call inserts
  have hnew : ∀ (x : BlockID) (nd : Node BlockID), (t.call c).node x = some nd → ¬ t.Stored x →
      ((∀ r, nd.origin ≠ .microBlock r) →
        l'.scoreOf x = contribution (l.noteTarget targets c x) + nd.parent.elim 0 l'.scoreOf) ∧
      ∀ r, nd.origin = .microBlock r → l'.scoreOf x = l'.scoreOf r := by
    intro x nd hnd hx
    cases c with
    | putBlock b addr =>
      rcases S.refines.putBlock_cases hc with ⟨-, -, ht⟩ | ⟨s', ext, pb, nb, parents, G, hpb, hnb, rfl, ht⟩
      · rw [show t.call (.putBlock b addr) = t from ht] at hnd
        exact absurd (BlockTree.stored_of_node hnd) hx
      · rw [show t.call (.putBlock b addr) = G.tree from ht] at hnd K
        obtain ⟨rfl, ho⟩ := G.node_of_new hnd hx
        obtain ⟨ga, score, -, hscore, rfl⟩ := newBlock_eq_ok hnb
        rw [ho]
        refine ⟨fun _ => ?_, fun r h => by cases h⟩
        rw [show G.tree.node b.blockID = _ from BlockTree.grow_node_self] at hnd
        cases hnd
        rw [G.scoreOf addr, Option.elim_some, K.scoreOf S G.parent_stored,
          Linkage.scoreOf_eq (Storage.getBlockByID_eq_ok.2 ⟨ext, G.extended_num, hpb⟩)]
        rw [noteTarget_of_new (S.refines.nums_eq_none hx), (calculateScore_eq_ok hscore).1]
    | putMicroBlock inv addr =>
      rcases S.refines.putMicroBlock_cases hc with ⟨-, -, ht⟩ | ⟨s', p, ext, rb, parents, G, hrb, -, rfl, ht⟩
      · rw [show t.call (.putMicroBlock inv addr) = t from ht] at hnd
        exact absurd (BlockTree.stored_of_node hnd) hx
      · rw [show t.call (.putMicroBlock inv addr) = G.tree from ht] at hnd K
        obtain ⟨rfl, ho⟩ := G.node_of_new hnd hx
        rw [ho]
        refine ⟨fun h => absurd rfl (h inv.reference), fun r h => ?_⟩
        cases h
        rw [G.scoreOf addr, K.scoreOf S G.extended_stored,
          Linkage.scoreOf_eq (Storage.getBlockByID_eq_ok.2 ⟨ext, G.extended_num, hrb⟩)]
    | moveLeash id addr => exact absurd (BlockTree.stored_of_node hnd) hx
  have hall : ∀ (x : BlockID) (nd : Node BlockID), (t.call c).node x = some nd →
      ((∀ r, nd.origin ≠ .microBlock r) →
        l'.scoreOf x = contribution (l.noteTarget targets c x) + nd.parent.elim 0 l'.scoreOf) ∧
      ∀ r, nd.origin = .microBlock r → l'.scoreOf x = l'.scoreOf r := fun x nd hnd => by
    by_cases hx : t.Stored x
    · exact H.kept S K htargets hx hnd
    · exact hnew x nd hnd hx
  exact ⟨fun x nd hnd => (hall x nd hnd).1, fun x r nd hnd => (hall x nd hnd).2 r⟩

end Scored

theorem ReachableWith.scored {gw : Gowaves} {scheme : Proto.Scheme} {genesis : Proto.Block} {l : Linkage}
    {t : BlockTree BlockID} {targets : BlockID → UInt64} (h : ReachableWith gw scheme genesis l t targets) :
    Scored l t targets := by
  induction h with
  | start h => exact scored_start h
  | call c hr hc ih => exact ih.call hr.reachable hc

/-! ## The key block of a block -/

theorem Copies.kept {l l' : Linkage} {t t' : BlockTree BlockID} (K : Kept l l' t t') {k x : BlockID}
    (h : Copies t k x) : Copies t' k x := by
  induction h with
  | self => exact .self
  | micro _ hnd ho ih => exact .micro ih ((K.node _ (BlockTree.stored_of_node hnd)).trans hnd) ho

theorem KeyBlockOf.kept {l l' : Linkage} {t t' : BlockTree BlockID} (K : Kept l l' t t') {k x : BlockID}
    (h : KeyBlockOf t k x) : KeyBlockOf t' k x := by
  obtain ⟨hc, nd, hnd, ho⟩ := h
  exact ⟨hc.kept K, nd, (K.node k (BlockTree.stored_of_node hnd)).trans hnd, ho⟩

theorem KeyBlockOf.unique {t : BlockTree BlockID} {k k' x : BlockID} (h : KeyBlockOf t k x)
    (h' : KeyBlockOf t k' x) : k = k' := by
  obtain ⟨hc, nd, hnd, ho⟩ := h
  obtain ⟨hc', nd', hnd', ho'⟩ := h'
  induction hc with
  | self =>
    cases hc' with
    | self => rfl
    | micro _ hx hor =>
      rw [hnd] at hx
      cases hx
      exact absurd hor (ho _)
  | micro _ hx hor ih =>
    cases hc' with
    | self =>
      rw [hnd'] at hx
      cases hx
      exact absurd hor (ho' _)
    | micro hc' hx' hor' =>
      rw [hx] at hx'
      cases hx'
      rw [hor] at hor'
      cases hor'
      exact ih hc'

/-- **Every stored block has a key block.** -/
theorem Reachable.exists_keyBlock {gw : Gowaves} {scheme : Proto.Scheme} {genesis : Proto.Block} {l : Linkage}
    {t : BlockTree BlockID} (h : Reachable gw scheme genesis l t) : ∀ x, t.Stored x → ∃ k, KeyBlockOf t k x := by
  induction h with
  | start h =>
    intro x hx
    obtain ⟨nd, hnd⟩ := hx.node
    refine ⟨x, .self, nd, hnd, fun r ho => ?_⟩
    simp only [BlockTree.single] at hnd
    split at hnd
    · cases hnd; cases ho
    · cases hnd
  | @call l l' t c h hc ih =>
    intro x hx
    have K := h.kept_call hc
    obtain ⟨nd, hnd⟩ := hx.node
    by_cases hxs : t.Stored x
    · obtain ⟨k, hk⟩ := ih x hxs
      exact ⟨k, hk.kept K⟩
    · -- a new micro-block has the key block of a block that was there
      rcases h.mirrors.call_cases hc with ⟨-, -, -, -, ht⟩ | ⟨s', id, p, e, origin, ext, b, parents, -, G, -, ht⟩
      · rw [ht] at hx
        exact absurd hx hxs
      · rw [ht] at hnd K ⊢
        obtain ⟨rfl, ho⟩ := G.node_of_new hnd hxs
        cases hor : nd.origin with
        | microBlock r =>
          have hr : t.Stored r := by
            have he := G.extended_eq
            rw [← ho, hor] at he
            cases he
            exact G.extended_stored
          obtain ⟨k, hk⟩ := ih r hr
          obtain ⟨hc', hkey⟩ := hk.kept K
          exact ⟨k, .micro hc' hnd hor, hkey⟩
        | genesis => exact ⟨x, .self, nd, hnd, fun r h => by rw [hor] at h; cases h⟩
        | keyBlock q => exact ⟨x, .self, nd, hnd, fun r h => by rw [hor] at h; cases h⟩

/-- What a block adds to the score of its parent is what its key block contributes. -/
theorem ReachableWith.scoreOf_eq {gw : Gowaves} {scheme : Proto.Scheme} {genesis : Proto.Block} {l : Linkage}
    {t : BlockTree BlockID} {targets : BlockID → UInt64} (h : ReachableWith gw scheme genesis l t targets)
    {k x : BlockID} (hk : KeyBlockOf t k x) :
    l.scoreOf x = contribution (targets k) + (t.parent x).elim 0 l.scoreOf := by
  obtain ⟨hc, nd, hnd, ho⟩ := hk
  induction hc with
  | self => rw [h.scored.keyBlock k nd hnd ho, BlockTree.parent_eq hnd]
  | @micro y r nd' hc hy hor ih =>
    obtain ⟨-, -, hp⟩ := h.reachable.copied hy hor
    rw [h.scored.microBlock y r nd' hy hor, ih, hp]

/-! ## Along the parent path -/

namespace ReachableWith
variable {gw : Gowaves} {scheme : Proto.Scheme} {genesis : Proto.Block} {l : Linkage} {t : BlockTree BlockID}
  {targets : BlockID → UInt64} (h : ReachableWith gw scheme genesis l t targets)
include h

theorem scoreOf_parent_le {x p : BlockID} (hp : t.parent x = some p) : l.scoreOf p ≤ l.scoreOf x := by
  obtain ⟨k, hk⟩ := h.reachable.exists_keyBlock x (BlockTree.stored_of_parent hp)
  have hc := contribution_nonneg (targets k)
  rw [h.scoreOf_eq hk, hp, Option.elim_some]
  omega

theorem scoreOf_parent_lt {x p k : BlockID} (hp : t.parent x = some p) (hk : KeyBlockOf t k x)
    (h0 : targets k ≠ 0) : l.scoreOf p < l.scoreOf x := by
  have hc := contribution_pos h0
  rw [h.scoreOf_eq hk, hp, Option.elim_some]
  omega

theorem scoreOf_anc_le {a x : BlockID} (ha : Anc t.parent a x) : l.scoreOf a ≤ l.scoreOf x := by
  obtain ⟨i, hi⟩ := ha
  induction i generalizing x with
  | zero =>
    cases hi
    exact Int.le_refl _
  | succ i ih =>
    rw [Nat.add_comm, up_add, up_one] at hi
    obtain ⟨p, hp, hi⟩ := Option.bind_eq_some_iff.1 hi
    exact (ih hi).trans (h.scoreOf_parent_le hp)

end ReachableWith

/-- **The score of every block is the sum of the contributions along its parent path**, whatever was put and in
whatever order, and grows from an ancestor to its descendants. -/
theorem scores_add_up {gw : Gowaves} {scheme : Proto.Scheme} {genesis : Proto.Block} {l : Linkage}
    {t : BlockTree BlockID} {targets : BlockID → UInt64} (h : ReachableWith gw scheme genesis l t targets) :
    ScoresAddUp l t targets := by
  have S := h.reachable.stands
  have T := t.isRooted
  have hread : ∀ {x b}, l.st.block x = .ok b → t.Stored x ∧ l.scoreOf x = b.score := fun hb => by
    obtain ⟨n, hn, -⟩ := Storage.getBlockByID_eq_ok.1 hb
    exact ⟨(S.refines.num_stored _ n hn).1, Linkage.scoreOf_eq hb⟩
  refine ⟨fun x hx => ?_, fun x hx => ⟨?_, T.path_getLast? hx (Nat.le_refl _)⟩, fun key hkey x b hb => ?_,
    fun a x ba bx ha hba hbx => ?_, fun a x k ba bx ha hne hk h0 hba hbx => ?_⟩
  · obtain ⟨k, hk⟩ := h.reachable.exists_keyBlock x hx
    exact ⟨k, hk, fun k' hk' => hk'.unique hk⟩
  · rw [T.path_length hx, Nat.min_self]
  · obtain ⟨hx, hs⟩ := hread hb
    rw [← hs]
    refine T.sum_path ?_ (fun a p ha hp => ?_) hx (Nat.le_refl _)
    · rw [h.scoreOf_eq (hkey _ T.root_node), (T.parent_eq_none _ T.root_node).2 rfl, Option.elim_none, Int.add_zero]
    · rw [h.scoreOf_eq (hkey a ha), hp, Option.elim_some]
  · rw [← (hread hba).2, ← (hread hbx).2]
    exact h.scoreOf_anc_le ha
  · rw [← (hread hba).2, ← (hread hbx).2]
    obtain rfl | ⟨p, hp, hap⟩ := anc_iff_parent.1 ha
    · exact absurd rfl hne
    · exact Int.lt_of_le_of_lt (h.scoreOf_anc_le hap) (h.scoreOf_parent_lt hp hk h0)

namespace Sample

/-- A key block, a micro-block on it, a key block on that, and a micro-block on a micro-block. -/
def stacked : List Call := [key 2 1, micro 3 2, key 4 3, micro 5 4, micro 6 5]

end Sample

/-- Three key blocks lie under the last micro-block, as it stands on the first micro-block. -/
theorem scores_add_up_sample : ∃ l targets, Sample.after Sample.stacked = .ok l ∧
    ScoresAddUp l (Sample.tree Sample.stacked) targets ∧ l.scoreOf (Sample.id 6) = 3 * contribution 100 := by
  obtain ⟨l, h⟩ := Go.exists_of_isOk (x := Sample.after Sample.stacked) (by decide +kernel)
  have hscore : (Sample.after Sample.stacked).map (fun l => l.scoreOf (Sample.id 6)) = .ok (3 * contribution 100) := by
    decide +kernel
  obtain ⟨targets, hr⟩ := reachableWith_iff.1 (Sample.reachable h)
  rw [h] at hscore
  exact ⟨l, targets, h, scores_add_up hr, Except.ok.inj hscore⟩

end Chains
end ForkDetector
