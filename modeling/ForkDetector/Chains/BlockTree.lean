import Mathlib.Logic.Function.Basic
import ForkDetector.Lib.Ancestry
/-!
# BlockTree — what the block graph is, without a database

A finite history of key blocks and micro-blocks as a rooted tree of IDs.  A key block stands on its parent.  A
micro-block extends the block it references and stands beside it, on that block's parent and at its height.  What
extends what (`Extends`) is not the parent relation, and a leaf is a block that nothing extends.  A tree carries the
proof that it is rooted, and growing it by a block not yet there keeps that proof.
-/
namespace ForkDetector
namespace Chains

open Ancestry

variable {ID : Type}

/-- How a block came into the tree. -/
inductive Origin (ID : Type) where
  | genesis
  | keyBlock (parent : ID)
  | microBlock (reference : ID)

/-- The block that a new block extends. -/
def Origin.extended : Origin ID → Option ID
  | .genesis => none
  | .keyBlock p => some p
  | .microBlock r => some r

/-- The block that a new block stands on, given the parents of the others. -/
def Origin.on (parent : ID → Option ID) : Origin ID → Option ID
  | .genesis => none
  | .keyBlock p => some p
  | .microBlock r => parent r

structure Node (ID : Type) where
  origin : Origin ID
  parent : Option ID
  height : Nat

def parentIn (node : ID → Option (Node ID)) (id : ID) : Option ID := (node id).bind Node.parent

def heightIn (node : ID → Option (Node ID)) (id : ID) : Nat := (node id).elim 0 Node.height

structure BlockTree (ID : Type) where
  node : ID → Option (Node ID)
  root : ID
  rooted : Rooted (parentIn node) (fun id => (node id).isSome = true) (heightIn node) root
  extended_stored : ∀ id nd e, node id = some nd → nd.origin.extended = some e → (node e).isSome = true
  parent_origin : ∀ id nd, node id = some nd → nd.parent = nd.origin.on (parentIn node)

theorem Origin.on_congr {parent parent' : ID → Option ID} (o : Origin ID)
    (h : ∀ e, o.extended = some e → parent' e = parent e) : o.on parent' = o.on parent := by
  cases o with
  | genesis => rfl
  | keyBlock p => rfl
  | microBlock r => exact h r rfl

namespace BlockTree

def Stored (t : BlockTree ID) (id : ID) : Prop := (t.node id).isSome = true

def parent (t : BlockTree ID) (id : ID) : Option ID := parentIn t.node id

def height (t : BlockTree ID) (id : ID) : Nat := heightIn t.node id

/-- `v` extends `id`: as a key block with this parent, or as a micro-block with this reference. -/
def Extends (t : BlockTree ID) (v id : ID) : Prop := ∃ nd, t.node v = some nd ∧ nd.origin.extended = some id

/-- A stored block that no stored block extends. -/
def Leaf (t : BlockTree ID) (id : ID) : Prop := t.Stored id ∧ ∀ v, ¬ t.Extends v id

theorem parent_eq {t : BlockTree ID} {id : ID} {nd : Node ID} (h : t.node id = some nd) : t.parent id = nd.parent := by
  unfold parent parentIn; rw [h]; rfl

theorem height_eq {t : BlockTree ID} {id : ID} {nd : Node ID} (h : t.node id = some nd) : t.height id = nd.height := by
  unfold height heightIn; rw [h]; rfl

theorem stored_of_node {t : BlockTree ID} {id : ID} {nd : Node ID} (h : t.node id = some nd) : t.Stored id := by
  unfold Stored; rw [h]; rfl

theorem Stored.node {t : BlockTree ID} {id : ID} (h : t.Stored id) : ∃ nd, t.node id = some nd :=
  Option.isSome_iff_exists.1 h

theorem stored_of_parent {t : BlockTree ID} {id p : ID} (h : t.parent id = some p) : t.Stored id := by
  unfold parent parentIn at h
  obtain ⟨nd, hnd, -⟩ := Option.bind_eq_some_iff.1 h
  exact stored_of_node hnd

theorem isRooted (t : BlockTree ID) : Rooted t.parent t.Stored t.height t.root := t.rooted

variable [DecidableEq ID]

def single (g : ID) : BlockTree ID where
  node := fun id => if id = g then some ⟨.genesis, none, 1⟩ else none
  root := g
  rooted :=
    { root_node := by simp
      parent_eq_none := fun a ha => by
        have : a = g := by by_contra h; simp [h] at ha
        simp [parentIn, this]
      height_root := by simp [heightIn]
      step := fun a b _ hp => by
        by_cases h : a = g
        · simp [parentIn, h] at hp
        · simp [parentIn, h] at hp }
  extended_stored := fun id nd e h he => by
    split at h
    · cases h; cases he
    · cases h
  parent_origin := fun id nd h => by
    split at h
    · cases h; rfl
    · cases h

section grow
variable (t : BlockTree ID) (id : ID) (origin : Origin ID) (p : ID)

def grownNode (x : ID) : Option (Node ID) :=
  if x = id then some ⟨origin, some p, t.height p + 1⟩ else t.node x

@[simp] theorem grownNode_self : t.grownNode id origin p id = some ⟨origin, some p, t.height p + 1⟩ := if_pos rfl

theorem grownNode_of_ne {x : ID} (h : x ≠ id) : t.grownNode id origin p x = t.node x := if_neg h

theorem grownNode_stored (hid : t.node id = none) {x : ID} (h : t.Stored x) : t.grownNode id origin p x = t.node x :=
  grownNode_of_ne t id origin p (fun e => by subst e; unfold Stored at h; rw [hid] at h; cases h)

theorem parentIn_grown_of_ne {x : ID} (h : x ≠ id) : parentIn (t.grownNode id origin p) x = t.parent x := by
  unfold parentIn parent parentIn; rw [grownNode_of_ne t id origin p h]

theorem heightIn_grown_of_ne {x : ID} (h : x ≠ id) : heightIn (t.grownNode id origin p) x = t.height x := by
  unfold heightIn height heightIn; rw [grownNode_of_ne t id origin p h]

/-- **One more block**, not there before, on top of the stored block that its origin names, extending a stored block. -/
def grow (hid : t.node id = none) (hp : t.Stored p) (ho : ∀ e, origin.extended = some e → t.Stored e)
    (hon : origin.on t.parent = some p) : BlockTree ID where
  node := t.grownNode id origin p
  root := t.root
  rooted := by
    have hne : ∀ {x}, t.Stored x → x ≠ id := fun hx e => by
      subst e; unfold Stored at hx; rw [hid] at hx; cases hx
    have hroot : t.root ≠ id := hne t.rooted.root_node
    refine ⟨?_, fun a ha => ?_, ?_, fun a b ha hb => ?_⟩
    · rw [grownNode_of_ne t id origin p hroot]
      exact t.rooted.root_node
    · by_cases h : a = id
      · subst h
        simp only [parentIn, grownNode_self, Option.bind_some, reduceCtorEq, false_iff]
        exact fun e => hroot e.symm
      · rw [grownNode_of_ne t id origin p h] at ha
        rw [parentIn_grown_of_ne t id origin p h]
        exact t.rooted.parent_eq_none a ha
    · rw [heightIn_grown_of_ne t id origin p hroot]
      exact t.rooted.height_root
    · by_cases h : a = id
      · subst h
        simp only [parentIn, grownNode_self, Option.bind_some, Option.some.injEq] at hb
        subst hb
        rw [heightIn_grown_of_ne t a origin p (hne hp), grownNode_of_ne t a origin p (hne hp)]
        exact ⟨hp, by simp [heightIn]⟩
      · rw [grownNode_of_ne t id origin p h] at ha
        rw [parentIn_grown_of_ne t id origin p h] at hb
        obtain ⟨hs, hh⟩ := t.rooted.step a b ha hb
        rw [heightIn_grown_of_ne t id origin p h, heightIn_grown_of_ne t id origin p (hne hs),
          grownNode_of_ne t id origin p (hne hs)]
        exact ⟨hs, hh⟩
  extended_stored := fun x nd e hx he => by
    have hkeep : t.Stored e → (t.grownNode id origin p e).isSome = true := fun hs => by
      rw [grownNode_stored t id origin p hid hs]; exact hs
    by_cases h : x = id
    · subst h
      rw [grownNode_self] at hx
      cases hx
      exact hkeep (ho e he)
    · rw [grownNode_of_ne t id origin p h] at hx
      exact hkeep (t.extended_stored x nd e hx he)
  parent_origin := fun x nd hx => by
    have hsame : ∀ e, t.Stored e → parentIn (t.grownNode id origin p) e = t.parent e := fun e he => by
      unfold parentIn parent parentIn; rw [grownNode_stored t id origin p hid he]
    by_cases h : x = id
    · subst h
      rw [grownNode_self] at hx
      cases hx
      exact (hon.symm.trans (origin.on_congr fun e he => hsame e (ho e he)).symm)
    · rw [grownNode_of_ne t id origin p h] at hx
      rw [nd.origin.on_congr fun e he => hsame e (t.extended_stored x nd e hx he)]
      exact t.parent_origin x nd hx

end grow

/-- A key block arrives: it is added when it is new and its parent is stored. -/
def addKeyBlock (t : BlockTree ID) (id p : ID) : BlockTree ID :=
  if h : t.node id = none ∧ (t.node p).isSome = true then
    t.grow id (.keyBlock p) p h.1 h.2 (fun e he => by cases he; exact h.2) rfl
  else t

/-- A micro-block arrives: it is added when it is new and the block it references is stored and has a parent. -/
def addMicroBlock (t : BlockTree ID) (id r : ID) : BlockTree ID :=
  match hp : t.parent r with
  | none => t
  | some p =>
    if h : t.node id = none then
      t.grow id (.microBlock r) p h (t.isRooted.step r p (stored_of_parent hp) hp).1
        (fun e he => by cases he; exact stored_of_parent hp) hp
    else t

section
variable {t : BlockTree ID} {id : ID} {origin : Origin ID} {p : ID} {hid : t.node id = none} {hp : t.Stored p}
  {ho : ∀ e, origin.extended = some e → t.Stored e} {hon : origin.on t.parent = some p}

theorem grow_node : (t.grow id origin p hid hp ho hon).node = t.grownNode id origin p := rfl

@[simp] theorem grow_node_self :
    (t.grow id origin p hid hp ho hon).node id = some ⟨origin, some p, t.height p + 1⟩ := grownNode_self t id origin p

/-- **Growth leaves every stored block as it was.** -/
theorem grow_node_stored {x : ID} (h : t.Stored x) : (t.grow id origin p hid hp ho hon).node x = t.node x :=
  grownNode_stored t id origin p hid h

theorem grow_stored {x : ID} : (t.grow id origin p hid hp ho hon).Stored x ↔ x = id ∨ t.Stored x := by
  show (t.grownNode id origin p x).isSome = true ↔ _
  by_cases h : x = id
  · subst h; simp
  · rw [grownNode_of_ne t id origin p h]; simp [h, Stored]

/-- What extends what after growth: as before, and the new block extends the block it came on. -/
theorem grow_extends {v x : ID} : (t.grow id origin p hid hp ho hon).Extends v x ↔
    (v = id ∧ origin.extended = some x) ∨ t.Extends v x := by
  show (∃ nd, t.grownNode id origin p v = some nd ∧ nd.origin.extended = some x) ↔ _
  by_cases h : v = id
  · subst h
    have hnone : ¬ t.Extends v x := by
      rintro ⟨nd, hnd, -⟩
      rw [hid] at hnd; cases hnd
    simp [hnone]
  · rw [grownNode_of_ne t id origin p h]; simp [h, Extends]

/-- **The leaves after growth**: the new block, and the old leaves but the extended block. -/
theorem grow_leaf {x : ID} : (t.grow id origin p hid hp ho hon).Leaf x ↔
    x = id ∨ (t.Leaf x ∧ origin.extended ≠ some x) := by
  unfold Leaf
  simp only [grow_stored, grow_extends]
  constructor
  · rintro ⟨rfl | hs, h⟩
    · exact .inl rfl
    · refine .inr ⟨⟨hs, fun v hv => h v (.inr hv)⟩, fun he => h id (.inl ⟨rfl, he⟩)⟩
  · rintro (rfl | ⟨⟨hs, h⟩, hne⟩)
    · refine ⟨.inl rfl, fun v => ?_⟩
      -- nothing stored extends an ID that is not stored
      rintro (⟨-, he⟩ | ⟨nd, hnd, he⟩)
      · have := ho _ he
        unfold Stored at this; rw [hid] at this; cases this
      · have := t.extended_stored v nd _ hnd he
        rw [hid] at this; cases this
    · exact ⟨.inr hs, fun v hv => by
        rcases hv with ⟨-, he⟩ | hv
        · exact hne he
        · exact h v hv⟩

theorem addKeyBlock_eq (h : t.node id = none) (hp : t.Stored p) : t.addKeyBlock id p =
    t.grow id (.keyBlock p) p h hp (fun e he => by cases he; exact hp) rfl := dif_pos ⟨h, hp⟩

theorem addKeyBlock_of_stored (h : t.Stored id) : t.addKeyBlock id p = t :=
  dif_neg fun hn => by unfold Stored at h; rw [hn.1] at h; cases h

theorem addMicroBlock_eq {r : ID} (h : t.node id = none) (hr : t.parent r = some p) : t.addMicroBlock id r =
    t.grow id (.microBlock r) p h (t.isRooted.step r p (stored_of_parent hr) hr).1
      (fun e he => by cases he; exact stored_of_parent hr) hr := by
  unfold addMicroBlock
  split
  · rename_i hn
    rw [hr] at hn; cases hn
  · rename_i q hq
    obtain rfl : p = q := Option.some.inj (hr.symm.trans hq)
    exact dif_pos h

theorem addMicroBlock_of_stored {r : ID} (h : t.Stored id) : t.addMicroBlock id r = t := by
  unfold addMicroBlock
  split
  · rfl
  · exact dif_neg fun hn => by unfold Stored at h; rw [hn] at h; cases h

end

end BlockTree

end Chains
end ForkDetector
