import Mathlib.Data.Set.Card
/-!
# Ancestry — rooted trees given by a parent function

`up parent k a` is the `k`-th ancestor of `a`.  In a tree with a root, where heights fall by one from a node to its
parent, an ancestor is determined by its height (`anc_iff_up`), any two nodes have one deepest common ancestor
(`exists_deepestCommon`), and two ancestors at one height agree exactly up to that ancestor's height
(`up_eq_iff_le`), which is also the number of common ancestors (`commonCount_eq`).  What each node adds to its parent's
share adds up along the path to the root (`sum_path`).
-/
namespace Ancestry

variable {α : Type}

/-- The `k`-th ancestor. -/
def up (parent : α → Option α) : Nat → α → Option α
  | 0, a => some a
  | k + 1, a => (up parent k a).bind parent

/-- `a` is `b` or an ancestor of it. -/
def Anc (parent : α → Option α) (a b : α) : Prop := ∃ k, up parent k b = some a

/-- `c` is the common ancestor of `x` and `y` that every other one is an ancestor of. -/
structure DeepestCommon (parent : α → Option α) (x y c : α) : Prop where
  left : Anc parent c x
  right : Anc parent c y
  deepest : ∀ d, Anc parent d x → Anc parent d y → Anc parent d c

/-- The first `k` of a node and its ancestors, from the node on. -/
def path (parent : α → Option α) : Nat → α → List α
  | 0, _ => []
  | k + 1, a => a :: (parent a).elim [] (path parent k)

/-- The number of common ancestors of `x` and `y`. -/
noncomputable def commonCount (parent : α → Option α) (x y : α) : Nat :=
  {d | Anc parent d x ∧ Anc parent d y}.ncard

/-- The nodes of a tree: one root, of height one, and every other node one above its parent. -/
structure Rooted (parent : α → Option α) (node : α → Prop) (height : α → Nat) (root : α) : Prop where
  root_node : node root
  parent_eq_none : ∀ a, node a → (parent a = none ↔ a = root)
  height_root : height root = 1
  step : ∀ a b, node a → parent a = some b → node b ∧ height a = height b + 1

section
variable {parent : α → Option α}

theorem up_add (m n : Nat) (a : α) : up parent (m + n) a = (up parent m a).bind (up parent n) := by
  induction n with
  | zero => cases up parent m a <;> rfl
  | succ n ih =>
    rw [← Nat.add_assoc, up, ih]
    cases up parent m a <;> rfl

theorem up_one (a : α) : up parent 1 a = parent a := rfl

theorem Anc.refl (a : α) : Anc parent a a := ⟨0, rfl⟩

theorem Anc.trans {a b c : α} (hab : Anc parent a b) (hbc : Anc parent b c) : Anc parent a c := by
  obtain ⟨k, hk⟩ := hab
  obtain ⟨l, hl⟩ := hbc
  exact ⟨l + k, by rw [up_add, hl]; exact hk⟩

theorem Anc.of_parent {a b c : α} (hc : parent c = some b) (hab : Anc parent a b) : Anc parent a c :=
  hab.trans ⟨1, hc⟩

theorem anc_cons {a b c : α} (hc : parent c = some b) : Anc parent a c ↔ a = c ∨ Anc parent a b := by
  constructor
  · rintro ⟨k, hk⟩
    cases k with
    | zero => exact .inl (Option.some.inj hk).symm
    | succ k =>
      rw [Nat.add_comm, up_add, up_one, hc] at hk
      exact .inr ⟨k, hk⟩
  · rintro (rfl | h)
    · exact .refl _
    · exact .of_parent hc h

theorem anc_iff_parent {a c : α} : Anc parent a c ↔ a = c ∨ ∃ b, parent c = some b ∧ Anc parent a b := by
  cases hc : parent c with
  | none =>
    constructor
    · rintro ⟨k, hk⟩
      cases k with
      | zero => exact .inl (Option.some.inj hk).symm
      | succ k =>
        rw [Nat.add_comm, up_add, up_one, hc] at hk
        cases hk
    · rintro (rfl | ⟨b, hb, -⟩)
      · exact .refl _
      · cases hb
  | some b => simp [anc_cons hc]

theorem DeepestCommon.symm {x y c : α} (h : DeepestCommon parent x y c) : DeepestCommon parent y x c :=
  ⟨h.right, h.left, fun d hy hx => h.deepest d hx hy⟩

/-- Ancestors climb in step under a map of nodes that carries parents to parents. -/
theorem up_map {β : Type} {parent' : β → Option β} (f : α → β) (node : α → Prop)
    (hnode : ∀ a b, node a → parent a = some b → node b)
    (hf : ∀ a, node a → parent' (f a) = (parent a).map f) (k : Nat) :
    ∀ a, node a → up parent' k (f a) = (up parent k a).map f ∧ ∀ b, up parent k a = some b → node b := by
  induction k with
  | zero => exact fun a ha => ⟨rfl, fun b hb => by cases hb; exact ha⟩
  | succ k ih =>
    intro a ha
    obtain ⟨h1, h2⟩ := ih a ha
    rw [up, up, h1]
    cases hu : up parent k a with
    | none => exact ⟨rfl, fun b hb => by cases hb⟩
    | some c => exact ⟨hf c (h2 c hu), fun b hb => hnode c b (h2 c hu) hb⟩

theorem path_isChain : ∀ (k : Nat) (a : α), (path parent k a).IsChain fun u v => parent u = some v
  | 0, _ => .nil
  | k + 1, a => by
    rw [path, List.isChain_cons]
    cases hp : parent a with
    | none => exact ⟨(fun v hv => nomatch hv), .nil⟩
    | some b =>
      refine ⟨fun v hv => ?_, path_isChain k b⟩
      cases k with
      | zero => cases hv
      | succ k =>
        cases hv
        rfl

/-- Parent functions that agree on a set closed under parents. -/
structure Agree (node : α → Prop) (parent parent' : α → Option α) : Prop where
  closed : ∀ a b, node a → parent a = some b → node b
  eq : ∀ a, node a → parent' a = parent a

namespace Agree
variable {node : α → Prop} {parent' : α → Option α} (A : Agree node parent parent')
include A

theorem up_eq {a : α} (ha : node a) (k : Nat) : up parent' k a = up parent k a := by
  have hmap : ∀ b, node b → parent' b = (parent b).map fun c => c := fun b hb => by rw [A.eq b hb, Option.map_id']
  have h := (up_map (fun c => c) node A.closed hmap k a ha).1
  rw [Option.map_id'] at h
  exact h

theorem anc_iff {a b : α} (hb : node b) : Anc parent' a b ↔ Anc parent a b :=
  exists_congr fun k => by rw [A.up_eq hb]

theorem path_eq : ∀ (k : Nat) {a : α}, node a → path parent' k a = path parent k a
  | 0, _, _ => rfl
  | k + 1, a, ha => by
    rw [path, path, A.eq a ha]
    cases hp : parent a with
    | none => rfl
    | some b => simp only [Option.elim_some, path_eq k (A.closed a b ha hp)]

theorem deepestCommon {x y c : α} (hx : node x) (hy : node y) (hc : node c) (h : DeepestCommon parent x y c) :
    DeepestCommon parent' x y c :=
  ⟨(A.anc_iff hx).2 h.left, (A.anc_iff hy).2 h.right, fun d hdx hdy =>
    (A.anc_iff hc).2 (h.deepest d ((A.anc_iff hx).1 hdx) ((A.anc_iff hy).1 hdy))⟩

end Agree

end

namespace Rooted

variable {parent : α → Option α} {node : α → Prop} {height : α → Nat} {root : α}
  (T : Rooted parent node height root)
include T

theorem up_height {a b : α} (ha : node a) : ∀ {k : Nat}, up parent k a = some b → node b ∧ height a = height b + k
  | 0, h => by cases h; exact ⟨ha, rfl⟩
  | k + 1, h => by
    obtain ⟨c, hc, hcb⟩ := Option.bind_eq_some_iff.1 h
    obtain ⟨hn, hh⟩ := up_height ha hc
    obtain ⟨hb, hbh⟩ := T.step c b hn hcb
    exact ⟨hb, by omega⟩

theorem exists_up {a : α} (ha : node a) : ∀ {k : Nat}, k < height a → ∃ b, up parent k a = some b
  | 0, _ => ⟨a, rfl⟩
  | k + 1, h => by
    obtain ⟨c, hc⟩ := exists_up ha (Nat.lt_of_succ_lt h)
    obtain ⟨hn, hh⟩ := T.up_height ha hc
    rw [up, hc]
    cases hp : parent c with
    | some b => exact ⟨b, hp⟩
    | none =>
      rw [T.parent_eq_none c hn] at hp
      rw [hp, T.height_root] at hh
      omega

theorem height_pos {a : α} (ha : node a) : 0 < height a := by
  cases hp : parent a with
  | none =>
    rw [T.parent_eq_none a ha] at hp
    rw [hp, T.height_root]
    exact Nat.one_pos
  | some b => have := (T.step a b ha hp).2; omega

theorem height_eq_of_parent {a b : α} (ha : node a) (hb : node b) (h : parent a = parent b) :
    height a = height b := by
  cases hp : parent a with
  | none =>
    rw [(T.parent_eq_none a ha).1 hp, (T.parent_eq_none b hb).1 (h ▸ hp)]
  | some c =>
    rw [(T.step a c ha hp).2, (T.step b c hb (h ▸ hp)).2]

theorem eq_root {a : α} (ha : node a) (h : height a ≤ 1) : a = root := by
  rw [← T.parent_eq_none a ha]
  cases hp : parent a with
  | none => rfl
  | some b =>
    obtain ⟨hb, hbh⟩ := T.step a b ha hp
    have := T.height_pos hb
    omega

theorem anc_node {a b : α} (hb : node b) (h : Anc parent a b) : node a :=
  let ⟨_, hk⟩ := h
  (T.up_height hb hk).1

theorem anc_height_le {a b : α} (hb : node b) (h : Anc parent a b) : height a ≤ height b := by
  obtain ⟨k, hk⟩ := h
  have := (T.up_height hb hk).2
  omega

/-- **An ancestor is the one at its height.** -/
theorem anc_iff_up {a b : α} (hb : node b) :
    Anc parent a b ↔ up parent (height b - height a) b = some a := by
  constructor
  · rintro ⟨k, hk⟩
    have := (T.up_height hb hk).2
    rw [show height b - height a = k by omega]
    exact hk
  · exact fun h => ⟨_, h⟩

theorem anc_eq {a b c : α} (hc : node c) (ha : Anc parent a c) (hb : Anc parent b c) (h : height a = height b) :
    a = b := by
  rw [T.anc_iff_up hc] at ha hb
  rw [h, hb] at ha
  exact (Option.some.inj ha).symm

/-- Of two ancestors of one node, the lower one is an ancestor of the higher one. -/
theorem anc_of_le {a b c : α} (hc : node c) (ha : Anc parent a c) (hb : Anc parent b c) (h : height a ≤ height b) :
    Anc parent a b := by
  have hac := T.anc_height_le hc ha
  have hbc := T.anc_height_le hc hb
  rw [T.anc_iff_up hc] at ha hb
  refine ⟨height b - height a, ?_⟩
  rw [show height c - height a = (height c - height b) + (height b - height a) by omega, up_add, hb] at ha
  exact ha

theorem anc_root {a : α} (ha : node a) : Anc parent root a := by
  have hpos := T.height_pos ha
  obtain ⟨b, hb⟩ := T.exists_up ha (k := height a - 1) (by omega)
  obtain ⟨hn, hh⟩ := T.up_height ha hb
  rw [T.eq_root hn (by omega)] at hb
  exact ⟨_, hb⟩

/-- **Any two nodes have a deepest common ancestor.** -/
theorem exists_deepestCommon {y : α} (hy : node y) : ∀ (n : Nat) (x : α), node x → height x = n →
    ∃ c, DeepestCommon parent x y c
  | 0, x, hx, h => by have := T.height_pos hx; omega
  | n + 1, x, hx, h => by
    by_cases hxy : Anc parent x y
    · exact ⟨x, .refl x, hxy, fun d hd _ => hd⟩
    · cases hp : parent x with
      | none =>
        rw [T.parent_eq_none x hx] at hp
        exact absurd (hp ▸ T.anc_root hy) hxy
      | some b =>
        obtain ⟨hb, hbh⟩ := T.step x b hx hp
        obtain ⟨c, hl, hr, hd⟩ := exists_deepestCommon hy n b hb (by omega)
        refine ⟨c, .of_parent hp hl, hr, fun d hdx hdy => ?_⟩
        rcases (anc_cons hp).1 hdx with rfl | hdb
        · exact absurd hdy hxy
        · exact hd d hdb hdy

/-- **Two ancestors at one height are equal exactly at or below the deepest common ancestor.** -/
theorem up_eq_iff_le {x y c u v : α} {m n : Nat} (hx : node x) (hy : node y) (hc : DeepestCommon parent x y c)
    (hu : up parent m x = some u) (hv : up parent n y = some v) (huv : height u = height v) :
    u = v ↔ height u ≤ height c := by
  have hux : Anc parent u x := ⟨m, hu⟩
  have hvy : Anc parent v y := ⟨n, hv⟩
  constructor
  · rintro rfl
    exact T.anc_height_le (T.anc_node hx hc.left) (hc.deepest u hux hvy)
  · intro h
    have huc := T.anc_of_le hx hux hc.left h
    have hvc := T.anc_of_le hy hvy hc.right (huv ▸ h)
    exact T.anc_eq (T.anc_node hx hc.left) huc hvc huv

theorem ncard_anc : ∀ (n : Nat) (c : α), node c → height c = n → {d | Anc parent d c}.ncard = n ∧
    {d | Anc parent d c}.Finite
  | 0, c, hc, h => by have := T.height_pos hc; omega
  | n + 1, c, hc, h => by
    cases hp : parent c with
    | none =>
      have hroot := (T.parent_eq_none c hc).1 hp
      have hone : {d | Anc parent d c} = {c} := by
        ext d
        refine ⟨fun hd => ?_, fun hd => by cases hd; exact .refl c⟩
        have hle := T.anc_height_le hc hd
        have h1 : height c = 1 := by rw [hroot, T.height_root]
        have hd1 := T.eq_root (T.anc_node hc hd) (by omega)
        rw [hd1, hroot]; rfl
      rw [hone, Set.ncard_singleton]
      have h1 : height c = 1 := by rw [hroot, T.height_root]
      exact ⟨by omega, Set.finite_singleton c⟩
    | some b =>
      obtain ⟨hb, hbh⟩ := T.step c b hc hp
      obtain ⟨hcard, hfin⟩ := ncard_anc n b hb (by omega)
      have hcons : {d | Anc parent d c} = insert c {d | Anc parent d b} := by
        ext d
        exact anc_cons hp
      have hnot : c ∉ {d | Anc parent d b} := fun hcb => by
        have := T.anc_height_le hb hcb
        omega
      rw [hcons, Set.ncard_insert_of_notMem hnot hfin, hcard]
      exact ⟨rfl, hfin.insert c⟩

/-- **The number of common ancestors is the height of the deepest one.** -/
theorem commonCount_eq {x y c : α} (hx : node x) (hc : DeepestCommon parent x y c) :
    commonCount parent x y = height c := by
  have hset : {d | Anc parent d x ∧ Anc parent d y} = {d | Anc parent d c} := by
    ext d
    exact ⟨fun h => hc.deepest d h.1 h.2, fun h => ⟨h.trans hc.left, h.trans hc.right⟩⟩
  rw [commonCount, hset]
  exact (T.ncard_anc (height c) c (T.anc_node hx hc.left) rfl).1

/-! ## The path to the root -/

theorem path_length {a : α} (ha : node a) : ∀ (k : Nat), (path parent k a).length = min k (height a)
  | 0 => by simp [path]
  | k + 1 => by
    rw [path, List.length_cons]
    cases hp : parent a with
    | none =>
      rw [(T.parent_eq_none a ha).1 hp, T.height_root]
      simp
    | some b =>
      obtain ⟨hb, hh⟩ := T.step a b ha hp
      rw [Option.elim_some, path_length hb k, hh]
      omega

theorem path_node : ∀ (k : Nat) {a : α}, node a → ∀ b ∈ path parent k a, node b
  | 0, _, _, _, hb => nomatch hb
  | k + 1, a, ha, b, hb => by
    rw [path] at hb
    rcases List.mem_cons.1 hb with rfl | hb
    · exact ha
    · cases hp : parent a with
      | none => rw [hp] at hb; cases hb
      | some c =>
        rw [hp] at hb
        exact path_node k (T.step a c ha hp).1 b hb

/-- A path that is long enough ends at the root. -/
theorem path_getLast? : ∀ {k : Nat} {a : α}, node a → height a ≤ k → (path parent k a).getLast? = some root
  | 0, a, ha, h => by have := T.height_pos ha; omega
  | k + 1, a, ha, h => by
    rw [path, List.getLast?_cons]
    cases hp : parent a with
    | none =>
      rw [(T.parent_eq_none a ha).1 hp]
      rfl
    | some b =>
      obtain ⟨hb, hh⟩ := T.step a b ha hp
      rw [Option.elim_some, path_getLast? hb (by omega)]
      rfl

/-- **A quantity that each node adds to its parent's** is the sum of what the nodes of the path add. -/
theorem sum_path {M : Type} [AddMonoid M] {f w : α → M} (hroot : f root = w root)
    (hstep : ∀ a b, node a → parent a = some b → f a = w a + f b) :
    ∀ {k : Nat} {a : α}, node a → height a ≤ k → f a = ((path parent k a).map w).sum
  | 0, a, ha, h => by have := T.height_pos ha; omega
  | k + 1, a, ha, h => by
    rw [path, List.map_cons, List.sum_cons]
    cases hp : parent a with
    | none =>
      rw [(T.parent_eq_none a ha).1 hp, hroot]
      simp
    | some b =>
      obtain ⟨hb, hh⟩ := T.step a b ha hp
      rw [Option.elim_some, ← sum_path hroot hstep hb (by omega)]
      exact hstep a b ha hp

end Rooted

end Ancestry
