import Mathlib.Data.Nat.Log
import ForkDetector.Lib.Ancestry
/-!
# Lifting — skip lists of ancestors and the descent to a common ancestor

A node of height `h` carries its `2^i`-th ancestors for every `2^i < h` (`IsSkips`).  Two nodes of one height are
brought below their deepest common ancestor by trying the skips from the longest to the shortest, and going on from
the skipped-to pair when its two nodes differ.  That pair is lower, so its lists are shorter, and the next skip may
not be in them: `descentSafe` follows the heights, and `descentSafe_iff` says in closed form for which fork length and
which number of common ancestors every skip tried is there.
-/
namespace Lifting

open Ancestry

variable {α : Type}

/-- `ps` lists the `2^i`-th ancestors of the node `a` of height `h`, for every `2^i` below `h`. -/
structure IsSkips (parent : α → Option α) (a : α) (h : Nat) (ps : List α) : Prop where
  length_eq : ps.length = Nat.clog 2 h
  get_eq : ∀ i, i < ps.length → ps[i]? = up parent (2 ^ i) a

section
variable {parent : α → Option α} {node : α → Prop} {height : α → Nat} {root : α}

theorem IsSkips.lt_length {a : α} {h : Nat} {ps : List α} (hs : IsSkips parent a h ps) {i : Nat} :
    i < ps.length ↔ 2 ^ i < h := by
  rw [hs.length_eq, Nat.lt_clog_iff_pow_lt Nat.one_lt_two]

/-- **A skip in range lands on the ancestor it names.** -/
theorem IsSkips.get (T : Rooted parent node height root) {a : α} (ha : node a) {ps : List α}
    (hs : IsSkips parent a (height a) ps) {i : Nat} {b : α} (hb : ps[i]? = some b) :
    up parent (2 ^ i) a = some b ∧ node b ∧ height a = height b + 2 ^ i := by
  have hi : i < ps.length := (List.getElem?_eq_some_iff.1 hb).1
  have hu : up parent (2 ^ i) a = some b := by rw [← hs.get_eq i hi, hb]
  exact ⟨hu, T.up_height ha hu⟩

theorem IsSkips.eq_of_parent {a b : α} {h : Nat} {ps qs : List α} (hp : IsSkips parent a h ps)
    (hab : parent a = parent b) (hq : IsSkips parent b h qs) : ps = qs := by
  have hlen : ps.length = qs.length := by rw [hp.length_eq, hq.length_eq]
  apply List.ext_getElem?
  intro i
  by_cases hi : i < ps.length
  · have hup : ∀ c, up parent (2 ^ i) c = (parent c).bind (up parent (2 ^ i - 1)) := fun c => by
      conv => lhs; rw [show 2 ^ i = 1 + (2 ^ i - 1) by have := Nat.two_pow_pos i; omega, up_add, up_one]
    rw [hp.get_eq i hi, hq.get_eq i (hlen ▸ hi), hup a, hup b, hab]
  · rw [List.getElem?_eq_none (by omega), List.getElem?_eq_none (by omega)]

theorem IsSkips.congr {parent' : α → Option α} {a : α} {h : Nat} {ps : List α}
    (hu : ∀ k, up parent' k a = up parent k a) (hs : IsSkips parent a h ps) : IsSkips parent' a h ps :=
  ⟨hs.length_eq, fun i hi => by rw [hs.get_eq i hi, hu]⟩

end

/-! ## The descent, by heights -/

/-- From two different nodes of height `h` whose deepest common ancestor has height `a`, with the skips `k - 1` down to
`0` still to be tried: every skip tried is listed. -/
def descentSafe : Nat → Nat → Nat → Prop
  | 0, _, _ => True
  | i + 1, h, a => 2 ^ i < h ∧ if a < h - 2 ^ i then descentSafe i (h - 2 ^ i) a else descentSafe i h a

theorem descentSafe_jump {i h a : Nat} (hin : 2 ^ i < h) (hj : a < h - 2 ^ i) :
    descentSafe (i + 1) h a ↔ descentSafe i (h - 2 ^ i) a := by
  simp only [descentSafe, hin, if_pos hj, true_and]

theorem descentSafe_stay {i h a : Nat} (hin : 2 ^ i < h) (hj : ¬ a < h - 2 ^ i) :
    descentSafe (i + 1) h a ↔ descentSafe i h a := by
  simp only [descentSafe, hin, if_neg hj, true_and]

theorem not_descentSafe {i h a : Nat} (hin : ¬ 2 ^ i < h) : ¬ descentSafe (i + 1) h a := fun hs => hin hs.1

/-- A fork of `f` nodes over `c` common ancestors is in range of the descent: for every skip `2^j` that the binary
form of `f - 1` takes, the node it lands on still lists the next shorter one. -/
def InRange (c f : Nat) : Prop :=
  ∀ j < f, 0 < j → (f - 1).testBit j = true → 2 ^ (j - 1) < c + 1 + (f - 1) % 2 ^ j

instance (c f : Nat) : Decidable (InRange c f) :=
  inferInstanceAs (Decidable (∀ j < f, 0 < j → (f - 1).testBit j = true → 2 ^ (j - 1) < c + 1 + (f - 1) % 2 ^ j))

theorem inRange_of_le {c f : Nat} (h : f ≤ c + 1) : InRange c f := by
  intro j _ hj hbit
  have hle : 2 ^ j ≤ f - 1 := Nat.ge_two_pow_of_testBit hbit
  have hlt : 2 ^ (j - 1) < 2 ^ j := Nat.pow_lt_pow_right Nat.one_lt_two (by omega)
  omega

theorem descentSafe_iff_bits (a : Nat) : ∀ (k d : Nat), d < 2 ^ k → (0 < k → 2 ^ (k - 1) < a + 1 + d) →
    (descentSafe k (a + 1 + d) a ↔
      ∀ j, 0 < j → j < k → d.testBit j = true → 2 ^ (j - 1) < a + 1 + d % 2 ^ j)
  | 0, _, _, _ => ⟨fun _ j _ hj => absurd hj (Nat.not_lt_zero j), fun _ => trivial⟩
  | i + 1, d, hd, hk => by
    have hin : 2 ^ i < a + 1 + d := hk (Nat.succ_pos i)
    simp only [descentSafe, hin, true_and]
    by_cases hbit : 2 ^ i ≤ d
    · -- the skip is taken, and `e` is what is left of the fork
      obtain ⟨e, rfl⟩ := Nat.exists_eq_add_of_le hbit
      have he : e < 2 ^ i := by rw [Nat.pow_succ] at hd; omega
      have hsub : a + 1 + (2 ^ i + e) - 2 ^ i = a + 1 + e := by omega
      have htop : (2 ^ i + e).testBit i = true := by
        rw [Nat.testBit_two_pow_add_eq, Nat.testBit_lt_two_pow he]; rfl
      have hmodi : (2 ^ i + e) % 2 ^ i = e := by rw [Nat.add_mod_left, Nat.mod_eq_of_lt he]
      have hlow : ∀ j, j < i → (2 ^ i + e).testBit j = e.testBit j ∧ (2 ^ i + e) % 2 ^ j = e % 2 ^ j := by
        intro j hj
        obtain ⟨m, hm⟩ := Nat.pow_dvd_pow 2 (Nat.le_of_lt hj)
        exact ⟨Nat.testBit_two_pow_add_gt hj e, by rw [hm, Nat.mul_add_mod]⟩
      rw [hsub, if_pos (by omega)]
      by_cases hnext : 0 < i → 2 ^ (i - 1) < a + 1 + e
      · rw [descentSafe_iff_bits a i e he hnext]
        constructor
        · intro h j hj hji hb
          rcases Nat.lt_or_eq_of_le (Nat.lt_succ_iff.1 hji) with hlt | rfl
          · rw [(hlow j hlt).2]
            exact h j hj hlt (by rw [← (hlow j hlt).1]; exact hb)
          · rw [hmodi]; exact hnext hj
        · intro h j hj hji hb
          rw [← (hlow j hji).2]
          exact h j hj (Nat.lt_succ_of_lt hji) (by rw [(hlow j hji).1]; exact hb)
      · have hi : 0 < i := by by_contra h0; exact hnext (fun h => absurd h h0)
        have hbad : ¬ 2 ^ (i - 1) < a + 1 + e := fun h => hnext (fun _ => h)
        constructor
        · intro h
          obtain ⟨i', rfl⟩ := Nat.exists_eq_succ_of_ne_zero (Nat.pos_iff_ne_zero.1 hi)
          simp only [descentSafe] at h
          exact absurd h.1 hbad
        · intro h
          have := h i hi (Nat.lt_succ_self i) htop
          rw [hmodi] at this
          exact absurd this hbad
    · have hd' : d < 2 ^ i := Nat.lt_of_not_le hbit
      rw [if_neg (by omega), descentSafe_iff_bits a i d hd' (fun hi => by
        have : 2 ^ (i - 1) < 2 ^ i := Nat.pow_lt_pow_right Nat.one_lt_two (by omega)
        omega)]
      constructor
      · intro h j hj hji hb
        rcases Nat.lt_or_eq_of_le (Nat.lt_succ_iff.1 hji) with hlt | rfl
        · exact h j hj hlt hb
        · rw [Nat.testBit_lt_two_pow hd'] at hb; cases hb
      · exact fun h j hj hji hb => h j hj (Nat.lt_succ_of_lt hji) hb

/-- **When the whole descent is in range**, from the longest skip of height `h`. -/
theorem descentSafe_iff {h a : Nat} (ha : a < h) (ha0 : 0 < a) :
    descentSafe (Nat.clog 2 h) h a ↔ InRange a (h - a) := by
  obtain ⟨d, rfl⟩ : ∃ d, h = a + 1 + d := ⟨h - a - 1, by omega⟩
  have hle : a + 1 + d ≤ 2 ^ Nat.clog 2 (a + 1 + d) := Nat.le_pow_clog Nat.one_lt_two _
  have hlt : 2 ^ (Nat.clog 2 (a + 1 + d) - 1) < a + 1 + d := Nat.pow_pred_clog_lt_self Nat.one_lt_two (by omega)
  rw [descentSafe_iff_bits a _ d (by omega) (fun _ => hlt), InRange, show a + 1 + d - a - 1 = d by omega]
  have hbound : ∀ j, d.testBit j = true → j < Nat.clog 2 (a + 1 + d) ∧ j < a + 1 + d - a := by
    intro j hb
    have hj : 2 ^ j ≤ d := Nat.ge_two_pow_of_testBit hb
    have hjd : j < 2 ^ j := Nat.lt_two_pow_self
    exact ⟨(Nat.lt_clog_iff_pow_lt Nat.one_lt_two).2 (by omega), by omega⟩
  constructor
  · exact fun h j _ hj hb => h j hj (hbound j hb).1 hb
  · exact fun h j hj _ hb => h j (hbound j hb).2 hj hb

end Lifting
