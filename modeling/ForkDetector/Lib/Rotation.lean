import Mathlib.Data.List.Chain
import Mathlib.Data.List.Nodup
/-!
# Rotation — going around a list by looking up the last answer

The place in a list is kept as a key alone, and found again as the first entry with that key.  When the keys are
distinct, as many answers in a row as there are entries are all of the entries (`mem_of_window`).  When the list is in
the order of its keys and one occurs twice, the rotation does not get past that key (`exists_stuck`).
-/
namespace Rotation

variable {α κ : Type} [DecidableEq κ] (key : α → κ)

/-- The entry after the first one with the key; the first entry after the last one, and when there is none. -/
def next (xs : List α) (k : κ) : Option α :=
  let i := xs.findIdx fun x => decide (k = key x)
  if i + 1 ≥ xs.length then xs[0]? else xs[i + 1]?

/-- Answers in a row, each the next one after the key of the one before. -/
def Follows (xs : List α) (w : List α) : Prop := w.IsChain fun u v => next key xs (key u) = some v

variable {key} {xs w : List α} {x : α} {i j : Nat}

theorem next_mem {k : κ} (h : next key xs k = some x) : x ∈ xs := by
  unfold next at h
  simp only at h
  split at h <;> exact List.mem_of_getElem? h

theorem exists_next (hne : xs ≠ []) (k : κ) : ∃ x, next key xs k = some x := by
  have hpos := List.length_pos_iff.2 hne
  unfold next
  simp only
  split
  · exact ⟨_, List.getElem?_eq_getElem hpos⟩
  · exact ⟨_, List.getElem?_eq_getElem (by omega)⟩

/-- A key that no entry but the last one has is followed by the first entry. -/
theorem next_of_last {k : κ} (hlast : ∀ i (hi : i + 1 < xs.length), key xs[i] ≠ k) : next key xs k = xs[0]? := by
  unfold next
  simp only
  split
  · rfl
  · rename_i hlt
    have hlen : (xs.findIdx fun x => decide (k = key x)) < xs.length := by omega
    have hfound := List.findIdx_getElem (w := hlen)
    exact absurd (of_decide_eq_true hfound).symm (hlast _ (by omega))

/-! ## Distinct keys -/

omit [DecidableEq κ] in
theorem eq_of_key (hd : (xs.map key).Nodup) (hi : i < xs.length) (hj : j < xs.length) (h : key xs[i] = key xs[j]) :
    i = j := by
  have hi' : i < (xs.map key).length := by rwa [List.length_map]
  have hj' : j < (xs.map key).length := by rwa [List.length_map]
  exact (@List.Nodup.getElem_inj_iff _ _ hd i hi' j hj').1 (by rwa [List.getElem_map, List.getElem_map])

theorem next_getElem (hd : (xs.map key).Nodup) (hi : i < xs.length) :
    next key xs (key xs[i]) = xs[(i + 1) % xs.length]? := by
  have hfind : (xs.findIdx fun x => decide (key xs[i] = key x)) = i := by
    refine (List.findIdx_eq hi).2 ⟨by simp, fun j hj => decide_eq_false fun he => ?_⟩
    have := eq_of_key hd hi (by omega) he
    omega
  unfold next
  rw [hfind]
  simp only
  split
  · rename_i hlast
    rw [show i + 1 = xs.length by omega, Nat.mod_self]
  · rw [Nat.mod_eq_of_lt (by omega)]

/-- The answers go around the list. -/
theorem getElem_of_follows (hd : (xs.map key).Nodup) (hc : Follows key xs w) (hi : i < xs.length)
    (hhead : w[0]? = some xs[i]) : ∀ j, j < w.length → w[j]? = xs[(i + j) % xs.length]?
  | 0, _ => by rw [hhead, Nat.add_zero, Nat.mod_eq_of_lt hi, List.getElem?_eq_getElem hi]
  | j + 1, hj => by
    have hmod : (i + j) % xs.length < xs.length := Nat.mod_lt _ (by omega)
    have hj' := getElem_of_follows hd hc hi hhead j (by omega)
    rw [List.getElem?_eq_getElem (by omega), List.getElem?_eq_getElem hmod] at hj'
    have hstep : next key xs (key w[j]) = some w[j + 1] := List.isChain_iff_getElem.1 hc j hj
    rw [Option.some.inj hj', next_getElem hd hmod, Nat.mod_add_mod] at hstep
    rw [List.getElem?_eq_getElem hj, ← hstep, Nat.add_assoc]

/-- **As many answers in a row as there are entries are all of the entries.** -/
theorem mem_of_window (hd : (xs.map key).Nodup) (hc : Follows key xs w) (hw : ∀ u ∈ w, u ∈ xs)
    (hlen : w.length = xs.length) (hx : x ∈ xs) : x ∈ w := by
  obtain ⟨t, ht, rfl⟩ := List.getElem_of_mem hx
  have h0 : 0 < w.length := by omega
  obtain ⟨i, hi, hhead⟩ := List.getElem_of_mem (hw _ (List.getElem_mem h0))
  -- the entry `t` is the answer number `t - i` around the list
  have hj : (t + (xs.length - i)) % xs.length < w.length := hlen ▸ Nat.mod_lt _ (by omega)
  have hget := getElem_of_follows hd hc hi (by rw [hhead]; exact List.getElem?_eq_getElem h0) _ hj
  have hmod : (i + (t + (xs.length - i)) % xs.length) % xs.length = t := by
    rw [Nat.add_mod_mod, show i + (t + (xs.length - i)) = t + xs.length by omega, Nat.add_mod_right,
      Nat.mod_eq_of_lt ht]
  rw [hmod, List.getElem?_eq_getElem ht] at hget
  exact List.mem_of_getElem? hget

/-! ## Keys that occur twice -/

/-- **A key that occurs twice in a list in the order of its keys** is followed by itself. -/
theorem exists_stuck {r : κ → κ → Prop} (hanti : ∀ a b, r a b → r b a → a = b) (hsort : (xs.map key).Pairwise r)
    (hd : ¬ (xs.map key).Nodup) : ∃ x ∈ xs, ∀ y, next key xs (key x) = some y → key y = key x := by
  obtain ⟨i, j, hi, hj, hij, he⟩ : ∃ i j, ∃ (hi : i < xs.length) (hj : j < xs.length), i < j ∧
      key xs[i] = key xs[j] := by
    rw [List.nodup_iff_pairwise_ne, List.pairwise_iff_getElem] at hd
    push Not at hd
    obtain ⟨i, j, hi, hj, hij, he⟩ := hd
    simp only [List.length_map, List.getElem_map] at hi hj he
    exact ⟨i, j, hi, hj, hij, he⟩
  have hsorted : ∀ a b (ha : a < xs.length) (hb : b < xs.length), a < b → r (key xs[a]) (key xs[b]) :=
    fun a b ha hb hab => by
      have := List.pairwise_iff_getElem.1 hsort a b (by simpa using ha) (by simpa using hb) hab
      simpa using this
  refine ⟨xs[i], List.getElem_mem _, fun y hy => ?_⟩
  -- the search stops before the second occurrence, and what follows lies between the two
  obtain ⟨f, hf⟩ : ∃ f, (xs.findIdx fun x => decide (key xs[i] = key x)) = f := ⟨_, rfl⟩
  have hfi : f ≤ i := Nat.le_of_not_lt fun hlt => by
    have := List.not_of_lt_findIdx (hf ▸ hlt)
    simp at this
  have hfound : key xs[i] = key xs[f] := by
    have hlen : (xs.findIdx fun x => decide (key xs[i] = key x)) < xs.length := by omega
    have hp := List.findIdx_getElem (w := hlen)
    simpa [hf] using hp
  unfold next at hy
  rw [hf] at hy
  simp only at hy
  rw [if_neg (by omega), List.getElem?_eq_getElem (by omega), Option.some.injEq] at hy
  rw [← hy]
  by_cases hfj : f + 1 = j
  · simp only [hfj, he]
  · have hlow := hsorted f (f + 1) (by omega) (by omega) (by omega)
    have hhigh := hsorted (f + 1) j (by omega) hj (by omega)
    rw [← hfound] at hlow
    rw [← he] at hhigh
    exact hanti _ _ hhigh hlow

/-- Once the rotation is at such a key it stays there. -/
theorem stays {u : α} (hs : ∀ y, next key xs (key u) = some y → key y = key u) (hc : Follows key xs (u :: w)) :
    ∀ v ∈ w, key v = key u :=
  hc.cons_induction (fun v => key v = key u) w (fun _ b hab ha => hs b (ha ▸ hab)) rfl

end Rotation
