import Mathlib.Algebra.BigOperators.Group.List.Lemmas
import Mathlib.Algebra.GroupWithZero.Nat
import ForkDetector.Lib.Go
/-!
# Tally — counting in a map

A loop that counts keys in a map ends with one entry for each key that occurs, with the number of its occurrences
(`mem_toList_tally`), and the numbers add up to the length of the list (`sum_tally`), in any order of the entries.
-/
namespace Tally

open Std (ExtTreeMap)

variable {κ : Type} [Ord κ] [Std.TransOrd κ]

/-- `m[k]++`. -/
def bump (m : ExtTreeMap κ Nat) (k : κ) : ExtTreeMap κ Nat := m.insert k (m.getD k 0 + 1)

def tally (ks : List κ) : ExtTreeMap κ Nat := ks.foldl bump ∅

theorem tally_append_singleton (ks : List κ) (k : κ) : tally (ks ++ [k]) = bump (tally ks) k := by
  unfold tally
  rw [List.foldl_append]
  rfl

theorem nodup_tally (ks : List κ) : ((tally ks).toList.map Prod.fst).Nodup := by
  rw [Std.ExtTreeMap.map_fst_toList_eq_keys]
  exact Std.ExtTreeMap.nodup_keys

variable [Std.LawfulEqOrd κ] [DecidableEq κ]

/-- **The entry of a key** is the number of its occurrences. -/
theorem getElem?_tally (ks : List κ) (k : κ) :
    (tally ks)[k]? = if ks.count k = 0 then none else some (ks.count k) := by
  induction ks using List.reverseRecOn with
  | nil => simp [tally]
  | append_singleton ks x ih =>
    rw [tally_append_singleton, bump, Go.getElem?_insert_eq, List.count_append, List.count_singleton]
    by_cases h : k = x
    · subst h
      rw [if_pos rfl, Std.ExtTreeMap.getD_eq_getD_getElem?, ih]
      by_cases h0 : ks.count k = 0
      · simp [h0]
      · simp [h0]
    · have hx : ¬ x = k := fun e => h e.symm
      simp [h, hx, ih]

theorem mem_toList_tally {ks : List κ} {k : κ} {n : Nat} :
    (k, n) ∈ (tally ks).toList ↔ n = ks.count k ∧ n ≠ 0 := by
  rw [Std.ExtTreeMap.mem_toList_iff_getElem?_eq_some, getElem?_tally]
  constructor
  · intro h
    split at h
    · cases h
    · rename_i hne
      cases h
      exact ⟨rfl, hne⟩
  · rintro ⟨rfl, hne⟩
    rw [if_neg hne]

/-- The entries, up to their order. -/
theorem toList_tally_perm (ks : List κ) : (tally ks).toList.Perm (ks.dedup.map fun k => (k, ks.count k)) := by
  refine (List.perm_ext_iff_of_nodup (nodup_tally ks).of_map ?_).2 fun e => ?_
  · exact ks.nodup_dedup.map fun a b h => (Prod.mk.inj h).1
  · obtain ⟨k, n⟩ := e
    rw [mem_toList_tally, List.mem_map]
    constructor
    · rintro ⟨rfl, h0⟩
      exact ⟨k, List.mem_dedup.2 (List.count_pos_iff.1 (Nat.pos_of_ne_zero h0)), rfl⟩
    · rintro ⟨k', hk, he⟩
      obtain ⟨rfl, rfl⟩ := Prod.mk.inj he
      exact ⟨rfl, (List.count_pos_iff.2 (List.mem_dedup.1 hk)).ne'⟩

/-- **The numbers add up** to the length of the list. -/
theorem sum_tally (ks : List κ) : ((tally ks).toList.map Prod.snd).sum = ks.length := by
  rw [((toList_tally_perm ks).map Prod.snd).sum_eq, List.map_map]
  exact List.sum_map_count_dedup_eq_length ks

end Tally
