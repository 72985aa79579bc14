import Std.Data.ExtTreeMap
import Mathlib.Logic.Function.Basic
import ForkDetector.Lib.Go
/-!
# Keyspace — typed records in one ordered map

The records of several families lie in one ordered map, each under an encoded key.  The map holds a family of values
when every key that fits finds its value and no other key is there (`Holds`); when the encoding is injective on the keys
that fit, a put or a removal changes the value of its own key alone.  A scan that covers a part of one family lists the
typed records of that part, in the order of the encoded keys (`Holds.scan`).
-/
namespace Keyspace

open Std (ExtTreeMap)

/-- A list of encoded values. -/
theorem exists_eq_map {α β : Type} {P : α → Prop} {g : α → β} : ∀ xs : List β, (∀ x ∈ xs, ∃ a, P a ∧ g a = x) →
    ∃ l : List α, xs = l.map g ∧ ∀ a ∈ l, P a
  | [], _ => ⟨[], rfl, fun _ h => absurd h List.not_mem_nil⟩
  | x :: xs, h => by
    obtain ⟨hx, hxs⟩ := List.forall_mem_cons.1 h
    obtain ⟨a, ha, rfl⟩ := hx
    obtain ⟨l, rfl, hl⟩ := exists_eq_map xs hxs
    exact ⟨a :: l, rfl, List.forall_mem_cons.2 ⟨ha, hl⟩⟩

/-- A list in ascending order is told by its members. -/
theorem eq_of_ascending {α : Type} {lt : α → α → Prop} (hlt : ∀ a b, lt a b → ¬ lt b a) {xs ys : List α}
    (hx : xs.Pairwise lt) (hy : ys.Pairwise lt) (hmem : ∀ a, a ∈ xs ↔ a ∈ ys) : xs = ys := by
  have hnodup : ∀ {zs : List α}, zs.Pairwise lt → zs.Nodup := fun hz => hz.imp fun {a b} hab he => by
    rw [he] at hab
    exact hlt b b hab hab
  have hperm : xs.Perm ys := (List.perm_ext_iff_of_nodup (hnodup hx) (hnodup hy)).2 hmem
  exact hperm.eq_of_pairwise (fun a b _ _ hab hba => absurd hba (hlt a b hab)) hx hy

variable {κ β ν : Type} [Ord β] [Std.TransOrd β] [Std.LawfulEqOrd β]

/-- The map `m` holds the values `f` under the encoded keys that fit, and nothing else. -/
structure Holds (encode : κ → β) (Fits : κ → Prop) (m : ExtTreeMap β ν) (f : κ → Option ν) : Prop where
  get : ∀ k, Fits k → m[encode k]? = f k
  only : ∀ b v, m[b]? = some v → ∃ k, Fits k ∧ encode k = b

namespace Holds
variable {encode : κ → β} {Fits : κ → Prop} {m : ExtTreeMap β ν} {f : κ → Option ν} {k : κ}

omit [Std.LawfulEqOrd β] in
theorem empty : Holds encode Fits (∅ : ExtTreeMap β ν) fun _ => none :=
  ⟨fun _ _ => Std.ExtTreeMap.getElem?_empty, fun b v h => by
    rw [Std.ExtTreeMap.getElem?_empty] at h
    cases h⟩

section
variable [DecidableEq β] [DecidableEq κ] (h : Holds encode Fits m f)
  (hinj : ∀ k k', Fits k → Fits k' → encode k = encode k' → k = k')
include h hinj

theorem insert (hk : Fits k) (v : ν) : Holds encode Fits (m.insert (encode k) v) (Function.update f k (some v)) := by
  refine ⟨fun k' hk' => ?_, fun b w hb => ?_⟩
  · rw [Go.getElem?_insert_eq, Function.update_apply, h.get k' hk']
    exact if_congr ⟨hinj k' k hk' hk, congrArg encode⟩ rfl rfl
  · rw [Go.getElem?_insert_eq] at hb
    by_cases he : b = encode k
    · exact ⟨k, hk, he.symm⟩
    · rw [if_neg he] at hb
      exact h.only b w hb

theorem erase (hk : Fits k) : Holds encode Fits (m.erase (encode k)) (Function.update f k none) := by
  refine ⟨fun k' hk' => ?_, fun b w hb => ?_⟩
  · rw [Go.getElem?_erase_eq, Function.update_apply, h.get k' hk']
    exact if_congr ⟨hinj k' k hk' hk, congrArg encode⟩ rfl rfl
  · rw [Go.getElem?_erase_eq] at hb
    by_cases he : b = encode k
    · rw [if_pos he] at hb
      cases hb
    · rw [if_neg he] at hb
      exact h.only b w hb

end

/-- **A scan that covers a part of one family lists its typed records**, in the order of their encoded keys. -/
theorem scan {α ω : Type} (h : Holds encode Fits m f) (key : α → κ) (g : ω → ν) (r : α → Option ω)
    (covers : α → Prop) (p : β → Bool)
    (hinj : ∀ a a', covers a → covers a' → encode (key a) = encode (key a') → a = a')
    (hp : ∀ k, Fits k → (p (encode k) = true ↔ ∃ a, covers a ∧ key a = k)) (hfits : ∀ a, covers a → Fits (key a))
    (hf : ∀ a, f (key a) = (r a).map g) : ∃ l : List (α × ω),
    m.toList.filter (fun e => p e.1) = l.map (fun e => (encode (key e.1), g e.2)) ∧
    (l.Pairwise fun e e' => compare (encode (key e.1)) (encode (key e'.1)) = .lt) ∧
    ∀ a w, (a, w) ∈ l ↔ covers a ∧ r a = some w := by
  have hmem : ∀ e, e ∈ m.toList.filter (fun e => p e.1) ↔ m[e.1]? = some e.2 ∧ p e.1 = true := fun e =>
    List.mem_filter.trans (and_congr_left' Std.ExtTreeMap.mem_toList_iff_getElem?_eq_some)
  have hsorted : (m.toList.filter fun e => p e.1).Pairwise fun e e' => compare e.1 e'.1 = .lt :=
    Std.ExtTreeMap.ordered_keys_toList.filter _
  obtain ⟨l, hl, hrec⟩ := exists_eq_map (P := fun e : α × ω => covers e.1 ∧ r e.1 = some e.2)
    (g := fun e => (encode (key e.1), g e.2)) (m.toList.filter fun e => p e.1) fun ⟨b, v⟩ he => by
      obtain ⟨hget, hpb⟩ := (hmem _).1 he
      obtain ⟨k, hk, rfl⟩ := h.only b v hget
      obtain ⟨a, ha, rfl⟩ := (hp k hk).1 hpb
      obtain ⟨w, hw, rfl⟩ := Option.map_eq_some_iff.1 ((hf a).symm.trans ((h.get _ hk).symm.trans hget))
      exact ⟨(a, w), ⟨ha, hw⟩, rfl⟩
  rw [hl] at hmem hsorted
  refine ⟨l, hl, List.pairwise_map.1 hsorted, fun a w => ⟨hrec (a, w), fun ⟨ha, hw⟩ => ?_⟩⟩
  have hget : m[encode (key a)]? = some (g w) := by rw [h.get _ (hfits a ha), hf, hw]; rfl
  obtain ⟨⟨a', w'⟩, hin, he⟩ := List.mem_map.1
    ((hmem (encode (key a), g w)).2 ⟨hget, (hp _ (hfits a ha)).2 ⟨a, ha, rfl⟩⟩)
  obtain ⟨ha', hw'⟩ := hrec _ hin
  obtain rfl := hinj a' a ha' ha (congrArg Prod.fst he)
  obtain rfl := Option.some.inj (hw'.symm.trans hw)
  exact hin

end Holds

end Keyspace
