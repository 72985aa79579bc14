import Mathlib.Data.List.Perm.Basic
/-!
# Insertion — keys with values made from the values of other keys

An entry has a new key, a key that must be there before it, and a way to make its value from the value there.  The map
that a list of entries leaves is the one map that agrees with every entry (`eq_of_agrees`), so that any two orders in
which all entries can be inserted leave the same map (`foldl_place_perm`).
-/
namespace Insertion

variable {κ ν : Type} [DecidableEq κ]

structure Entry (κ ν : Type) where
  key : κ
  base : κ
  make : ν → ν

def place (m : κ → Option ν) (e : Entry κ ν) : κ → Option ν :=
  fun x => if x = e.key then (m e.base).map e.make else m x

/-- Each entry finds its key new and its base there. -/
def Insertable : (κ → Option ν) → List (Entry κ ν) → Prop
  | _, [] => True
  | m, e :: es => m e.key = none ∧ (m e.base).isSome = true ∧ Insertable (place m e) es

/-- A map in which each entry's key has the value made from its base, and which agrees with `m` elsewhere. -/
structure Agrees (m : κ → Option ν) (es : List (Entry κ ν)) (m' : κ → Option ν) : Prop where
  entry : ∀ e ∈ es, m' e.key = (m' e.base).map e.make
  other : ∀ x, x ∉ es.map Entry.key → m' x = m x

theorem place_of_ne {m : κ → Option ν} {e : Entry κ ν} {x : κ} (h : x ≠ e.key) : place m e x = m x := if_neg h

@[simp] theorem place_key (m : κ → Option ν) (e : Entry κ ν) : place m e e.key = (m e.base).map e.make := if_pos rfl

/-- A key that is there is not the key of an entry to come. -/
theorem not_mem_of_isSome : ∀ {es : List (Entry κ ν)} {m : κ → Option ν}, Insertable m es → ∀ {x : κ},
    (m x).isSome = true → x ∉ es.map Entry.key
  | [], _, _, _, _ => List.not_mem_nil
  | e :: es, m, ⟨hnew, _, hes⟩, x, hx => by
    have hne : x ≠ e.key := fun h => by
      rw [h, hnew] at hx
      cases hx
    rw [List.map_cons, List.mem_cons, not_or]
    exact ⟨hne, not_mem_of_isSome hes (by rw [place_of_ne hne]; exact hx)⟩

theorem agrees_foldl : ∀ {es : List (Entry κ ν)} {m : κ → Option ν}, Insertable m es →
    Agrees m es (es.foldl place m)
  | [], _, _ => ⟨fun _ h => absurd h List.not_mem_nil, fun _ _ => rfl⟩
  | e :: es, m, ⟨hnew, hbase, hes⟩ => by
    obtain ⟨hentry, hother⟩ := agrees_foldl hes
    have hne : e.base ≠ e.key := fun h => by
      rw [h, hnew] at hbase
      cases hbase
    have hkept : ∀ x, ((place m e) x).isSome = true → es.foldl place (place m e) x = place m e x :=
      fun x hx => hother x (not_mem_of_isSome hes hx)
    refine ⟨fun e' he' => ?_, fun x hx => ?_⟩
    · rcases List.mem_cons.1 he' with rfl | he'
      · rw [List.foldl_cons, hkept e'.key (by rw [place_key, Option.isSome_map]; exact hbase),
          hkept e'.base (by rw [place_of_ne hne]; exact hbase), place_key, place_of_ne hne]
      · exact hentry e' he'
    · rw [List.map_cons, List.mem_cons, not_or] at hx
      rw [List.foldl_cons, hother x hx.2, place_of_ne hx.1]

/-- **One map agrees with the entries**: by induction on the order in which they can be inserted. -/
theorem eq_of_agrees : ∀ {es : List (Entry κ ν)} {m m' : κ → Option ν}, Insertable m es → Agrees m es m' →
    m' = es.foldl place m
  | [], _, _, _, h => funext fun x => h.other x List.not_mem_nil
  | e :: es, m, m', ⟨hnew, hbase, hes⟩, h => by
    have hb : m' e.base = m e.base := by
      have hall : Insertable m (e :: es) := ⟨hnew, hbase, hes⟩
      exact h.other e.base (not_mem_of_isSome hall hbase)
    rw [List.foldl_cons]
    refine eq_of_agrees hes ⟨fun e' he' => h.entry e' (List.mem_cons_of_mem _ he'), fun x hx => ?_⟩
    by_cases hxe : x = e.key
    · rw [hxe, place_key, h.entry e List.mem_cons_self, hb]
    · rw [place_of_ne hxe]
      refine h.other x ?_
      rw [List.map_cons, List.mem_cons, not_or]
      exact ⟨hxe, hx⟩

/-- **Two orders of insertion leave one map.** -/
theorem foldl_place_perm {es es' : List (Entry κ ν)} {m : κ → Option ν} (hp : es.Perm es') (h : Insertable m es)
    (h' : Insertable m es') : es.foldl place m = es'.foldl place m := by
  obtain ⟨hentry, hother⟩ := agrees_foldl h
  refine eq_of_agrees h' ⟨fun e he => hentry e (hp.mem_iff.2 he), fun x hx => hother x ?_⟩
  rw [(hp.map Entry.key).mem_iff]
  exact hx

end Insertion
