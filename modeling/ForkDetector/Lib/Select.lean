import Mathlib.Order.Lattice
import Mathlib.Order.Defs.LinearOrder
import Mathlib.Data.List.Sort
import ForkDetector.Lib.Go
/-!
# Select — picking an element of the highest rank

Two ways to pick: a fold that replaces the element it holds by one of a strictly higher rank, and the first element of
an unstable sort by descending rank.  Both pick an element of the highest rank, and between elements of one rank the
order of the list, or of the sort, decides.
-/
namespace Select

variable {α β : Type} [LinearOrder β] (rank : α → β)

def better (acc x : α) : α := if rank acc < rank x then x else acc

/-- `x` is in the list, and nothing in it ranks higher. -/
structure IsTop (xs : List α) (x : α) : Prop where
  mem : x ∈ xs
  le : ∀ y ∈ xs, rank y ≤ rank x

/-- **The fold picks a top element.** -/
theorem foldl_better : ∀ (xs : List α) (a : α), IsTop rank (a :: xs) (xs.foldl (better rank) a)
  | [], a => ⟨List.mem_cons_self, fun y hy => by rw [List.mem_singleton.1 hy]; exact le_refl _⟩
  | x :: xs, a => by
    obtain ⟨hmem, hle⟩ := foldl_better xs (better rank a x)
    rw [List.foldl_cons]
    unfold better at hmem hle ⊢
    by_cases h : rank a < rank x
    · simp only [if_pos h] at hmem hle ⊢
      refine ⟨List.mem_cons_of_mem _ hmem, fun y hy => ?_⟩
      rcases List.mem_cons.1 hy with rfl | hy
      · exact le_trans (le_of_lt h) (hle x List.mem_cons_self)
      · exact hle y hy
    · simp only [if_neg h] at hmem hle ⊢
      refine ⟨?_, fun y hy => ?_⟩
      · rcases List.mem_cons.1 hmem with hm | hm
        · rw [hm]; exact List.mem_cons_self
        · exact List.mem_cons_of_mem _ (List.mem_cons_of_mem _ hm)
      · rcases List.mem_cons.1 hy with rfl | hy
        · exact hle y List.mem_cons_self
        · rcases List.mem_cons.1 hy with rfl | hy
          · exact le_trans (le_of_not_gt h) (hle a List.mem_cons_self)
          · exact hle y (List.mem_cons_of_mem _ hy)

theorem foldl_better_of_le : ∀ (xs : List α) (a : α), (∀ x ∈ xs, rank x ≤ rank a) → xs.foldl (better rank) a = a
  | [], _, _ => rfl
  | x :: xs, a, h => by
    have hx : better rank a x = a := if_neg (not_lt_of_ge (h x List.mem_cons_self))
    rw [List.foldl_cons, hx, foldl_better_of_le xs a fun y hy => h y (List.mem_cons_of_mem _ hy)]

/-- **From an element below all others the fold picks a top one of them.** -/
theorem foldl_better_of_lt {xs : List α} {a : α} (hne : xs ≠ []) (h : ∀ x ∈ xs, rank a < rank x) :
    IsTop rank xs (xs.foldl (better rank) a) := by
  obtain ⟨hmem, hle⟩ := foldl_better rank xs a
  refine ⟨?_, fun y hy => hle y (List.mem_cons_of_mem _ hy)⟩
  rcases List.mem_cons.1 hmem with ha | hmem
  · obtain ⟨x, hx⟩ := List.exists_mem_of_ne_nil xs hne
    have hlt := lt_of_lt_of_le (h x hx) (hle x (List.mem_cons_of_mem _ hx))
    rw [ha] at hlt
    exact absurd hlt (lt_irrefl _)
  · exact hmem

/-! ## The first element of a sort -/

/-- A comparator that sorts by descending rank. -/
def Descending (less : α → α → Bool) : Prop := ∀ a b, less a b = true ↔ rank b < rank a

variable {rank} {less : α → α → Bool}

theorem isTop_of_sort (hless : Descending rank less) {srt : Go.UnstableSort α less} {xs rest : List α} {x : α}
    (h : srt.sort xs = x :: rest) : IsTop rank xs x := by
  have hp := srt.perm xs
  have hs := srt.sorted xs
  rw [h] at hp hs
  refine ⟨hp.mem_iff.1 List.mem_cons_self, fun y hy => ?_⟩
  rcases List.mem_cons.1 (hp.mem_iff.2 hy) with rfl | hy
  · exact le_refl _
  · have hlt := (List.pairwise_cons.1 hs).1 y hy
    rw [Bool.eq_false_iff, ne_eq, hless] at hlt
    exact le_of_not_gt hlt

/-- The order of a sort by descending rank that puts favoured elements before others of their rank. -/
def FavourLE (rank : α → β) (favoured : α → Bool) (a b : α) : Prop :=
  rank b ≤ rank a ∧ (rank b < rank a ∨ favoured a = true ∨ favoured b = false)

instance (favoured : α → Bool) : DecidableRel (FavourLE rank favoured) := fun a b =>
  inferInstanceAs (Decidable (rank b ≤ rank a ∧ (rank b < rank a ∨ favoured a = true ∨ favoured b = false)))

instance (favoured : α → Bool) : IsTrans α (FavourLE rank favoured) where
  trans a b c hab hbc := by
    refine ⟨le_trans hbc.1 hab.1, ?_⟩
    rcases hab.2 with h | h | h
    · exact .inl (lt_of_le_of_lt hbc.1 h)
    · exact .inr (.inl h)
    · rcases hbc.2 with h' | h' | h'
      · exact .inl (lt_of_lt_of_le h' hab.1)
      · rw [h] at h'; cases h'
      · exact .inr (.inr h')

instance (favoured : α → Bool) : Std.Total (FavourLE rank favoured) where
  total a b := by
    rcases lt_trichotomy (rank a) (rank b) with h | h | h
    · exact .inr ⟨le_of_lt h, .inl h⟩
    · cases hf : favoured a with
      | true => exact .inl ⟨le_of_eq h.symm, .inr (.inl hf)⟩
      | false => exact .inr ⟨le_of_eq h, .inr (.inr hf)⟩
    · exact .inl ⟨le_of_lt h, .inl h⟩

def favour (hless : Descending rank less) (favoured : α → Bool) : Go.UnstableSort α less where
  sort l := l.insertionSort (FavourLE rank favoured)
  perm l := List.perm_insertionSort _ l
  sorted l := (List.pairwise_insertionSort (FavourLE rank favoured) l).imp fun {a b} h => by
    rw [Bool.eq_false_iff, ne_eq, hless]
    exact not_lt_of_ge h.1

/-- **A favoured top element comes first.** -/
theorem favour_sort (hless : Descending rank less) (favoured : α → Bool) {xs : List α} {x : α} (hx : IsTop rank xs x)
    (hf : favoured x = true) :
    ∃ y rest, (favour hless favoured).sort xs = y :: rest ∧ IsTop rank xs y ∧ favoured y = true := by
  have hp := (favour hless favoured).perm xs
  have hs : ((favour hless favoured).sort xs).Pairwise (FavourLE rank favoured) :=
    List.pairwise_insertionSort (FavourLE rank favoured) xs
  cases hsort : (favour hless favoured).sort xs with
  | nil =>
    rw [hsort] at hp
    have := hp.mem_iff.2 hx.mem
    cases this
  | cons y rest =>
    have hy := isTop_of_sort hless hsort
    refine ⟨y, rest, rfl, hy, ?_⟩
    rw [hsort] at hp hs
    rcases List.mem_cons.1 (hp.mem_iff.2 hx.mem) with rfl | hmem
    · exact hf
    · rcases ((List.pairwise_cons.1 hs).1 x hmem).2 with h | h | h
      · exact absurd (hx.le y hy.mem) (not_le_of_gt h)
      · exact h
      · rw [hf] at h; cases h

end Select
