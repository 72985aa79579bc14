/-!
# Run — the steps of a run, and properties of every state on it

A transition system is a relation `Step s i s'` between a state, an input and the next state.  A run is listed by its
steps.  `Path.invariant` carries a step invariant over a run; `Path.good_iff` turns the exact condition under which one
step keeps a property into the exact condition for a whole run.
-/
namespace Run

variable {S I : Type}

/-- One step of a run: the state before, the input, the state after. -/
structure Link (S I : Type) where
  pre : S
  input : I
  post : S

/-- A run from `s` to `s'`, with its steps. -/
inductive Path (Step : S → I → S → Prop) : S → List (Link S I) → S → Prop where
  | nil (s : S) : Path Step s [] s
  | cons {s s' s'' : S} {i : I} {tr : List (Link S I)} :
      Step s i s' → Path Step s' tr s'' → Path Step s (⟨s, i, s'⟩ :: tr) s''

/-- Along a run, `P` once true is true after every later step. -/
structure Forever (P : S → Prop) (tr : List (Link S I)) : Prop where
  step : ∀ x ∈ tr, P x.pre → P x.post
  later : tr.Pairwise fun x y => P x.pre → P y.post

/-- The steps of a function that may fail, up to the first failure. -/
def links {ε : Type} (f : S → I → Except ε S) (s : S) : List I → List (Link S I)
  | [] => []
  | i :: is =>
    match f s i with
    | .ok s' => ⟨s, i, s'⟩ :: links f s' is
    | .error _ => []

namespace Path
variable {Step : S → I → S → Prop} {Inv Good : S → Prop} {Cond : S → I → Prop}

theorem append {s s' s'' : S} {tr tr' : List (Link S I)} (h : Path Step s tr s') (h' : Path Step s' tr' s'') :
    Path Step s (tr ++ tr') s'' := by
  induction h with
  | nil => exact h'
  | cons hs _ ih => exact .cons hs (ih h')

theorem split : ∀ {tr tr' : List (Link S I)} {s s'' : S}, Path Step s (tr ++ tr') s'' →
    ∃ s', Path Step s tr s' ∧ Path Step s' tr' s''
  | [], _, s, _, h => ⟨s, .nil s, h⟩
  | _ :: _, _, _, _, .cons hs h => by
    obtain ⟨s', h1, h2⟩ := split h
    exact ⟨s', .cons hs h1, h2⟩

theorem step_of_mem {s s' : S} {tr : List (Link S I)} (h : Path Step s tr s') {x : Link S I} (hx : x ∈ tr) :
    Step x.pre x.input x.post := by
  induction h with
  | nil => cases hx
  | cons hs _ ih =>
    rcases List.mem_cons.1 hx with rfl | hx
    · exact hs
    · exact ih hx

theorem rest_of_mem {s s' : S} {tr : List (Link S I)} (h : Path Step s tr s') {x : Link S I} (hx : x ∈ tr) :
    ∃ tr', Path Step x.post tr' s' := by
  induction h with
  | nil => cases hx
  | cons _ h ih =>
    rcases List.mem_cons.1 hx with rfl | hx
    · exact ⟨_, h⟩
    · exact ih hx

/-- What holds at the start and after every step holds at the end. -/
theorem at_end {P : S → Prop} {s s' : S} {tr : List (Link S I)} (h : Path Step s tr s') (hs : P s)
    (hall : ∀ x ∈ tr, P x.post) : P s' := by
  induction h with
  | nil => exact hs
  | cons _ _ ih => exact ih (hall _ List.mem_cons_self) fun x hx => hall x (List.mem_cons_of_mem _ hx)

theorem restrict {Q : I → Prop} {s s' : S} {tr : List (Link S I)} (h : Path Step s tr s') (hq : ∀ x ∈ tr, Q x.input) :
    Path (fun s i s' => Step s i s' ∧ Q i) s tr s' := by
  induction h with
  | nil => exact .nil _
  | cons hs _ ih => exact .cons ⟨hs, hq _ List.mem_cons_self⟩ (ih fun x hx => hq x (List.mem_cons_of_mem _ hx))

theorem of_links {ε : Type} {f : S → I → Except ε S} : ∀ {is : List I} {s s' : S}, is.foldlM f s = .ok s' →
    Path (fun s i s' => f s i = .ok s') s (links f s is) s' ∧ (links f s is).map Link.input = is
  | [], s, s', h => by
    cases h
    exact ⟨.nil s, rfl⟩
  | i :: is, s, s', h => by
    rw [List.foldlM_cons] at h
    cases hi : f s i with
    | error e => rw [hi] at h; cases h
    | ok s1 =>
      rw [hi] at h
      obtain ⟨htr, his⟩ := of_links h
      simp only [links, hi]
      exact ⟨.cons hi htr, by rw [List.map_cons, his]⟩

theorem of_foldlM {ε : Type} {f : S → I → Except ε S} {is : List I} {s s' : S} (h : is.foldlM f s = .ok s') :
    ∃ tr, Path (fun s i s' => f s i = .ok s') s tr s' ∧ tr.map Link.input = is := ⟨_, of_links h⟩

theorem step_of_foldlM {ε : Type} {f : S → I → Except ε S} {is : List I} {i : I} {s s1 s2 : S}
    (h : is.foldlM f s = .ok s1) (h' : (is ++ [i]).foldlM f s = .ok s2) : f s1 i = .ok s2 := by
  rw [List.foldlM_append, h] at h'
  exact (bind_pure (f s1 i)).symm.trans h'

theorem first_of_foldlM {ε : Type} {f : S → I → Except ε S} {i : I} {s s1 : S} (h : [i].foldlM f s = .ok s1) :
    f s i = .ok s1 := (bind_pure (f s i)).symm.trans h

/-- **A property that every step keeps holds before and after every step of a run**, and at its end. -/
theorem invariant (hstep : ∀ s i s', Inv s → Step s i s' → Inv s') {s s' : S} {tr : List (Link S I)}
    (hs : Inv s) (h : Path Step s tr s') : (∀ x ∈ tr, Inv x.pre ∧ Inv x.post) ∧ Inv s' := by
  induction h with
  | nil => exact ⟨fun x hx => absurd hx List.not_mem_nil, hs⟩
  | cons h1 _ ih =>
    have hpost := hstep _ _ _ hs h1
    obtain ⟨hall, hend⟩ := ih hpost
    refine ⟨fun x hx => ?_, hend⟩
    rcases List.mem_cons.1 hx with rfl | hx
    · exact ⟨hs, hpost⟩
    · exact hall x hx

/-- **A property of the steps so far and the state**, when every step keeps it, holds at the end of a run. -/
theorem history {P : List (Link S I) → S → Prop}
    (hstep : ∀ tr s i s', P tr s → Step s i s' → P (tr ++ [⟨s, i, s'⟩]) s') {s s' : S} {tr : List (Link S I)}
    (hs : P [] s) (h : Path Step s tr s') : P tr s' := by
  have hall : ∀ {s s' : S} {tr : List (Link S I)}, Path Step s tr s' → ∀ pre, P pre s → P (pre ++ tr) s' := by
    intro s s' tr h
    induction h with
    | nil => exact fun pre hs => by rwa [List.append_nil]
    | cons h1 _ ih => exact fun pre hs => List.append_cons pre _ _ ▸ ih _ (hstep _ _ _ _ hs h1)
  exact hall h [] hs

/-- **A run of one system is a run of another**, when every step is.  What the two have put out may differ by what the
first still holds back. -/
theorem simulates {T J O : Type} {Step' : T → J → T → Prop} (f : S → T) (out : Link S I → List O)
    (out' : Link T J → List O) (back : S → List O)
    (hstep : ∀ s i s', Step s i s' → ∃ tr, Path Step' (f s) tr (f s') ∧
      tr.flatMap out' ++ back s' = back s ++ out ⟨s, i, s'⟩) {s s' : S} {tr : List (Link S I)}
    (h : Path Step s tr s') : ∃ tr', Path Step' (f s) tr' (f s') ∧
      tr'.flatMap out' ++ back s' = back s ++ tr.flatMap out := by
  induction h with
  | nil s => exact ⟨[], .nil _, by simp⟩
  | cons h1 _ ih =>
    obtain ⟨tr1, hp1, ho1⟩ := hstep _ _ _ h1
    obtain ⟨tr2, hp2, ho2⟩ := ih
    refine ⟨tr1 ++ tr2, hp1.append hp2, ?_⟩
    rw [List.flatMap_append, List.append_assoc, ho2, ← List.append_assoc, ho1, List.flatMap_cons, List.append_assoc]

/-- **A run that ends**: when every state of an invariant that is not done has a step to one with a smaller measure. -/
theorem exists_done {Done : S → Prop} (m : S → Nat)
    (hstep : ∀ s, Inv s → ¬ Done s → ∃ i s', Step s i s' ∧ Inv s' ∧ m s' < m s) {s : S} (hs : Inv s) :
    ∃ tr s', Path Step s tr s' ∧ Inv s' ∧ Done s' := by
  induction hn : m s using Nat.strongRecOn generalizing s with
  | _ n ih =>
    by_cases hd : Done s
    · exact ⟨[], s, .nil s, hs, hd⟩
    · obtain ⟨i, s1, h1, hs1, hlt⟩ := hstep s hs hd
      obtain ⟨tr, s', htr, hs', hd'⟩ := ih (m s1) (hn ▸ hlt) hs1 rfl
      exact ⟨_, s', .cons h1 htr, hs', hd'⟩

/-- A run whose steps all meet a condition under which good states lead to good states. -/
theorem good_of_cond (hstep : ∀ s i s', Inv s → Good s → Step s i s' → Inv s' ∧ (Good s' ↔ Cond s i))
    {s s' : S} {tr : List (Link S I)} (hs : Inv s) (hg : Good s) (h : Path Step s tr s')
    (hc : ∀ x ∈ tr, Cond x.pre x.input) : ∀ x ∈ tr, Inv x.pre ∧ Good x.post := by
  induction h with
  | nil => exact fun x hx => absurd hx List.not_mem_nil
  | cons h1 _ ih =>
    obtain ⟨hinv, hiff⟩ := hstep _ _ _ hs hg h1
    obtain ⟨hc1, hctr⟩ := List.forall_mem_cons.1 hc
    exact List.forall_mem_cons.2 ⟨⟨hs, hiff.2 hc1⟩, ih hinv (hiff.2 hc1) hctr⟩

/-- **The exact condition for a run.**  When a step from a good state leads to a good state exactly under `Cond`, all
states reached are good exactly when all steps meet `Cond`. -/
theorem good_iff (hstep : ∀ s i s', Inv s → Good s → Step s i s' → Inv s' ∧ (Good s' ↔ Cond s i))
    {s s' : S} {tr : List (Link S I)} (hs : Inv s) (hg : Good s) (h : Path Step s tr s') :
    (∀ x ∈ tr, Good x.post) ↔ ∀ x ∈ tr, Cond x.pre x.input := by
  refine ⟨?_, fun hc x hx => (good_of_cond hstep hs hg h hc x hx).2⟩
  induction h with
  | nil => exact fun _ x hx => absurd hx List.not_mem_nil
  | cons h1 _ ih =>
    intro hall
    obtain ⟨hinv, hiff⟩ := hstep _ _ _ hs hg h1
    obtain ⟨hp, htr⟩ := List.forall_mem_cons.1 hall
    exact List.forall_mem_cons.2 ⟨hiff.1 hp, ih hinv hp htr⟩

theorem forever_of_step {P : S → Prop} {s s' : S} {tr : List (Link S I)} (h : Path Step s tr s')
    (hstep : ∀ x ∈ tr, P x.pre → P x.post) : Forever P tr := by
  refine ⟨hstep, ?_⟩
  have hall : ∀ {s s' : S} {tr : List (Link S I)}, Path Step s tr s' → (∀ x ∈ tr, P x.pre → P x.post) → P s →
      ∀ y ∈ tr, P y.post := by
    intro s s' tr h
    induction h with
    | nil => exact fun _ _ y hy => absurd hy List.not_mem_nil
    | cons _ _ ih =>
      intro hstep hs y hy
      have hpost := hstep _ List.mem_cons_self hs
      rcases List.mem_cons.1 hy with rfl | hy
      · exact hpost
      · exact ih (fun x hx => hstep x (List.mem_cons_of_mem _ hx)) hpost y hy
  induction h with
  | nil => exact .nil
  | cons _ htr ih =>
    have hrest := fun x hx => hstep x (List.mem_cons_of_mem _ hx)
    exact .cons (fun y hy hs => hall htr hrest (hstep _ List.mem_cons_self hs) y hy) (ih hrest)

end Path

end Run
