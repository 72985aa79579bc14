import ForkDetector.Lib.Go
/-!
# Machine — a state machine that queues the triggers fired while it is firing

A state ignores a trigger, runs an action on it, or permits it: then the machine is in the new state before the entry
action for the trigger runs.  A trigger that an action fires waits until the triggers before it are done.  An action
that returns an error ends the firing; the state stays the new one and the triggers that wait stay queued.

The world that actions work on, the monad that they run in, and the errors that they return are parameters; the lemmas
are about actions that end in a fault or return.  Firing takes a bound on the number of triggers; `drain_mono` says that
a larger bound changes nothing.
-/
namespace Machine

variable {S T A σ E ε : Type}

inductive Handler (S A : Type) where
  | ignore
  | internal (action : A)
  | permit (destination : S)

structure Config (S T A : Type) where
  /-- Nothing for a trigger that the state does not handle. -/
  handler : S → T → Option (Handler S A)
  /-- The entry action of a state, by the trigger that leads to it. -/
  entry : S → T → Option A

/-- The state of a machine and the triggers that wait. -/
structure Control (S T : Type) where
  state : S
  pending : List T
deriving DecidableEq

/-- What an action leaves: the world, the triggers it fired, and the error it returned. -/
structure Ran (σ T E : Type) where
  world : σ
  fired : List T
  err : Option E

structure Ended (S T σ E : Type) where
  control : Control S T
  world : σ
  err : Option E

/-- The machine in state `s` after an action, the triggers `ts` still waiting. -/
def Ran.ended (s : S) (ts : List T) (r : Ran σ T E) : Ended S T σ E := ⟨⟨s, ts ++ r.fired⟩, r.world, r.err⟩

section
variable [DecidableEq S] {M : Type → Type} [Monad M] (c : Config S T A) (act : A → S → T → σ → M (Ran σ T E))
  (unhandled : S → T → E)

def fireOne (m : Control S T) (t : T) (x : σ) : M (Ended S T σ E) :=
  match c.handler m.state t with
  | none => pure ⟨m, x, some (unhandled m.state t)⟩
  | some .ignore => pure ⟨m, x, none⟩
  | some (.internal a) => do
    let r ← act a m.state t x
    pure (r.ended m.state m.pending)
  | some (.permit d) =>
    if d = m.state then pure ⟨m, x, none⟩
    else match c.entry d t with
      | none => pure ⟨⟨d, m.pending⟩, x, none⟩
      | some a => do
        let r ← act a d t x
        pure (r.ended d m.pending)

/-- The triggers that wait, one after the other, at most `n` of them; nothing when they are more. -/
def drain : (n : Nat) → Control S T → σ → M (Option (Ended S T σ E))
  | _, ⟨s, []⟩, x => pure (some ⟨⟨s, []⟩, x, none⟩)
  | 0, ⟨_, _ :: _⟩, _ => pure none
  | n + 1, ⟨s, t :: ts⟩, x => do
    let r ← fireOne c act unhandled ⟨s, ts⟩ t x
    if r.err.isSome then pure (some r) else drain n r.control r.world

/-- `Fire`, on a machine that is not firing. -/
def fire (n : Nat) (m : Control S T) (t : T) (x : σ) : M (Option (Ended S T σ E)) :=
  drain c act unhandled n ⟨m.state, m.pending ++ [t]⟩ x

end

section
variable [DecidableEq S] {c : Config S T A} {act : A → S → T → σ → Except ε (Ran σ T E)} {unhandled : S → T → E}
  {n : Nat} {s : S} {t : T} {ts : List T} {x : σ}

@[simp] theorem drain_nil : drain c act unhandled n ⟨s, []⟩ x = .ok (some ⟨⟨s, []⟩, x, none⟩) := by
  cases n <;> rfl

theorem drain_cons {r : Ended S T σ E} (h : fireOne c act unhandled ⟨s, ts⟩ t x = .ok r) :
    drain c act unhandled (n + 1) ⟨s, t :: ts⟩ x =
      if r.err.isSome then .ok (some r) else drain c act unhandled n r.control r.world := by
  rw [drain, h]
  rfl

theorem drain_cons_eq_ok {o : Option (Ended S T σ E)} : drain c act unhandled (n + 1) ⟨s, t :: ts⟩ x = .ok o ↔
    ∃ r, fireOne c act unhandled ⟨s, ts⟩ t x = .ok r ∧
      (r.err.isSome = true ∧ o = some r ∨ r.err = none ∧ drain c act unhandled n r.control r.world = .ok o) := by
  cases hf : fireOne c act unhandled ⟨s, ts⟩ t x with
  | error f =>
    rw [drain, hf]
    simp [bind, Except.bind]
  | ok r =>
    rw [drain_cons hf]
    simp only [Except.ok.injEq, exists_eq_left']
    cases he : r.err with
    | none => simp
    | some e =>
      simp only [Option.isSome_some, if_true, Except.ok.injEq, true_and, reduceCtorEq, false_and, or_false]
      exact eq_comm

theorem fireOne_ignore {m : Control S T} (h : c.handler m.state t = some .ignore) :
    fireOne c act unhandled m t x = .ok ⟨m, x, none⟩ := by
  rw [fireOne, h]
  rfl

theorem fireOne_internal {m : Control S T} {a : A} {r : Ended S T σ E}
    (h : c.handler m.state t = some (.internal a)) : fireOne c act unhandled m t x = .ok r ↔
      ∃ d, act a m.state t x = .ok d ∧ r = d.ended m.state m.pending := by
  rw [fireOne, h]
  simp only
  cases act a m.state t x <;> simp [bind, Except.bind, pure, Except.pure, eq_comm]

theorem fireOne_permit {m : Control S T} {d : S} {a : A} {r : Ended S T σ E}
    (h : c.handler m.state t = some (.permit d)) (hne : d ≠ m.state) (ha : c.entry d t = some a) :
    fireOne c act unhandled m t x = .ok r ↔ ∃ w, act a d t x = .ok w ∧ r = w.ended d m.pending := by
  rw [fireOne, h]
  simp only [if_neg hne, ha]
  cases act a d t x <;> simp [bind, Except.bind, pure, Except.pure, eq_comm]

theorem drain_cons_fault {f : ε} (h : fireOne c act unhandled ⟨s, ts⟩ t x = .error f) :
    drain c act unhandled (n + 1) ⟨s, t :: ts⟩ x = .error f := by
  rw [drain, h]
  rfl

/-- **A larger bound changes nothing.** -/
theorem drain_mono {k : Nat} {m : Control S T} {r : Ended S T σ E} (hk : n ≤ k)
    (h : drain c act unhandled n m x = .ok (some r)) : drain c act unhandled k m x = .ok (some r) := by
  induction n generalizing k m x with
  | zero =>
    obtain ⟨s, _ | ⟨t, ts⟩⟩ := m
    · rw [drain_nil] at h ⊢
      exact h
    · cases h
  | succ n ih =>
    obtain ⟨s, _ | ⟨t, ts⟩⟩ := m
    · rw [drain_nil] at h ⊢
      exact h
    · obtain ⟨k, rfl⟩ : ∃ k', k = k' + 1 := ⟨k - 1, by omega⟩
      cases hf : fireOne c act unhandled ⟨s, ts⟩ t x with
      | error f => rw [drain_cons_fault hf] at h; cases h
      | ok r' =>
        rw [drain_cons hf] at h ⊢
        split at h
        · rename_i he
          rw [if_pos he]
          exact h
        · rename_i he
          rw [if_neg he]
          exact ih (by omega) h

end

/-! ## A machine over another world -/

section
variable {τ : Type}

def Ran.map (f : σ → τ) (r : Ran σ T E) : Ran τ T E := ⟨f r.world, r.fired, r.err⟩

def Ended.map (f : σ → τ) (r : Ended S T σ E) : Ended S T τ E := ⟨r.control, f r.world, r.err⟩

variable [DecidableEq S] {c : Config S T A} {act : A → S → T → σ → Except ε (Ran σ T E)}
  {act' : A → S → T → τ → Except ε (Ran τ T E)} {unhandled : S → T → E} {f : σ → τ}
  (hact : ∀ a s t x, act' a s t (f x) = (act a s t x).map (Ran.map f))
include hact

theorem fireOne_map (m : Control S T) (t : T) (x : σ) :
    fireOne c act' unhandled m t (f x) = (fireOne c act unhandled m t x).map (Ended.map f) := by
  unfold fireOne
  cases c.handler m.state t with
  | none => rfl
  | some h =>
    cases h with
    | ignore => rfl
    | internal a =>
      simp only [hact]
      cases act a m.state t x <;> rfl
    | permit d =>
      simp only
      split
      · rfl
      · cases c.entry d t with
        | none => rfl
        | some a =>
          simp only [hact]
          cases act a d t x <;> rfl

/-- **Actions that agree up to a map of the worlds** run the machine alike. -/
theorem drain_map : ∀ (n : Nat) (m : Control S T) (x : σ),
    drain c act' unhandled n m (f x) = (drain c act unhandled n m x).map (Option.map (Ended.map f))
  | n, ⟨s, []⟩, x => by
    rw [drain_nil, drain_nil]
    rfl
  | 0, ⟨_, _ :: _⟩, _ => rfl
  | n + 1, ⟨s, t :: ts⟩, x => by
    have hone : fireOne c act' unhandled ⟨s, ts⟩ t (f x) = _ := fireOne_map hact ⟨s, ts⟩ t x
    cases hf : fireOne c act unhandled ⟨s, ts⟩ t x with
    | error e =>
      rw [hf] at hone
      rw [drain_cons_fault hf, drain_cons_fault hone]
      rfl
    | ok r =>
      rw [hf] at hone
      rw [drain_cons hf, drain_cons hone]
      show (if r.err.isSome then _ else _) = _
      split
      · rfl
      · exact drain_map n r.control r.world

end

end Machine
