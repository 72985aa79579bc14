import ForkDetector.Lib.Machine
import ForkDetector.Lib.Run
/-!
# Client — a computation that calls an object which others call too

A client makes calls one after the other.  A call is atomic, but others may call the object between two of them, so that
what a client does is no function of the state that it begins in.  Alone with the object it is one (`alone`), and a run
of its steps in which no other step falls comes to the same (`undisturbed_iff`).  In any company it can rely on what
moves the object only upwards: `Among` is what a client then does, whatever falls in between, and `run_among` carries it
over every run.

The calls and their answers, the object, the faults of a client and of a call, which end everything, and what the others
do are parameters.
-/
inductive Client (φ C : Type) (A : C → Type) (α : Type) where
  | done (a : α)
  | fault (f : φ)
  | call (c : C) (next : A c → Client φ C A α)

namespace Client

variable {ε φ C S : Type} {A : C → Type} {α β : Type}

def bind : Client φ C A α → (α → Client φ C A β) → Client φ C A β
  | .done a, f => f a
  | .fault e, _ => .fault e
  | .call c next, f => .call c fun a => (next a).bind f

instance : Monad (Client φ C A) where
  pure := .done
  bind := .bind

/-- One call. -/
def ask (c : C) : Client φ C A (A c) := .call c .done

/-! ## Alone -/

section
variable (fail : φ → ε) (serve : (c : C) → S → Except ε (A c × S))

/-- The client with the object to itself. -/
def alone : Client φ C A α → S → Except ε (α × S)
  | .done a, s => .ok (a, s)
  | .fault f, _ => .error (fail f)
  | .call c next, s => do
    let r ← serve c s
    (next r.1).alone r.2

theorem alone_call (c : C) (next : A c → Client φ C A α) (s : S) :
    (call c next).alone fail serve s = serve c s >>= fun r => (next r.1).alone fail serve r.2 := rfl

@[simp] theorem alone_bind (x : Client φ C A α) (f : α → Client φ C A β) (s : S) :
    (x >>= f).alone fail serve s = x.alone fail serve s >>= fun r => (f r.1).alone fail serve r.2 := by
  induction x generalizing s with
  | done a => rfl
  | fault e => rfl
  | call c next ih =>
    show (serve c s >>= fun r => ((next r.1) >>= f).alone fail serve r.2) = _
    rw [alone_call]
    cases serve c s with
    | error e => rfl
    | ok r => exact ih r.1 r.2

@[simp] theorem alone_ask (c : C) (s : S) : (ask c : Client φ C A (A c)).alone fail serve s = serve c s := by
  show (serve c s >>= fun r => .ok (r.1, r.2)) = _
  cases serve c s <;> rfl

end

/-! ## A machine whose actions make calls -/

section
open Machine

variable {St T Ac E σ τ : Type} [DecidableEq St] {fail : φ → ε} {serve : (c : C) → S → Except ε (A c × S)}
  {c : Config St T Ac} {act : Ac → St → T → σ → Client φ C A (Ran σ T E)}
  {act' : Ac → St → T → τ → Except ε (Ran τ T E)} {unhandled : St → T → E} {join : S → σ → τ}
  (hact : ∀ a s t x o, act' a s t (join o x) = ((act a s t x).alone fail serve o).map fun r => r.1.map (join r.2))
include hact

theorem fireOne_alone (m : Control St T) (t : T) (x : σ) (o : S) : fireOne c act' unhandled m t (join o x) =
    ((fireOne c act unhandled m t x).alone fail serve o).map fun r => r.1.map (join r.2) := by
  unfold fireOne
  cases c.handler m.state t with
  | none => rfl
  | some h =>
    cases h with
    | ignore => rfl
    | internal a =>
      simp only [hact, alone_bind]
      cases (act a m.state t x).alone fail serve o <;> rfl
    | permit d =>
      simp only
      split
      · rfl
      · cases c.entry d t with
        | none => rfl
        | some a =>
          simp only [hact, alone_bind]
          cases (act a d t x).alone fail serve o <;> rfl

/-- **A machine whose actions make calls** is, alone with the object, the machine whose world holds the object. -/
theorem drain_alone : ∀ (n : Nat) (m : Control St T) (x : σ) (o : S), drain c act' unhandled n m (join o x) =
    ((drain c act unhandled n m x).alone fail serve o).map fun r => r.1.map (Ended.map (join r.2))
  | n, ⟨s, []⟩, x, o => by
    cases n <;> rfl
  | 0, ⟨_, _ :: _⟩, _, _ => rfl
  | n + 1, ⟨s, t :: ts⟩, x, o => by
    rw [drain, drain, alone_bind, fireOne_alone hact ⟨s, ts⟩ t x o]
    cases (fireOne c act unhandled ⟨s, ts⟩ t x).alone fail serve o with
    | error f => rfl
    | ok r =>
      show (if r.1.err.isSome = true then _ else _) =
        (alone fail serve (if r.1.err.isSome = true then _ else _) r.2).map _
      split
      · rfl
      · exact drain_alone n r.1.control r.1.world r.2

end

/-! ## Among others -/

/-- The object, and what the client has of its own: between two of its tasks, or at work on one. -/
structure Site (φ C : Type) (A : C → Type) (S L : Type) where
  shared : S
  own : L
  doing : Option (Client φ C A L)

inductive Act (I O : Type) where
  | begins (i : I)
  | calls
  | ends
  | other (o : O)

section
variable {I O L : Type} (serve : (c : C) → S → Except ε (A c × S)) (handle : I → L → Client φ C A L)
  (others : S → O → S → Prop)

/-- The client begins a task, makes its next call, or ends the task; or another one makes a call. -/
inductive Step : Site φ C A S L → Act I O → Site φ C A S L → Prop where
  | begins (s : S) (l : L) (i : I) : Step ⟨s, l, none⟩ (.begins i) ⟨s, l, some (handle i l)⟩
  | calls {s s' : S} {c : C} {a : A c} (l : L) (next : A c → Client φ C A L) : serve c s = .ok (a, s') →
      Step ⟨s, l, some (.call c next)⟩ .calls ⟨s', l, some (next a)⟩
  | ends (s : S) (l l' : L) : Step ⟨s, l, some (.done l')⟩ .ends ⟨s, l', none⟩
  | other {s s' : S} {o : O} (l : L) (doing : Option (Client φ C A L)) : others s o s' →
      Step ⟨s, l, doing⟩ (.other o) ⟨s', l, doing⟩

end

section
open Run (Path Link)

variable {I O L : Type} {fail : φ → ε} {serve : (c : C) → S → Except ε (A c × S)} {handle : I → L → Client φ C A L}
  {others : S → O → S → Prop} {s s' : S} {l l' : L}

theorem exists_calls {p : Client φ C A L} (h : p.alone fail serve s = .ok (l', s')) : ∃ n tr,
    Path (Step serve handle others) ⟨s, l, some p⟩ tr ⟨s', l', none⟩ ∧
      tr.map Link.input = List.replicate n .calls ++ [.ends] := by
  induction p generalizing s with
  | done a =>
    cases h
    exact ⟨0, _, .cons (.ends _ _ _) (.nil _), rfl⟩
  | fault f => cases h
  | call c next ih =>
    rw [alone_call] at h
    cases hc : serve c s with
    | error f =>
      rw [hc] at h
      cases h
    | ok r =>
      rw [hc] at h
      obtain ⟨n, tr, htr, hin⟩ := ih r.1 h
      exact ⟨n + 1, _, .cons (.calls _ _ hc) htr, by rw [List.map_cons, hin]; rfl⟩

theorem alone_of_calls : ∀ {n : Nat} {p : Client φ C A L} {s : S} {tr : List (Link (Site φ C A S L) (Act I O))},
    Path (Step serve handle others) ⟨s, l, some p⟩ tr ⟨s', l', none⟩ →
    tr.map Link.input = List.replicate n .calls ++ [.ends] → p.alone fail serve s = .ok (l', s')
  | 0, p, s, tr, h, hin => by
    cases h with
    | cons h1 h =>
      obtain ⟨rfl, hnil⟩ := List.cons.inj hin
      obtain rfl := List.map_eq_nil_iff.1 hnil
      cases h1
      cases h
      rfl
  | n + 1, p, s, tr, h, hin => by
    cases h with
    | cons h1 h =>
      obtain ⟨rfl, hrest⟩ := List.cons.inj hin
      cases h1 with
      | calls _ next hc =>
        rw [alone_call, hc]
        exact alone_of_calls h hrest

/-- **A task that no other step falls into** does what the client does alone. -/
theorem undisturbed_iff (fail : φ → ε) {i : I} : (handle i l).alone fail serve s = .ok (l', s') ↔ ∃ n tr,
    Path (Step serve handle others) ⟨s, l, none⟩ tr ⟨s', l', none⟩ ∧
      tr.map Link.input = .begins i :: List.replicate n .calls ++ [.ends] := by
  constructor
  · intro h
    obtain ⟨n, tr, htr, hin⟩ := exists_calls h
    exact ⟨n, _, .cons (.begins s l i) htr, by rw [List.map_cons, hin]; rfl⟩
  · rintro ⟨n, tr, h, hin⟩
    cases h with
    | nil => cases hin
    | cons h1 h =>
      obtain ⟨rfl, hrest⟩ := List.cons.inj hin
      cases h1
      exact alone_of_calls h hrest

end

/-! ## In company -/

section
variable (serve : (c : C) → S → Except ε (A c × S)) (le : S → S → Prop)

/-- **What a client does among others** that move the object only upwards: so does it, and it ends in what meets
`post`. -/
def Among (post : α → S → Prop) : Client φ C A α → S → Prop
  | .done a, s => post a s
  | .fault _, _ => True
  | .call c next, s => ∀ s₁, le s s₁ → ∀ a s₂, serve c s₁ = .ok (a, s₂) → le s₁ s₂ ∧ (next a).Among post s₂

/-- An order of the states of an object, and what stays true of them upwards. -/
structure Upward (post : α → S → Prop) : Prop where
  refl : ∀ s, le s s
  trans : ∀ s s' s'', le s s' → le s' s'' → le s s''
  stable : ∀ a s s', le s s' → post a s → post a s'

end

section
variable {serve : (c : C) → S → Except ε (A c × S)} {le : S → S → Prop} {post : α → S → Prop} {post' : β → S → Prop}
  {s s' : S}

theorem Among.later (U : Upward le post) {p : Client φ C A α} (h : p.Among serve le post s) (hs : le s s') :
    p.Among serve le post s' := by
  cases p with
  | done a => exact U.stable a s s' hs h
  | fault f => trivial
  | call c next => exact fun s₁ h₁ => h s₁ (U.trans _ _ _ hs h₁)

theorem Among.bind (U : Upward le post) {p : Client φ C A α} {f : α → Client φ C A β}
    (h : p.Among serve le post s) (hf : ∀ a s', le s s' → post a s' → (f a).Among serve le post' s') :
    (p >>= f).Among serve le post' s := by
  induction p generalizing s with
  | done a => exact hf a s (U.refl s) h
  | fault e => trivial
  | call c next ih =>
    intro s₁ h₁ a s₂ hc
    obtain ⟨h₂, hnext⟩ := h s₁ h₁ a s₂ hc
    have hle : le s s₂ := U.trans _ _ _ h₁ h₂
    exact ⟨h₂, ih a hnext fun b s' hs' => hf b s' (U.trans _ _ _ hle hs')⟩

section
open Machine

variable {St T Ac E σ : Type} [DecidableEq St] {c : Config St T Ac} {act : Ac → St → T → σ → Client φ C A (Ran σ T E)}
  {unhandled : St → T → E} {post : σ → S → Prop} (U : Upward le post)
  (hact : ∀ a st t x s, post x s → (act a st t x).Among serve le (fun r => post r.world) s)
include U hact

theorem fireOne_among (m : Control St T) (t : T) {x : σ} (hx : post x s) :
    (fireOne c act unhandled m t x).Among serve le (fun r => post r.world) s := by
  have hended : ∀ {st : St} {a : Ac}, ((act a st t x) >>= fun r => pure (r.ended st m.pending)).Among serve le
      (fun r => post r.world) s := fun {st a} =>
    (hact a st t x s hx).bind ⟨U.refl, U.trans, fun r => U.stable r.world⟩ fun r s' _ hr => hr
  unfold fireOne
  cases c.handler m.state t with
  | none => exact hx
  | some h =>
    cases h with
    | ignore => exact hx
    | internal a => exact hended
    | permit d =>
      dsimp only
      split
      · exact hx
      · cases c.entry d t with
        | none => exact hx
        | some a => exact hended

/-- **What every action keeps among others, firing keeps.** -/
theorem drain_among : ∀ (n : Nat) (m : Control St T) {x : σ} {s : S}, post x s →
    (drain c act unhandled n m x).Among serve le (fun r s => ∀ e, r = some e → post e.world s) s
  | n, ⟨st, []⟩, x, s, hx => by
    cases n <;> exact fun e he => Option.some.inj he ▸ hx
  | 0, ⟨_, _ :: _⟩, _, _, _ => fun e he => nomatch he
  | n + 1, ⟨st, t :: ts⟩, x, s, hx => by
    rw [drain]
    refine (fireOne_among U hact ⟨st, ts⟩ t hx).bind ⟨U.refl, U.trans, fun r => U.stable r.world⟩ fun r s' _ hr => ?_
    split
    · exact fun e he => Option.some.inj he ▸ hr
    · exact drain_among n r.control hr

end

open Run (Path Link)

variable {I O L : Type} {handle : I → L → Client φ C A L} {others : S → O → S → Prop} {inv : L → S → Prop}

/-- What holds of a site: the client has what it needs, or is to have it at the end of its task. -/
def Holds (serve : (c : C) → S → Except ε (A c × S)) (le : S → S → Prop) (inv : L → S → Prop) (w : Site φ C A S L) :
    Prop :=
  match w.doing with
  | none => inv w.own w.shared
  | some p => p.Among serve le inv w.shared

theorem step_among (U : Upward le inv) (hothers : ∀ s o s', others s o s' → le s s')
    (hhandle : ∀ i l s, inv l s → (handle i l).Among serve le inv s) {w w' : Site φ C A S L} {a : Act I O}
    (h : Step serve handle others w a w') (hw : Holds serve le inv w) :
    le w.shared w'.shared ∧ Holds serve le inv w' := by
  cases h with
  | begins s l i => exact ⟨U.refl s, hhandle i l s hw⟩
  | calls l next hc => exact hw _ (U.refl _) _ _ hc
  | ends s l l' => exact ⟨U.refl s, hw⟩
  | other l doing ho =>
    have hle := hothers _ _ _ ho
    refine ⟨hle, ?_⟩
    cases doing with
    | none => exact U.stable l _ _ hle hw
    | some p => exact Among.later U hw hle

/-- **Every run moves the object upwards**, and the client has what it needs after each of its tasks. -/
theorem run_among (U : Upward le inv) (hothers : ∀ s o s', others s o s' → le s s')
    (hhandle : ∀ i l s, inv l s → (handle i l).Among serve le inv s) {w w' : Site φ C A S L}
    {tr : List (Link (Site φ C A S L) (Act I O))} (h : Path (Step serve handle others) w tr w')
    (hw : Holds serve le inv w) : le w.shared w'.shared ∧ Holds serve le inv w' := by
  induction h with
  | nil w => exact ⟨U.refl _, hw⟩
  | cons h1 _ ih =>
    obtain ⟨hle, hw1⟩ := step_among U hothers hhandle h1 hw
    obtain ⟨hle', hw'⟩ := ih hw1
    exact ⟨U.trans _ _ _ hle hle', hw'⟩

end

end Client
