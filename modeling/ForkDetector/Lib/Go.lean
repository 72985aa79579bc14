import Std.Data.ExtTreeMap
import Mathlib.Data.List.Forall2
import Mathlib.Data.List.Perm.Basic
/-!
# Go — what a call of a Go function ends in

A call returns a value, returns an error, or panics.  An error is a sentinel, a fresh text, or a text wrapped around
a cause (`fmt.Errorf` with `%w`), and `errors.Is` looks for a sentinel down the chain of causes.  The order in which a
map is ranged over and the order `sort.Sort` leaves equal elements in are not specified by the language; each is a
structure here, with the promise it keeps as a field.
-/
namespace Go

inductive Err (σ : Type) where
  | sentinel (s : σ)
  | text (msg : String)
  | wrap (msg : String) (cause : Err σ)
deriving DecidableEq

/-- `errors.Is` against a sentinel. -/
def Err.is {σ : Type} [DecidableEq σ] (s : σ) : Err σ → Bool
  | .sentinel s' => decide (s' = s)
  | .text _ => false
  | .wrap _ e => e.is s

/-- Why a call did not return a value. -/
inductive Fault (σ : Type) where
  | err (e : Err σ)
  | panic (msg : String)
deriving DecidableEq

abbrev Outcome (σ α : Type) := Except (Fault σ) α

section
variable {σ α β : Type}

def fail (e : Err σ) : Outcome σ α := .error (.err e)

def panic (msg : String) : Outcome σ α := .error (.panic msg)

/-- The result of a call that returns a value or an error, and never panics. -/
def lift : Except (Err σ) α → Outcome σ α
  | .ok a => .ok a
  | .error e => fail e

/-- `fmt.Errorf("msg: %w", err)` on the way out; a panic passes through. -/
def wrap (msg : String) : Outcome σ α → Outcome σ α
  | .error (.err e) => .error (.err (.wrap msg e))
  | r => r

/-- The error of a call as a value; a panic passes through. -/
def attempt : Outcome σ α → Outcome σ (Except (Err σ) α)
  | .ok a => .ok (.ok a)
  | .error (.err e) => .ok (.error e)
  | .error (.panic msg) => .error (.panic msg)

/-- `xs[i]`, checked at run time. -/
def index (xs : List α) (i : Nat) : Outcome σ α :=
  match xs[i]? with
  | some x => .ok x
  | none => panic "index out of range"

/-- `make([]T, 0, count)`, checked at run time against the largest capacity of a slice of these elements. -/
def makeslice (limit : Nat) (count : Int) : Outcome σ Unit :=
  if count < 0 ∨ (limit : Int) < count then panic "makeslice: cap out of range" else .ok ()

theorem bind_eq_ok {x : Outcome σ α} {f : α → Outcome σ β} {b : β} :
    (x >>= f) = .ok b ↔ ∃ a, x = .ok a ∧ f a = .ok b := by
  cases x <;> simp [bind, Except.bind]

theorem exists_of_isOk {x : Outcome σ α} (h : x.isOk = true) : ∃ a, x = .ok a := by
  cases x with
  | ok a => exact ⟨a, rfl⟩
  | error f => cases h

@[simp] theorem wrap_ok (msg : String) (a : α) : wrap (σ := σ) msg (.ok a) = .ok a := rfl

@[simp] theorem wrap_eq_ok {msg : String} {x : Outcome σ α} {a : α} : wrap msg x = .ok a ↔ x = .ok a := by
  cases x with
  | ok b => rfl
  | error f => cases f <;> simp [wrap]

@[simp] theorem lift_eq_ok {x : Except (Err σ) α} {a : α} : lift x = .ok a ↔ x = .ok a := by
  cases x <;> simp [lift, fail]

@[simp] theorem attempt_eq_ok {x : Outcome σ α} {a : α} : attempt x = .ok (.ok a) ↔ x = .ok a := by
  cases x with
  | ok b => simp [attempt]
  | error f => cases f <;> simp [attempt]

@[simp] theorem attempt_eq_error {x : Outcome σ α} {e : Err σ} : attempt x = .ok (.error e) ↔ x = .error (.err e) := by
  cases x with
  | ok b => simp [attempt]
  | error f => cases f <;> simp [attempt]

def NoError (x : Outcome σ α) : Prop := ∀ e, x ≠ .error (.err e)

theorem NoError.of_ok {x : Outcome σ α} {a : α} (h : x = .ok a) : NoError x := fun e he => by
  rw [h] at he; cases he

theorem NoError.bind {x : Outcome σ α} {f : α → Outcome σ β} (hx : NoError x)
    (hf : ∀ a, x = .ok a → NoError (f a)) : NoError (x >>= f) := by
  cases x with
  | ok a => exact hf a rfl
  | error g =>
    intro e he
    have he' : (.error g : Outcome σ β) = .error (.err e) := he
    cases he'
    exact hx e rfl

theorem NoError.wrap {msg : String} {x : Outcome σ α} (h : NoError x) : NoError (Go.wrap msg x) := by
  cases x with
  | ok a => exact .of_ok rfl
  | error f =>
    cases f with
    | err e => exact absurd rfl (h e)
    | panic m => intro e he; cases he

theorem NoError.panic (msg : String) : NoError (Go.panic msg : Outcome σ α) := fun _ h => by cases h

theorem NoError.mapM {f : α → Outcome σ β} : ∀ {xs : List α}, (∀ x ∈ xs, NoError (f x)) → NoError (xs.mapM f)
  | [], _ => .of_ok rfl
  | x :: xs, h => by
    rw [List.mapM_cons]
    refine .bind (h x List.mem_cons_self) fun y _ => .bind ?_ fun ys _ => .of_ok rfl
    exact mapM fun x' hx => h x' (List.mem_cons_of_mem _ hx)

theorem NoError.foldlM {f : β → α → Outcome σ β} : ∀ {xs : List α} (b : β),
    (∀ x ∈ xs, ∀ b, NoError (f b x)) → NoError (xs.foldlM f b)
  | [], _, _ => .of_ok rfl
  | x :: xs, b, h => by
    rw [List.foldlM_cons]
    refine .bind (h x List.mem_cons_self b) fun b' _ => ?_
    exact foldlM b' fun x' hx => h x' (List.mem_cons_of_mem _ hx)

def NoPanic (x : Outcome σ α) : Prop := ∀ msg, x ≠ .error (.panic msg)

theorem NoPanic.of_ok {x : Outcome σ α} {a : α} (h : x = .ok a) : NoPanic x := fun msg hm => by
  rw [h] at hm; cases hm

theorem NoPanic.fail (e : Err σ) : NoPanic (Go.fail e : Outcome σ α) := fun _ h => by cases h

theorem not_noPanic (msg : String) : ¬ NoPanic (Go.panic msg : Outcome σ α) := fun h => h msg rfl

@[simp] theorem noPanic_wrap {msg : String} {x : Outcome σ α} : NoPanic (Go.wrap msg x) ↔ NoPanic x := by
  cases x with
  | ok a => rfl
  | error f =>
    cases f with
    | err e => exact iff_of_true (fun m h => by cases h) fun m h => by cases h
    | panic m => rfl

theorem NoPanic.bind {x : Outcome σ α} {f : α → Outcome σ β} (hx : NoPanic x)
    (hf : ∀ a, x = .ok a → NoPanic (f a)) : NoPanic (x >>= f) := by
  cases x with
  | ok a => exact hf a rfl
  | error g =>
    intro msg hm
    have hm' : (.error g : Outcome σ β) = .error (.panic msg) := hm
    cases hm'
    exact hx msg rfl

theorem exists_ok {x : Outcome σ α} (h : NoError x) (h' : NoPanic x) : ∃ a, x = .ok a := by
  cases x with
  | ok a => exact ⟨a, rfl⟩
  | error f =>
    cases f with
    | err e => exact absurd rfl (h e)
    | panic msg => exact absurd rfl (h' msg)

theorem NoPanic.mapM {f : α → Outcome σ β} : ∀ {xs : List α}, (∀ x ∈ xs, NoPanic (f x)) → NoPanic (xs.mapM f)
  | [], _ => .of_ok rfl
  | x :: xs, h => by
    rw [List.mapM_cons]
    refine .bind (h x List.mem_cons_self) fun y _ => .bind ?_ fun ys _ => .of_ok rfl
    exact mapM fun x' hx => h x' (List.mem_cons_of_mem _ hx)

/-- A call that does not panic with this message. -/
def Avoids (msg : String) (x : Outcome σ α) : Prop := x ≠ .error (.panic msg)

theorem NoPanic.avoids {x : Outcome σ α} (h : NoPanic x) (msg : String) : Avoids msg x := h msg

theorem Avoids.of_ok {msg : String} {x : Outcome σ α} {a : α} (h : x = .ok a) : Avoids msg x :=
  (NoPanic.of_ok h).avoids msg

theorem Avoids.wrap {msg text : String} {x : Outcome σ α} (h : Avoids msg x) : Avoids msg (Go.wrap text x) := by
  cases x with
  | ok a => exact .of_ok rfl
  | error f =>
    cases f with
    | err e => exact (NoPanic.fail _).avoids msg
    | panic m => exact fun hm => h hm

theorem Avoids.bind {msg : String} {x : Outcome σ α} {f : α → Outcome σ β} (hx : Avoids msg x)
    (hf : ∀ a, x = .ok a → Avoids msg (f a)) : Avoids msg (x >>= f) := by
  cases x with
  | ok a => exact hf a rfl
  | error g =>
    intro hm
    have hm' : (.error g : Outcome σ β) = .error (.panic msg) := hm
    cases hm'
    exact hx rfl

theorem Avoids.mapM {msg : String} {f : α → Outcome σ β} : ∀ {xs : List α}, (∀ x ∈ xs, Avoids msg (f x)) →
    Avoids msg (xs.mapM f)
  | [], _ => .of_ok rfl
  | x :: xs, h => by
    rw [List.mapM_cons]
    refine .bind (h x List.mem_cons_self) fun y _ => .bind ?_ fun ys _ => .of_ok rfl
    exact mapM fun x' hx => h x' (List.mem_cons_of_mem _ hx)

theorem noPanic_bind_ok {x : Outcome σ α} {f : α → β} : NoPanic (x >>= fun a => .ok (f a)) ↔ NoPanic x := by
  cases x with
  | ok a => exact iff_of_true (.of_ok rfl) (.of_ok rfl)
  | error g => cases g <;> simp [NoPanic, bind, Except.bind]

/-- A bind panics as its first call does, where the continuation never panics. -/
theorem noPanic_bind_iff {x : Outcome σ α} {f : α → Outcome σ β} (hf : ∀ a, NoPanic (f a)) :
    NoPanic (x >>= f) ↔ NoPanic x := by
  refine ⟨fun h => ?_, fun h => h.bind fun a _ => hf a⟩
  cases x with
  | ok a => exact .of_ok rfl
  | error g => exact fun msg hm => h msg (congrArg (· >>= f) hm)

theorem index_eq_ok {xs : List α} {i : Nat} {x : α} : index (σ := σ) xs i = .ok x ↔ xs[i]? = some x := by
  unfold index
  cases xs[i]? <;> simp [panic]

theorem index_of_le (xs : List α) (i : Nat) (h : xs.length ≤ i) :
    index (σ := σ) xs i = panic "index out of range" := by
  unfold index
  rw [List.getElem?_eq_none h]

theorem makeslice_eq_ok {limit : Nat} {count : Int} {u : Unit} :
    makeslice (σ := σ) limit count = .ok u ↔ 0 ≤ count ∧ count ≤ limit := by
  unfold makeslice
  split
  · exact iff_of_false (fun h => by cases h) (by omega)
  · exact iff_of_true rfl (by omega)

/-- **A loop over a list returns exactly when every round does**, the results in order. -/
theorem mapM_eq_ok {f : α → Outcome σ β} : ∀ {xs : List α} {ys : List β},
    xs.mapM f = .ok ys ↔ List.Forall₂ (fun x y => f x = .ok y) xs ys
  | [], ys => by
    simp only [List.mapM_nil, List.forall₂_nil_left_iff]
    exact ⟨fun h => (Except.ok.inj h).symm, fun h => by rw [h]; rfl⟩
  | x :: xs, ys => by
    rw [List.mapM_cons]
    constructor
    · intro h
      obtain ⟨y, hy, h⟩ := bind_eq_ok.1 h
      obtain ⟨ys', hys, h⟩ := bind_eq_ok.1 h
      cases h
      exact .cons hy (mapM_eq_ok.1 hys)
    · rintro (_ | ⟨hy, hys⟩)
      exact bind_eq_ok.2 ⟨_, hy, bind_eq_ok.2 ⟨_, mapM_eq_ok.2 hys, rfl⟩⟩

theorem exists_mapM_of_forall {f : α → Outcome σ β} : ∀ {xs : List α}, (∀ x ∈ xs, ∃ y, f x = .ok y) →
    ∃ ys, xs.mapM f = .ok ys
  | [], _ => ⟨[], rfl⟩
  | x :: xs, h => by
    obtain ⟨y, hy⟩ := h x List.mem_cons_self
    obtain ⟨ys, hys⟩ := exists_mapM_of_forall (fun x' hx => h x' (List.mem_cons_of_mem _ hx))
    exact ⟨y :: ys, mapM_eq_ok.2 (.cons hy (mapM_eq_ok.1 hys))⟩

/-- A loop over encoded values. -/
theorem mapM_map_eq_ok {γ : Type} {f : α → Outcome σ β} {e : γ → α} {g : γ → β} {cs : List γ}
    (h : ∀ c ∈ cs, f (e c) = .ok (g c)) : (cs.map e).mapM f = .ok (cs.map g) := by
  rw [mapM_eq_ok, List.forall₂_map_left_iff, List.forall₂_map_right_iff, List.forall₂_same]
  exact h

theorem mem_of_mapM {f : α → Outcome σ β} {xs : List α} {ys : List β} (h : xs.mapM f = .ok ys) (y : β) :
    y ∈ ys ↔ ∃ x ∈ xs, f x = .ok y := by
  induction mapM_eq_ok.1 h with
  | nil => simp
  | cons hy _ ih =>
    rw [List.mem_cons, ih (mapM_eq_ok.2 ‹_›)]
    simp only [List.mem_cons, exists_eq_or_imp, hy, Except.ok.injEq, eq_comm (a := y)]

theorem exists_of_mapM {f : α → Outcome σ β} {xs : List α} {ys : List β} (h : xs.mapM f = .ok ys) {x : α}
    (hx : x ∈ xs) : ∃ y, f x = .ok y := by
  induction mapM_eq_ok.1 h with
  | nil => cases hx
  | cons hy _ ih =>
    rcases List.mem_cons.1 hx with rfl | hx
    · exact ⟨_, hy⟩
    · exact ih (mapM_eq_ok.2 ‹_›) hx

theorem mapM_congr {f g : α → Outcome σ β} : ∀ {xs : List α}, (∀ x ∈ xs, f x = g x) → xs.mapM f = xs.mapM g
  | [], _ => rfl
  | x :: xs, h => by
    rw [List.mapM_cons, List.mapM_cons, h x List.mem_cons_self,
      mapM_congr fun y hy => h y (List.mem_cons_of_mem _ hy)]

/-- A reading of the results that each round takes from its input. -/
theorem map_of_mapM {γ : Type} {f : α → Outcome σ β} {g : β → γ} {g' : α → γ} {xs : List α} {ys : List β}
    (h : xs.mapM f = .ok ys) (hg : ∀ x y, f x = .ok y → g y = g' x) : ys.map g = xs.map g' := by
  induction mapM_eq_ok.1 h with
  | nil => rfl
  | cons hy _ ih => rw [List.map_cons, List.map_cons, hg _ _ hy, ih (mapM_eq_ok.2 ‹_›)]

/-- A loop that reads each element in a state of its own. -/
def readEach {S : Type} (f : S → α → Outcome σ β) : (Nat → S) → List α → Outcome σ (List β)
  | _, [] => .ok []
  | states, x :: xs => do
    let y ← f (states 0) x
    let ys ← readEach f (fun i => states (i + 1)) xs
    .ok (y :: ys)

/-- Where all states read the elements alike, the loop reads them in any one of them. -/
theorem readEach_eq_mapM {S : Type} {f : S → α → Outcome σ β} {g : α → Outcome σ β} :
    ∀ {xs : List α} {states : Nat → S},
    (∀ i, ∀ x ∈ xs, f (states i) x = g x) → readEach f states xs = xs.mapM g
  | [], _, _ => rfl
  | x :: xs, states, h => by
    have hrest : readEach f (fun i => states (i + 1)) xs = xs.mapM g :=
      readEach_eq_mapM fun i y hy => h (i + 1) y (List.mem_cons_of_mem _ hy)
    rw [readEach, h 0 x List.mem_cons_self, hrest, List.mapM_cons]
    rfl

theorem exists_foldlM_of_forall {f : β → α → Outcome σ β} : ∀ {xs : List α} (b : β),
    (∀ x ∈ xs, ∀ b, ∃ b', f b x = .ok b') → ∃ b', xs.foldlM f b = .ok b'
  | [], b, _ => ⟨b, rfl⟩
  | x :: xs, b, h => by
    obtain ⟨b1, h1⟩ := h x List.mem_cons_self b
    obtain ⟨b2, h2⟩ := exists_foldlM_of_forall b1 fun x' hx => h x' (List.mem_cons_of_mem _ hx)
    exact ⟨b2, by rw [List.foldlM_cons]; exact bind_eq_ok.2 ⟨b1, h1, h2⟩⟩

theorem exists_of_foldlM {f : β → α → Outcome σ β} : ∀ {xs : List α} {b c : β}, xs.foldlM f b = .ok c →
    ∀ x ∈ xs, ∃ a a', f a x = .ok a'
  | [], _, _, _, x, hx => absurd hx List.not_mem_nil
  | y :: xs, b, c, h, x, hx => by
    rw [List.foldlM_cons] at h
    obtain ⟨b1, h1, h⟩ := bind_eq_ok.1 h
    rcases List.mem_cons.1 hx with rfl | hx
    · exact ⟨b, b1, h1⟩
    · exact exists_of_foldlM h x hx

end

/-! ## Maps and sorting -/

section
variable {κ ν : Type} [Ord κ] [Std.TransOrd κ] [Std.LawfulEqOrd κ] [DecidableEq κ]

theorem getElem?_insert_eq (m : Std.ExtTreeMap κ ν) (k k' : κ) (v : ν) :
    (m.insert k v)[k']? = if k' = k then some v else m[k']? := by
  rw [Std.ExtTreeMap.getElem?_insert]
  by_cases h : k' = k
  · subst h; simp
  · rw [if_neg (fun e => h (Std.LawfulEqOrd.compare_eq_iff_eq.1 e).symm), if_neg h]

theorem getD_insert_eq (m : Std.ExtTreeMap κ ν) (k k' : κ) (v d : ν) :
    (m.insert k v).getD k' d = if k' = k then v else m.getD k' d := by
  rw [Std.ExtTreeMap.getD_eq_getD_getElem?, getElem?_insert_eq, Std.ExtTreeMap.getD_eq_getD_getElem?]
  split <;> rfl

theorem getElem?_erase_eq (m : Std.ExtTreeMap κ ν) (k k' : κ) :
    (m.erase k)[k']? = if k' = k then none else m[k']? := by
  rw [Std.ExtTreeMap.getElem?_erase]
  by_cases h : k' = k
  · subst h; simp
  · rw [if_neg (fun e => h (Std.LawfulEqOrd.compare_eq_iff_eq.1 e).symm), if_neg h]

end

/-- One order in which a map may be ranged over: any permutation of its entries. -/
structure MapRange (κ ν : Type) where
  entries : List (κ × ν) → List (κ × ν)
  perm : ∀ l, (entries l).Perm l

/-- One behaviour of `sort.Sort` on a comparator: some ordered permutation, equal elements in any order. -/
structure UnstableSort (α : Type) (less : α → α → Bool) where
  sort : List α → List α
  perm : ∀ l, (sort l).Perm l
  sorted : ∀ l, (sort l).Pairwise (fun a b => less b a = false)

/-- Ranging over some entries before the others. -/
def MapRange.first {κ ν : Type} (p : κ × ν → Bool) : MapRange κ ν :=
  ⟨fun l => l.filter p ++ l.filter (fun e => !p e), fun l => List.filter_append_perm p l⟩

def MapRange.listed (κ ν : Type) : MapRange κ ν := ⟨id, fun l => List.Perm.refl l⟩

end Go
