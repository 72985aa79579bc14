import ForkDetector.Peers.States
/-!
# Hostile — whether a hostile peer stays hostile

Nothing but `RegisterPeer` takes an address out of the hostile state.  It does so whenever the new connection passes the
checks, which do not read the stored state.
-/
namespace ForkDetector
namespace Peers

open Proto (Version Handshake Conn)
open Run (Path Link Forever)

def Registry.IsHostile (r : Registry) (a : Addr) : Prop := r.storage.stateOf a = some .hostile

/-- `RegisterPeer` does not add a hostile address to the connections. -/
def NotAdded (r : Registry) (op : Op) (r' : Registry) : Prop :=
  ∀ now a np hs, op = .registerPeer now a np hs → a.is4 = true → r.IsHostile a → r.connections[a]? = none →
    r'.connections[a]? = none

/-- A registration that passes the checks on an address stored as hostile, with a name that can be stored or on an
address without a connection. -/
def Escapes (cmpMinor : Version → Version → Int) (r : Registry) : Op → Prop
  | .registerPeer _ addr np hs => r.IsHostile addr ∧ (∃ p port, r.Passes cmpMinor addr np hs p port) ∧
      (validString hs.nodeName = true ∨ r.connections[addr]? = none)
  | _ => False

/-- **The operations that keep every hostile address out**, one by one. -/
theorem step_keeps_hostile_iff {cmpMinor : Version → Version → Int} {r r' : Registry} {op : Op}
    (h : Step cmpMinor r op r') :
    (∀ a, a.is4 = true → r.IsHostile a → r'.IsHostile a) ∧ NotAdded r op r' ↔ ¬ Escapes cmpMinor r op := by
  have hkept : StatesKept r.storage r'.storage → (∀ now a np hs, op ≠ .registerPeer now a np hs) →
      (∀ a, a.is4 = true → r.IsHostile a → r'.IsHostile a) ∧ NotAdded r op r' := fun hk hop =>
    ⟨fun a h4 ha => hk.state a _ h4 ha, fun now a np hs he => absurd he (hop now a np hs)⟩
  cases step_effect h with
  | quiet _ _ hreg _ _ hk =>
    refine iff_of_true (hkept hk hreg) fun he => ?_
    cases op with
    | registerPeer now addr np hs => exact hreg _ _ _ _ rfl
    | _ => exact he
  | unregistered now addr _ hk => exact iff_of_true (hkept hk (by simp)) id
  | marked addr _ hk =>
    refine iff_of_true ⟨fun b h4 hb => ?_, fun now b np hs he => by cases he⟩ id
    rcases hk.state b _ h4 hb with h | h <;> exact h
  | registered now addr np hs a ha he =>
    cases he
    cases ha with
    | accepted p port hp hst _ =>
      obtain ⟨hconn, hstored⟩ := Registry.store_accepted hp.is4 hst
      constructor
      · rintro ⟨hhost, hadd⟩ ⟨hh, -, hv⟩
        rcases hstored with ⟨-, -, -, hstate⟩ | ⟨hn, -, -⟩
        · have := hhost addr hp.is4 hh
          unfold Registry.IsHostile at this
          rw [hstate addr hp.is4, if_pos rfl] at this
          cases this
        · rcases hv with hv | hv
          · rw [hn] at hv; cases hv
          · have := hadd now addr np hs rfl hp.is4 hh hv
            rw [hconn, Go.getElem?_insert_eq, if_pos rfl] at this
            cases this
      · intro hno
        have hno' : r.IsHostile addr → validString hs.nodeName = false ∧ r.connections[addr]? ≠ none := fun hh => by
          constructor
          · cases hn : validString hs.nodeName with
            | false => rfl
            | true => exact absurd ⟨hh, ⟨p, port, hp⟩, .inl hn⟩ hno
          · exact fun hc => hno ⟨hh, ⟨p, port, hp⟩, .inr hc⟩
        refine ⟨fun b h4 hb => ?_, fun now' b np' hs' he h4 hb hc => ?_⟩
        · unfold Registry.IsHostile at hb ⊢
          rcases hstored with ⟨hn, -, -, hstate⟩ | ⟨-, -, hsame⟩
          · rw [hstate b h4]
            split
            · rename_i hba
              rw [hba] at hb
              rw [(hno' hb).1] at hn
              cases hn
            · exact hb
          · rw [hsame]; exact hb
        · cases he
          exact absurd hc (hno' hb).2
    | judged p hj hst hclosed =>
      obtain ⟨hconn, hstored⟩ := Registry.store_judged hst
      refine iff_of_true ⟨fun b h4 hb => ?_, fun now' b np' hs' _ _ _ hc => by rw [hconn]; exact hc⟩ ?_
      · unfold Registry.IsHostile at hb ⊢
        rcases hstored with ⟨-, -, hstate⟩ | ⟨-, hsame⟩
        · rw [hstate b h4]
          split
          · rfl
          · exact hb
        · rw [hsame]; exact hb
      · rintro ⟨-, ⟨q, port, hq⟩, -⟩
        exact hq.not_judged hj
    | refused e hno hnoj hreg =>
      rw [hreg]
      exact iff_of_true ⟨fun b _ hb => hb, fun now' b np' hs' _ _ _ hc => hc⟩
        fun ⟨_, ⟨p, port, hp⟩, _⟩ => hno p port hp

/-- **When hostile peers stay hostile and out of the connections**, for a whole run of operations. -/
theorem hostile_forever_iff {cmpMinor : Version → Version → Int} {r r' : Registry} {tr : List (Link Registry Op)}
    (h : Path (Step cmpMinor) r tr r') :
    (∀ a, a.is4 = true → Forever (fun r => r.IsHostile a) tr) ∧ (∀ x ∈ tr, NotAdded x.pre x.input x.post) ↔
      ∀ x ∈ tr, ¬ Escapes cmpMinor x.pre x.input := by
  constructor
  · rintro ⟨hforever, hadd⟩ x hx
    exact (step_keeps_hostile_iff (h.step_of_mem hx)).1 ⟨fun a h4 => (hforever a h4).step x hx, hadd x hx⟩
  · intro hno
    have hstep := fun x hx => (step_keeps_hostile_iff (h.step_of_mem hx)).2 (hno x hx)
    exact ⟨fun a h4 => h.forever_of_step fun x hx => (hstep x hx).1 a h4, fun x hx => (hstep x hx).2⟩

/-! ## Two connections from one address -/

namespace Sample

def cmpMinor (v w : Version) : Int := if v.major = w.major ∧ v.minor = w.minor then 0 else 2

def addr : Addr := .from4 10 0 0 1
def registry : Registry := ⟨87, newVersions [⟨1, 5, 3⟩], .zero, newStorage, ∅, ∅⟩

theorem registry_new : newRegistry 87 ⟨true, none⟩ [⟨1, 5, 3⟩] newStorage = .ok registry := rfl

def handshake (appName nodeName : Bytes) : Handshake := ⟨appName, ⟨1, 5, 0⟩, nodeName, 7, ⟨true, none⟩⟩

/-- A handshake of the network of the registry. -/
def waves : Handshake := handshake [119, 87] [110]

/-- A handshake of another network. -/
def other : Handshake := handshake [119, 84] [110]

def conn (id : Nat) (hs : Handshake) : Conn := ⟨id, hs, some ⟨addr, 6868⟩⟩

def register (id : Nat) (hs : Handshake) : Op := .registerPeer 0 addr (conn id hs) hs

def run (ops : List Op) : Res Registry := ops.foldlM (Registry.apply cmpMinor) registry

theorem run_reads {α : Type} {ops : List Op} {r : Registry} {v : α} (f : Registry → α) (h : run ops = .ok r)
    (hv : (run ops).map f = .ok v) : f r = v := by
  rw [h] at hv
  exact Except.ok.inj hv

theorem run_path {ops : List Op} {r : Registry} (h : run ops = .ok r) :
    ∃ tr, Path (Step cmpMinor) registry tr r := (Path.of_foldlM h).imp fun _ htr => htr.1

theorem run_step {ops : List Op} {op : Op} {r r' : Registry} (h : run ops = .ok r) (h' : run (ops ++ [op]) = .ok r') :
    Step cmpMinor r op r' := Path.step_of_foldlM h h'

end Sample

/-- A hostile peer that connects again from the other network. -/
theorem hostile_forever_iff_sample : ∃ r0 r r' tr, Path (Step Sample.cmpMinor) r0 tr r' ∧ r0.IsHostile Sample.addr ∧
    tr = [⟨r0, .suggestVersion 0 Sample.addr, r⟩, ⟨r, Sample.register 1 Sample.other, r'⟩] ∧
    (∀ a, a.is4 = true → Forever (fun r => r.IsHostile a) tr) ∧ ∀ x ∈ tr, NotAdded x.pre x.input x.post := by
  let ops : List Op := [.suggestVersion 0 Sample.addr, Sample.register 0 Sample.other]
  obtain ⟨r0, h0⟩ := Go.exists_of_isOk (x := Sample.run ops) (by decide +kernel)
  obtain ⟨r, h1⟩ := Go.exists_of_isOk (x := Sample.run (ops ++ [.suggestVersion 0 Sample.addr])) (by decide +kernel)
  obtain ⟨r', h2⟩ := Go.exists_of_isOk
    (x := Sample.run (ops ++ [.suggestVersion 0 Sample.addr] ++ [Sample.register 1 Sample.other])) (by decide +kernel)
  have hhost : r0.storage.stateOf Sample.addr = some .hostile :=
    Sample.run_reads (fun r => r.storage.stateOf Sample.addr) h0 (by decide +kernel)
  have hscheme : r.scheme = 87 := Sample.run_reads Registry.scheme h1 (by decide +kernel)
  have hpath := Path.cons (Sample.run_step h0 h1) (.cons (Sample.run_step h1 h2) (.nil r'))
  refine ⟨r0, r, r', _, hpath, hhost, rfl, (hostile_forever_iff hpath).2 fun x hx => ?_⟩
  simp only [List.mem_cons, List.not_mem_nil, or_false] at hx
  rcases hx with rfl | rfl
  · exact id
  · rintro ⟨-, ⟨p, port, hp⟩, -⟩
    have := hp.app
    rw [hscheme] at this
    exact absurd this (by decide)

/-- A peer judged hostile, and a second one from its address that had been given a version before. -/
theorem hostile_lost : ¬ ∀ tr r', Path (Step Sample.cmpMinor) Sample.registry tr r' →
    (∀ a, a.is4 = true → Forever (fun r => r.IsHostile a) tr) ∧ (∀ x ∈ tr, NotAdded x.pre x.input x.post) := by
  intro hall
  let ops : List Op := [.suggestVersion 0 Sample.addr, .suggestVersion 0 Sample.addr, Sample.register 0 Sample.other]
  obtain ⟨r, hr⟩ := Go.exists_of_isOk (x := Sample.run ops) (by decide +kernel)
  obtain ⟨r', hr'⟩ := Go.exists_of_isOk (x := Sample.run (ops ++ [Sample.register 1 Sample.waves])) (by decide +kernel)
  obtain ⟨tr, htr⟩ := Sample.run_path hr
  have hlast := Sample.run_step hr hr'
  have hhost : r.storage.stateOf Sample.addr = some .hostile :=
    Sample.run_reads (fun r => r.storage.stateOf Sample.addr) hr (by decide +kernel)
  have hconn : r'.storage.stateOf Sample.addr = some .connected :=
    Sample.run_reads (fun r => r.storage.stateOf Sample.addr) hr' (by decide +kernel)
  have hstep := ((hall _ _ (htr.append (.cons hlast (.nil _)))).1 Sample.addr rfl).step
    ⟨r, Sample.register 1 Sample.waves, r'⟩ (by simp) hhost
  exact absurd (hconn.symm.trans hstep) (by simp)

end Peers
end ForkDetector
