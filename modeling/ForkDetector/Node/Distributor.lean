import Mathlib.Logic.Function.Basic
import ForkDetector.Peers.Hostile
/-!
# Distributor — connections that come and go

`distributor.go`, `respawn.go` and `connection_manager.go`, as far as they reach the registry.  The notifications of
the connections to one address arrive in any order, and the registry knows a connection by its address only.
-/
namespace ForkDetector
namespace Node

open Proto (Version Conn)
open Peers (Registry Answer validString)
open Run (Path Link)

/-! ## Handlers -/

/-- `handleConnected`; the flag says whether the peer was accepted: registered without an error, and left open. -/
def handleConnected (cmpMinor : Version → Version → Int) (now : Int) (r : Registry) (np : Conn) :
    Res (Registry × Bool) :=
  match np.remote with
  | none => .ok (r, false)
  | some ap => do
    let (closed, a) ← r.registerPeer cmpMinor now ap.addr np np.handshake
    .ok (a.registry, !closed && a.result.isOk)

def handleInternalError (now : Int) (r : Registry) (np : Conn) : Res Registry :=
  match np.remote with
  | none => .ok r
  | some ap => do
    let a ← r.unregisterPeer now ap.addr
    .ok a.registry

def handleScoreMessage (r : Registry) (np : Conn) (score : Nat) : Res Registry :=
  match np.remote with
  | none => .ok r
  | some ap => do
    let a ← r.updatePeerScore ap.addr score
    .ok a.registry

/-- The arguments are what the texts of the addresses parse to. -/
def handlePeersMessage (r : Registry) (addresses : List (Option AddrPort)) : Res Registry := do
  let a ← r.appendAddresses 0 addresses
  .ok a.registry

/-! ## The system -/

/-- The registry, the outgoing dials under way, and whether the respawn timer runs; then, for the proofs only, the
connection last accepted for each address and the connections that have failed. -/
structure Net where
  registry : Registry
  dials : List AddrPort
  armed : Bool
  accepted : Addr → Option Conn
  failed : List Conn

inductive Event where
  | connected (now : Int) (np : Conn)
  | internalErr (now : Int) (np : Conn)
  | scoreMessage (np : Conn) (score : Nat)
  | peersMessage (addresses : List (Option AddrPort))
  /-- The start of a handshake, with either side. -/
  | suggestVersion (now : Int) (addr : Addr)
  | respawn (now : Int)
  | dialEnded (ap : AddrPort)
  /-- A dial ends in an error, after the connection that it had established, if any. -/
  | dialFailed (now : Int) (ap : AddrPort) (own : Option Conn)

namespace Net

def start (r : Registry) : Net := ⟨r, [], true, fun _ => none, []⟩

def accept (s : Net) (np : Conn) : Net :=
  match np.remote with
  | none => s
  | some ap => { s with accepted := Function.update s.accepted ap.addr (some np) }

def apply (cmpMinor : Version → Version → Int) (s : Net) : Event → Res Net
  | .connected now np => do
    let (r, accepted) ← handleConnected cmpMinor now s.registry np
    .ok (if accepted then accept { s with registry := r } np else { s with registry := r })
  | .internalErr now np => do
    let r ← handleInternalError now s.registry np
    .ok { s with registry := r, failed := np :: s.failed }
  | .scoreMessage np score => do
    let r ← handleScoreMessage s.registry np score
    .ok { s with registry := r }
  | .peersMessage addresses => do
    let r ← handlePeersMessage s.registry addresses
    .ok { s with registry := r }
  | .suggestVersion now addr => do
    let a ← s.registry.suggestVersion now addr
    .ok { s with registry := a.registry }
  | .respawn now => do
    let a ← s.registry.takeAvailableAddresses now
    match a.result with
    -- the timer is not reset
    | .error _ => .ok { s with registry := a.registry, armed := false }
    | .ok addresses => .ok { s with registry := a.registry, dials := s.dials ++ addresses }
  | .dialEnded ap => .ok { s with dials := s.dials.erase ap }
  | .dialFailed now ap own => do
    let a ← s.registry.unregisterPeer now ap.addr
    .ok { s with registry := a.registry, dials := s.dials.erase ap, failed := own.toList ++ s.failed }

def Enabled (s : Net) : Event → Prop
  | .respawn _ => s.armed = true
  | .dialEnded ap => ap ∈ s.dials
  | .dialFailed _ ap _ => ap ∈ s.dials
  | _ => True

/-- The connection last accepted for the address, while it has not failed. -/
def Live (s : Net) (a : Addr) (np : Conn) : Prop := s.accepted a = some np ∧ np ∉ s.failed

def Registers (s : Net) : Prop := ∀ (a : Addr) (np : Conn), s.Live a np → s.registry.connections[a]? = some np

def Readable (s : Net) : Prop :=
  ∀ (a : Addr) (np : Conn), s.accepted a = some np → a.is4 = true ∧ ∃ p, s.registry.storage.peer a = .ok p

/-- Another connection, or a dial, fails at an address with a live connection, or a connection is put in the place of a
live one with a name that cannot be stored. -/
def Cuts (cmpMinor : Version → Version → Int) (s : Net) : Event → Prop
  | .connected _ np => ∃ ap, np.remote = some ap ∧ validString np.handshake.nodeName = false ∧
      (∃ p port, s.registry.Passes cmpMinor ap.addr np np.handshake p port) ∧ ∃ old, s.Live ap.addr old ∧ old ≠ np
  | .internalErr _ np => ∃ ap, np.remote = some ap ∧ ∃ old, s.Live ap.addr old ∧ old ≠ np
  | .dialFailed _ ap own => ∃ old, s.Live ap.addr old ∧ own ≠ some old
  | _ => False

end Net

def Step (cmpMinor : Version → Version → Int) (s : Net) (e : Event) (s' : Net) : Prop :=
  s.Enabled e ∧ s.apply cmpMinor e = .ok s'

namespace Net
variable {cmpMinor : Version → Version → Int} {now : Int} {s s' : Net}

/-! ## One event -/

theorem connected_cases {np : Conn} (h : s.apply cmpMinor (.connected now np) = .ok s') :
    (np.remote = none ∧ s' = s) ∨ ∃ ap a, np.remote = some ap ∧
      s.registry.Registered cmpMinor now ap.addr np np.handshake a ∧
      s' = if !a.1 && a.2.result.isOk then
          { s with registry := a.2.registry, accepted := Function.update s.accepted ap.addr (some np) }
        else { s with registry := a.2.registry } := by
  obtain ⟨⟨r, accepted⟩, hc, he⟩ := Go.bind_eq_ok.1 h
  unfold handleConnected at hc
  split at hc
  · rename_i hnone
    cases hc; cases he
    exact .inl ⟨hnone, rfl⟩
  · rename_i ap hap
    obtain ⟨a, ha, hc⟩ := Go.bind_eq_ok.1 hc
    cases hc; cases he
    refine .inr ⟨ap, a, hap, Registry.registerPeer_registered ha, ?_⟩
    unfold accept
    rw [hap]

theorem unregister_registers_iff {addr : Addr} {a : Answer Unit} {f : List Conn} {d : List AddrPort}
    (h : s.registry.unregisterPeer now addr = .ok a) (hf : ∀ np ∈ s.failed, np ∈ f) (hr : s.Readable)
    (hg : s.Registers) :
    Registers { s with registry := a.registry, dials := d, failed := f } ↔
      ¬ ∃ old, s.accepted addr = some old ∧ old ∉ f := by
  obtain ⟨hconn, -⟩ := Registry.unregisterPeer_kept h
  have hlive : ∀ b np, s.accepted b = some np ∧ np ∉ f → s.Live b np := fun b np hl =>
    ⟨hl.1, fun hm => hl.2 (hf np hm)⟩
  constructor
  · rintro hg' ⟨old, hacc, hnf⟩
    have hold : a.registry.connections[addr]? = some old := hg' addr old ⟨hacc, hnf⟩
    rcases hconn with ⟨-, hc⟩ | ⟨hno, -⟩
    · rw [hc, Go.getElem?_erase_eq, if_pos rfl] at hold
      cases hold
    · obtain ⟨p, hp⟩ := (hr addr old hacc).2
      exact hno p hp
  · intro hno b np hl
    have hb : b ≠ addr := by
      rintro rfl
      exact hno ⟨np, hl⟩
    show a.registry.connections[b]? = some np
    rcases hconn with ⟨-, hc⟩ | ⟨-, hc⟩
    · rw [hc, Go.getElem?_erase_eq, if_neg hb]
      exact hg b np (hlive b np hl)
    · rw [hc]
      exact hg b np (hlive b np hl)

theorem connected_registers_iff {np : Conn} (h : s.apply cmpMinor (.connected now np) = .ok s') (hg : s.Registers) :
    s'.Registers ↔ ¬ s.Cuts cmpMinor (.connected now np) := by
  unfold Cuts
  rcases connected_cases h with ⟨hnone, rfl⟩ | ⟨ap, a, hap, ha, rfl⟩
  · refine iff_of_true hg ?_
    rintro ⟨ap, hap, -⟩
    rw [hnone] at hap
    cases hap
  · cases ha with
    | accepted p port hp hst hopen =>
      obtain ⟨hconn, hstored⟩ := Registry.store_accepted hp.is4 hst
      rcases hstored with ⟨hn, hok, -⟩ | ⟨hn, ⟨e, he⟩, -⟩
      · rw [hopen, hok]
        refine iff_of_true (fun b old hl => ?_) ?_
        · show a.2.registry.connections[b]? = some old
          rw [hconn, Go.getElem?_insert_eq]
          have hacc : Function.update s.accepted ap.addr (some np) b = some old := hl.1
          by_cases hb : b = ap.addr
          · rw [hb, Function.update_self] at hacc
            rw [if_pos hb, hacc]
          · rw [Function.update_of_ne hb] at hacc
            rw [if_neg hb]
            exact hg b old ⟨hacc, hl.2⟩
        · rintro ⟨ap', -, hn', -⟩
          rw [hn] at hn'
          cases hn'
      · rw [hopen, he]
        constructor
        · rintro hg' ⟨ap', hap', -, -, old, hold, hne⟩
          obtain rfl : ap = ap' := Option.some.inj (hap.symm.trans hap')
          have hc : a.2.registry.connections[ap.addr]? = some old := hg' ap.addr old hold
          rw [hconn, Go.getElem?_insert_eq, if_pos rfl] at hc
          exact hne (Option.some.inj hc).symm
        · intro hno b old hl
          have hl' : s.Live b old := hl
          show a.2.registry.connections[b]? = some old
          rw [hconn, Go.getElem?_insert_eq]
          by_cases hb : b = ap.addr
          · subst hb
            rw [if_pos rfl]
            by_contra hne
            exact hno ⟨ap, hap, hn, ⟨p, port, hp⟩, old, hl', fun he => hne (by rw [he])⟩
          · rw [if_neg hb]
            exact hg b old hl'
    | judged p hj hst hclosed =>
      rw [hclosed]
      refine iff_of_true (fun b old hl => ?_) ?_
      · have hc : a.2.registry.connections = s.registry.connections := (Registry.store_judged hst).1
        show a.2.registry.connections[b]? = some old
        rw [hc]
        exact hg b old hl
      · rintro ⟨ap', hap', -, ⟨q, port, hq⟩, -⟩
        obtain rfl : ap = ap' := Option.some.inj (hap.symm.trans hap')
        exact hq.not_judged hj
    | refused e hno hnoj hreg =>
      rw [hreg]
      simp only [Except.isOk, Except.toBool, Bool.and_false, Bool.false_eq_true, if_false]
      refine iff_of_true (fun b old hl => hg b old hl) ?_
      rintro ⟨ap', hap', -, ⟨q, port, hq⟩, -⟩
      obtain rfl : ap = ap' := Option.some.inj (hap.symm.trans hap')
      exact hno q port hq

theorem connected_readable {np : Conn} (h : s.apply cmpMinor (.connected now np) = .ok s') (hr : s.Readable) :
    s'.Readable := by
  rcases connected_cases h with ⟨-, rfl⟩ | ⟨ap, a, hap, ha, rfl⟩
  · exact hr
  · have hkeep : (∀ b : Addr, b.is4 = true → (∃ p, s.registry.storage.peer b = .ok p) →
        ∃ p, a.2.registry.storage.peer b = .ok p) → ∀ b old, s.accepted b = some old →
        b.is4 = true ∧ ∃ p, a.2.registry.storage.peer b = .ok p := fun hk b old hb =>
      ⟨(hr b old hb).1, hk b (hr b old hb).1 (hr b old hb).2⟩
    cases ha with
    | accepted p port hp hst hopen =>
      have hothers := hkeep fun b hb hrb => Registry.store_readable hst hb hrb
      obtain ⟨-, ⟨-, -, hself, -⟩ | ⟨-, ⟨e, he⟩, -⟩⟩ := Registry.store_accepted hp.is4 hst
      · split
        · intro b old hb
          by_cases hba : b = ap.addr
          · subst hba
            exact ⟨hp.is4, hself⟩
          · exact hothers b old ((Function.update_of_ne hba _ _).symm.trans hb)
        · exact hothers
      · rw [he]
        simp only [Except.isOk, Except.toBool, Bool.and_false, Bool.false_eq_true, if_false]
        exact hothers
    | judged p hj hst hclosed =>
      rw [hclosed]
      exact hkeep fun b hb hrb => Registry.store_readable hst hb hrb
    | refused e hno hnoj hreg =>
      rw [hreg]
      simp only [Except.isOk, Except.toBool, Bool.and_false, Bool.false_eq_true, if_false]
      exact hr

theorem Readable.kept (hr : s.Readable) (hacc : s'.accepted = s.accepted)
    (hk : Peers.StatesKept s.registry.storage s'.registry.storage) : s'.Readable := by
  intro a np ha
  rw [hacc] at ha
  exact ⟨(hr a np ha).1, hk.readable a (hr a np ha).1 (hr a np ha).2⟩

theorem Registers.kept (hg : s.Registers) (hacc : s'.accepted = s.accepted) (hf : s'.failed = s.failed)
    (hc : s'.registry.connections = s.registry.connections) : s'.Registers := by
  intro a np hl
  unfold Live at hl
  rw [hacc, hf] at hl
  rw [hc]
  exact hg a np hl

/-- **The events that keep live connections registered**, one by one; and accepted connections stay readable. -/
theorem step_registers_iff {e : Event} (h : Step cmpMinor s e s') (hr : s.Readable) (hg : s.Registers) :
    s'.Readable ∧ (s'.Registers ↔ ¬ s.Cuts cmpMinor e) := by
  obtain ⟨-, h⟩ := h
  cases e with
  | connected now np => exact ⟨connected_readable h hr, connected_registers_iff h hg⟩
  | internalErr now np =>
    obtain ⟨r, hi, he⟩ := Go.bind_eq_ok.1 h
    cases he
    unfold handleInternalError at hi
    split at hi
    · rename_i hnone
      cases hi
      refine ⟨hr, iff_of_true (fun a old hl => hg a old ⟨hl.1, fun hm => hl.2 (List.mem_cons_of_mem _ hm)⟩) ?_⟩
      rintro ⟨ap, hap, -⟩
      rw [hnone] at hap
      cases hap
    · rename_i ap hap
      obtain ⟨a, ha, he⟩ := Go.bind_eq_ok.1 hi
      cases he
      refine ⟨hr.kept rfl (Registry.unregisterPeer_kept ha).2, ?_⟩
      rw [unregister_registers_iff ha (fun np hm => List.mem_cons_of_mem _ hm) hr hg, not_iff_not]
      simp only [Cuts, Live, hap, Option.some.injEq, List.mem_cons, not_or, exists_eq_left']
      exact exists_congr fun old => by rw [and_assoc, and_comm (a := old ≠ np)]
  | scoreMessage np score =>
    obtain ⟨r, hi, he⟩ := Go.bind_eq_ok.1 h
    cases he
    unfold handleScoreMessage at hi
    split at hi
    · cases hi
      exact ⟨hr, iff_of_true hg id⟩
    · obtain ⟨a, ha, he⟩ := Go.bind_eq_ok.1 hi
      cases he
      obtain ⟨hc, hk⟩ := Registry.updatePeerScore_kept ha
      exact ⟨hr.kept rfl hk, iff_of_true (hg.kept rfl rfl hc.connections) id⟩
  | peersMessage addresses =>
    obtain ⟨r, hi, he⟩ := Go.bind_eq_ok.1 h
    cases he
    obtain ⟨a, ha, he⟩ := Go.bind_eq_ok.1 hi
    cases he
    obtain ⟨hc, hk⟩ := Registry.appendAddresses_kept ha
    exact ⟨hr.kept rfl hk, iff_of_true (hg.kept rfl rfl hc.connections) id⟩
  | suggestVersion now addr =>
    obtain ⟨a, ha, he⟩ := Go.bind_eq_ok.1 h
    cases he
    obtain ⟨hc, hk⟩ := Registry.suggestVersion_kept ha
    exact ⟨hr.kept rfl hk, iff_of_true (hg.kept rfl rfl hc.connections) id⟩
  | respawn now =>
    obtain ⟨a, ha, he⟩ := Go.bind_eq_ok.1 h
    obtain ⟨hc, hk⟩ := Registry.takeAvailableAddresses_kept ha
    split at he <;> cases he <;> exact ⟨hr.kept rfl hk, iff_of_true (hg.kept rfl rfl hc) id⟩
  | dialEnded ap =>
    cases h
    exact ⟨hr, iff_of_true hg id⟩
  | dialFailed now ap own =>
    obtain ⟨a, ha, he⟩ := Go.bind_eq_ok.1 h
    cases he
    refine ⟨hr.kept rfl (Registry.unregisterPeer_kept ha).2, ?_⟩
    rw [unregister_registers_iff ha (fun np hm => List.mem_append_right _ hm) hr hg, not_iff_not]
    simp only [Cuts, Live, List.mem_append, Option.mem_toList, not_or]
    exact exists_congr fun old => by rw [and_assoc, and_comm (a := own ≠ some old)]

end Net

/-! ## A whole run -/

/-- **When live connections stay registered**, for every order of events. -/
theorem live_registered_iff {cmpMinor : Version → Version → Int} {r : Registry} {s' : Net} {tr : List (Link Net Event)}
    (h : Path (Step cmpMinor) (Net.start r) tr s') :
    (∀ x ∈ tr, x.post.Registers) ↔ ∀ x ∈ tr, ¬ x.pre.Cuts cmpMinor x.input := by
  have hno : ∀ a np, (Net.start r).accepted a ≠ some np := fun a np he => by cases he
  have hr : (Net.start r).Readable := fun a np he => absurd he (hno a np)
  have hg : (Net.start r).Registers := fun a np hl => absurd hl.1 (hno a np)
  exact Path.good_iff (fun (s : Net) e s' (hr : s.Readable) (hg : s.Registers) hs => Net.step_registers_iff hs hr hg)
    hr hg h

namespace Sample
open Peers.Sample (addr waves conn registry cmpMinor)

def run (es : List Event) : Res Net := es.foldlM (Net.apply cmpMinor) (.start registry)

theorem run_reads {α : Type} {es : List Event} {s : Net} {v : α} (f : Net → α) (h : run es = .ok s)
    (hv : (run es).map f = .ok v) : f s = v := by
  rw [h] at hv
  exact Except.ok.inj hv

def suggest : Event := .suggestVersion 0 addr
def connect (id : Nat) : Event := .connected 0 (conn id waves)
def lose (id : Nat) : Event := .internalErr 0 (conn id waves)

end Sample

/-- Two connections from one address: the one accepted last fails, and then the other. -/
theorem live_registered_iff_sample : ∃ s1 s2 s3 s4 s5 tr,
    Path (Step Peers.Sample.cmpMinor) (Net.start Peers.Sample.registry) tr s5 ∧
    tr = [⟨Net.start Peers.Sample.registry, Sample.suggest, s1⟩, ⟨s1, Sample.connect 0, s2⟩,
      ⟨s2, Sample.connect 1, s3⟩, ⟨s3, Sample.lose 1, s4⟩, ⟨s4, Sample.lose 0, s5⟩] ∧
    s3.Live Peers.Sample.addr (Peers.Sample.conn 1 Peers.Sample.waves) ∧ ∀ x ∈ tr, x.post.Registers := by
  let es : List Event := [Sample.suggest]
  let two : List Event := es ++ [Sample.connect 0] ++ [Sample.connect 1]
  obtain ⟨s1, h1⟩ := Go.exists_of_isOk (x := Sample.run es) (by decide +kernel)
  obtain ⟨s2, h2⟩ := Go.exists_of_isOk (x := Sample.run (es ++ [Sample.connect 0])) (by decide +kernel)
  obtain ⟨s3, h3⟩ := Go.exists_of_isOk (x := Sample.run two) (by decide +kernel)
  obtain ⟨s4, h4⟩ := Go.exists_of_isOk (x := Sample.run (two ++ [Sample.lose 1])) (by decide +kernel)
  obtain ⟨s5, h5⟩ := Go.exists_of_isOk (x := Sample.run (two ++ [Sample.lose 1] ++ [Sample.lose 0])) (by decide +kernel)
  have hacc3 : s3.accepted Peers.Sample.addr = some (Peers.Sample.conn 1 Peers.Sample.waves) :=
    Sample.run_reads (fun s => s.accepted Peers.Sample.addr) h3 (by decide +kernel)
  have hfail3 : s3.failed = [] := Sample.run_reads Net.failed h3 (by decide +kernel)
  have hacc4 : s4.accepted Peers.Sample.addr = some (Peers.Sample.conn 1 Peers.Sample.waves) :=
    Sample.run_reads (fun s => s.accepted Peers.Sample.addr) h4 (by decide +kernel)
  have hfail4 : s4.failed = [Peers.Sample.conn 1 Peers.Sample.waves] :=
    Sample.run_reads Net.failed h4 (by decide +kernel)
  have hpath : Path (Step Peers.Sample.cmpMinor) (Net.start Peers.Sample.registry) _ s5 :=
    .cons (i := Sample.suggest) ⟨trivial, Path.first_of_foldlM h1⟩
      (.cons (i := Sample.connect 0) ⟨trivial, Path.step_of_foldlM h1 h2⟩
        (.cons (i := Sample.connect 1) ⟨trivial, Path.step_of_foldlM h2 h3⟩
          (.cons (i := Sample.lose 1) ⟨trivial, Path.step_of_foldlM h3 h4⟩
            (.cons (i := Sample.lose 0) ⟨trivial, Path.step_of_foldlM h4 h5⟩ (.nil s5)))))
  refine ⟨s1, s2, s3, s4, s5, _, hpath, rfl, ⟨hacc3, by rw [hfail3]; simp⟩,
    (live_registered_iff hpath).2 fun x hx => ?_⟩
  simp only [List.mem_cons, List.not_mem_nil, or_false] at hx
  rcases hx with rfl | rfl | rfl | rfl | rfl
  · exact id
  · rintro ⟨ap, -, hn, -⟩
    exact absurd hn (by decide +kernel)
  · rintro ⟨ap, -, hn, -⟩
    exact absurd hn (by decide +kernel)
  · rintro ⟨ap, hap, old, hl, hne⟩
    have haddr : Peers.Sample.addr = ap.addr := congrArg AddrPort.addr (Option.some.inj hap)
    rw [← haddr] at hl
    exact hne (Option.some.inj (hl.1.symm.trans hacc3))
  · rintro ⟨ap, hap, old, hl, -⟩
    have haddr : Peers.Sample.addr = ap.addr := congrArg AddrPort.addr (Option.some.inj hap)
    rw [← haddr] at hl
    obtain rfl := Option.some.inj (hl.1.symm.trans hacc4)
    exact hl.2 (by rw [hfail4]; exact List.mem_singleton_self _)

/-- Two connections from one address; the first one fails. -/
theorem live_unregistered : ¬ ∀ tr s', Path (Step Peers.Sample.cmpMinor) (Net.start Peers.Sample.registry) tr s' →
    ∀ x ∈ tr, x.post.Registers := by
  intro hall
  let es : List Event := [Sample.suggest]
  obtain ⟨s1, h1⟩ := Go.exists_of_isOk (x := Sample.run es) (by decide +kernel)
  obtain ⟨s2, h2⟩ := Go.exists_of_isOk (x := Sample.run (es ++ [Sample.connect 0])) (by decide +kernel)
  obtain ⟨s3, h3⟩ := Go.exists_of_isOk
    (x := Sample.run (es ++ [Sample.connect 0] ++ [Sample.connect 1])) (by decide +kernel)
  obtain ⟨s4, h4⟩ := Go.exists_of_isOk
    (x := Sample.run (es ++ [Sample.connect 0] ++ [Sample.connect 1] ++ [Sample.lose 0])) (by decide +kernel)
  have hpath : Path (Step Peers.Sample.cmpMinor) (Net.start Peers.Sample.registry) _ s4 :=
    .cons (i := Sample.suggest) ⟨trivial, Path.first_of_foldlM h1⟩
      (.cons (i := Sample.connect 0) ⟨trivial, Path.step_of_foldlM h1 h2⟩
        (.cons (i := Sample.connect 1) ⟨trivial, Path.step_of_foldlM h2 h3⟩
          (.cons (i := Sample.lose 0) ⟨trivial, Path.step_of_foldlM h3 h4⟩ (.nil s4))))
  have hacc : s4.accepted Peers.Sample.addr = some (Peers.Sample.conn 1 Peers.Sample.waves) :=
    Sample.run_reads (fun s => s.accepted Peers.Sample.addr) h4 (by decide +kernel)
  have hfail : s4.failed = [Peers.Sample.conn 0 Peers.Sample.waves] :=
    Sample.run_reads Net.failed h4 (by decide +kernel)
  have hconn : s4.registry.connections[Peers.Sample.addr]? = none :=
    Sample.run_reads (fun s => s.registry.connections[Peers.Sample.addr]?) h4 (by decide +kernel)
  have hreg := hall _ _ hpath ⟨s3, Sample.lose 0, s4⟩ (by simp) Peers.Sample.addr _
    ⟨hacc, by rw [hfail]; decide⟩
  exact absurd (hconn.symm.trans hreg) (by simp)

end Node
end ForkDetector
