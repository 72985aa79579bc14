import ForkDetector.Loading.PeerLoader
/-!
# Firing — what one event does to the loader of a peer

`Fired` says, for each state and event, where the machine ends and what it has changed, the triggers that its actions
fire included.  `fire_fired` is the one place where the machine is run; that an event always ends is part of it.
-/
namespace ForkDetector
namespace Loading

open Proto (BlockID)
open Chains (Linkage)
open Machine (Control Ran Ended)

def Event.External : Event → Prop
  | .timeout => False
  | .queueReady => False
  | _ => True

def State.Waiting (st : State) : Prop := st = .waitingForIDs ∨ st = .waitingForBlocks

abbrev Settled (ρ : Type) := Ended State Event (PeerLoader ρ) (Go.Err Sentinel)

def settled {ρ : Type} (st : State) (s : PeerLoader ρ) (err : Option (Go.Err Sentinel)) : Settled ρ :=
  ⟨⟨st, []⟩, s, err⟩

section
variable {ρ : Type} (env : Env) (rep : Reporter ρ)

/-- **The end of a batch**: the report, and the next batch when the reporter starts the loader again. -/
inductive Finished (s : PeerLoader ρ) : Settled ρ → Prop where
  | stopped (r : ρ) : rep.OK .idle s.peer s.hp s.r = .ok (r, false) → Finished s (settled .idle { s with r := r } none)
  | again (r : ρ) (d : Done ρ) : rep.OK .idle s.peer s.hp s.r = .ok (r, true) →
      PeerLoader.requestIDs env { s with r := r } = .ok d → Finished s (settled .waitingForIDs d.world d.err)

/-- **What an event can do.** -/
inductive Fired : State → Event → PeerLoader ρ → Settled ρ → Prop where
  | ignored (st : State) (e : Event) (s : PeerLoader ρ) : handler st e = some .ignore →
      Fired st e s (settled st s none)
  | started (s : PeerLoader ρ) (d : Done ρ) : s.requestIDs env = .ok d →
      Fired .idle .start s (settled .waitingForIDs d.world d.err)
  | restarted (s : PeerLoader ρ) (d : Done ρ) : s.requestIDsFromLCA env = .ok d →
      Fired .idle .restart s (settled .waitingForIDs d.world d.err)
  | refused (ids : List BlockID) (s : PeerLoader ρ) (hp : Linkage) (err : Go.Err Sentinel) :
      skipKnown s.peer s.hp ids = .ok (hp, .error err) →
      Fired .waitingForIDs (.ids ids) s (settled .waitingForBlocks { s with hp := hp } (some err))
  | requested (ids : List BlockID) (s : PeerLoader ρ) (hp : Linkage) (id : BlockID) (req : List BlockID) :
      skipKnown s.peer s.hp ids = .ok (hp, .ok (id :: req)) →
      Fired .waitingForIDs (.ids ids) s (settled .waitingForBlocks { s with
        hp := hp, queue := newQueue (id :: req), sent := s.sent ++ (id :: req).map .block,
        timestamp := some env.now } none)
  | known (ids : List BlockID) (s : PeerLoader ρ) (hp : Linkage) (r : Settled ρ) :
      skipKnown s.peer s.hp ids = .ok (hp, .ok []) → Finished env rep { s with hp := hp } r →
      Fired .waitingForIDs (.ids ids) s r
  | received (b : Option Proto.Block) (s : PeerLoader ρ) : (s.queue.put b).ready = false →
      Fired .waitingForBlocks (.block b) s (settled .waitingForBlocks { s with queue := s.queue.put b } none)
  | rejected (b : Option Proto.Block) (s : PeerLoader ρ) (hp : Linkage) (err : Go.Err Sentinel) :
      (s.queue.put b).ready = true → putBlocks env.gw s.peer s.hp (s.queue.put b).blocks = .ok (hp, some err) →
      Fired .waitingForBlocks (.block b) s (settled .waitingForBlocks { s with queue := s.queue.put b, hp := hp }
        (some (.wrap "failed to append block '%s' for peer '%s'" err)))
  | loaded (b : Option Proto.Block) (s : PeerLoader ρ) (hp : Linkage) (r : Settled ρ) :
      (s.queue.put b).ready = true → putBlocks env.gw s.peer s.hp (s.queue.put b).blocks = .ok (hp, none) →
      Finished env rep { s with queue := s.queue.put b, hp := hp } r → Fired .waitingForBlocks (.block b) s r
  | ticked (st : State) (tm : Int) (s : PeerLoader ρ) : st.Waiting → timedOut s.timestamp tm = false →
      Fired st (.tick tm) s (settled st s none)
  | stuck (st : State) (tm : Int) (s : PeerLoader ρ) (hp : Linkage) (err : Go.Err Sentinel) : st.Waiting →
      timedOut s.timestamp tm = true → putBlocks env.gw s.peer s.hp s.queue.received = .ok (hp, some err) →
      Fired st (.tick tm) s (settled .done { s with hp := hp } (some err))
  | gaveUp (st : State) (tm : Int) (s : PeerLoader ρ) (hp : Linkage) : st.Waiting →
      timedOut s.timestamp tm = true → putBlocks env.gw s.peer s.hp s.queue.received = .ok (hp, none) →
      Fired st (.tick tm) s (settled .done { s with hp := hp, r := rep.Fail .done s.peer s.r } none)

end

section
variable {ρ : Type} {env : Env} {rep : Reporter ρ} {s : PeerLoader ρ} {n : Nat}
  {o : Option (Settled ρ)}

abbrev drain (env : Env) (rep : Reporter ρ) := Machine.drain config (PeerLoader.perform env rep) PeerLoader.unhandled

theorem requestIDsFrom_fired {block : Res BlockID} {d : Done ρ} (h : s.requestIDsFrom env block = .ok d) :
    d.fired = [] := by
  obtain ⟨r, -, h⟩ := Go.bind_eq_ok.1 h
  split at h <;> cases h <;> rfl

theorem requestIDsFrom_world {block : Res BlockID} {d : Done ρ} (h : s.requestIDsFrom env block = .ok d) :
    d.world.peer = s.peer ∧ d.world.hp = s.hp ∧ d.world.r = s.r := by
  obtain ⟨r, -, h⟩ := Go.bind_eq_ok.1 h
  split at h <;> cases h <;> exact ⟨rfl, rfl, rfl⟩

theorem drain_ended {d : Done ρ} {st : State} (hf : d.fired = []) {r : Settled ρ} (hr : r = d.ended st [])
    (h : r.err.isSome = true ∧ o = some r ∨ r.err = none ∧ drain env rep n r.control r.world = .ok o) :
    o = some (settled st d.world d.err) := by
  subst hr
  unfold Ran.ended at h
  rw [hf, List.append_nil] at h
  rcases h with ⟨-, ho⟩ | ⟨he, hd⟩
  · exact ho
  · simp only at he hd
    rw [drain, Machine.drain_nil] at hd
    cases hd
    rw [he]
    rfl

theorem drain_start (h : drain env rep (n + 1) ⟨.idle, [.start]⟩ s = .ok o) :
    ∃ d, s.requestIDs env = .ok d ∧ o = some (settled .waitingForIDs d.world d.err) := by
  obtain ⟨r, hr, h⟩ := Machine.drain_cons_eq_ok.1 h
  obtain ⟨d, hd, hr⟩ := (Machine.fireOne_permit (d := .waitingForIDs) (a := .requestIDs) rfl (by simp) rfl).1 hr
  exact ⟨d, hd, drain_ended (requestIDsFrom_fired hd) hr h⟩

theorem drain_restart (h : drain env rep (n + 1) ⟨.idle, [.restart]⟩ s = .ok o) :
    ∃ d, s.requestIDsFromLCA env = .ok d ∧ o = some (settled .waitingForIDs d.world d.err) := by
  obtain ⟨r, hr, h⟩ := Machine.drain_cons_eq_ok.1 h
  obtain ⟨d, hd, hr⟩ := (Machine.fireOne_permit (d := .waitingForIDs) (a := .requestIDsFromLCA) rfl (by simp) rfl).1 hr
  exact ⟨d, hd, drain_ended (requestIDsFrom_fired hd) hr h⟩

theorem drain_queueReady (h : drain env rep (n + 2) ⟨.waitingForBlocks, [.queueReady]⟩ s = .ok o) :
    ∃ r, o = some r ∧ Finished env rep s r := by
  obtain ⟨r, hr, h⟩ := Machine.drain_cons_eq_ok.1 h
  obtain ⟨d, hd, hr⟩ := (Machine.fireOne_permit (d := .idle) (a := .reportOK) rfl (by simp) rfl).1 hr
  obtain ⟨⟨r', again⟩, hok, hd⟩ := Go.bind_eq_ok.1 hd
  cases hd
  subst hr
  rcases h with ⟨he, -⟩ | ⟨-, h⟩
  · cases he
  · cases again with
    | false =>
      have h' : drain env rep (n + 1) ⟨.idle, []⟩ { s with r := r' } = .ok o := h
      rw [drain, Machine.drain_nil] at h'
      cases h'
      exact ⟨_, rfl, .stopped r' hok⟩
    | true =>
      obtain ⟨d, hd, rfl⟩ := drain_start h
      exact ⟨_, rfl, .again r' d hok hd⟩

theorem drain_timeout {st : State} (hst : st.Waiting) (h : drain env rep (n + 1) ⟨st, [.timeout]⟩ s = .ok o) :
    ∃ hp err, putBlocks env.gw s.peer s.hp s.queue.received = .ok (hp, err) ∧
      o = some (settled .done (match err with
        | some _ => { s with hp := hp }
        | none => { s with hp := hp, r := rep.Fail .done s.peer s.r }) err) := by
  obtain ⟨r, hr, h⟩ := Machine.drain_cons_eq_ok.1 h
  have hhandler : config.handler st .timeout = some (.permit .done) ∧ State.done ≠ st := by
    rcases hst with rfl | rfl <;> exact ⟨rfl, by simp⟩
  obtain ⟨d, hd, hr⟩ := (Machine.fireOne_permit (a := .handleFailure) hhandler.1 hhandler.2 rfl).1 hr
  obtain ⟨⟨hp, err⟩, hput, hd⟩ := Go.bind_eq_ok.1 hd
  refine ⟨hp, err, hput, ?_⟩
  cases err with
  | some e =>
    cases hd
    exact drain_ended rfl hr h
  | none =>
    cases hd
    exact drain_ended rfl hr h

theorem fire_tick {st : State} {tm : Int} (hst : st.Waiting)
    (h : PeerLoader.fire env rep ⟨st, []⟩ (.tick tm) s = .ok o) :
    ∃ r, o = some r ∧ Fired env rep st (.tick tm) s r := by
  obtain ⟨r, hr, h⟩ := Machine.drain_cons_eq_ok.1 h
  have hhandler : config.handler st (.tick tm) = some (.internal .onTick) := by
    rcases hst with rfl | rfl <;> rfl
  obtain ⟨d, hd, hr⟩ := (Machine.fireOne_internal hhandler).1 hr
  cases hd
  cases ht : timedOut s.timestamp tm with
  | false =>
    have hfired : (s.onTick tm).fired = [] := by simp [PeerLoader.onTick, ht]
    exact ⟨_, drain_ended hfired hr h, .ticked st tm s hst ht⟩
  | true =>
    subst hr
    rcases h with ⟨he, -⟩ | ⟨-, h⟩
    · cases he
    · have h' : drain env rep 2 ⟨st, [.timeout]⟩ s = .ok o := by
        simpa [Ran.ended, PeerLoader.onTick, ht] using h
      obtain ⟨hp, err, hput, rfl⟩ := drain_timeout hst h'
      cases err with
      | some err => exact ⟨_, rfl, .stuck st tm s hp err hst ht hput⟩
      | none => exact ⟨_, rfl, .gaveUp st tm s hp hst ht hput⟩

theorem fire_ids {ids : List BlockID} (h : PeerLoader.fire env rep ⟨.waitingForIDs, []⟩ (.ids ids) s = .ok o) :
    ∃ r, o = some r ∧ Fired env rep .waitingForIDs (.ids ids) s r := by
  obtain ⟨r, hr, h⟩ := Machine.drain_cons_eq_ok.1 h
  obtain ⟨d, hd, hr⟩ := (Machine.fireOne_permit (d := .waitingForBlocks) (a := .requestBlocks) rfl (by simp) rfl).1 hr
  obtain ⟨⟨hp, req⟩, hskip, hd⟩ := Go.bind_eq_ok.1 hd
  simp only at hd
  split at hd
  · rename_i e
    cases hd
    exact ⟨_, drain_ended rfl hr h, .refused ids s hp e hskip⟩
  · cases hd
    subst hr
    rcases h with ⟨he, -⟩ | ⟨-, h⟩
    · cases he
    · obtain ⟨r, rfl, hfin⟩ := drain_queueReady h
      exact ⟨r, rfl, .known ids s hp r hskip hfin⟩
  · rename_i id req
    cases hd
    exact ⟨_, drain_ended rfl hr h, .requested ids s hp id req hskip⟩

theorem fire_block {b : Option Proto.Block}
    (h : PeerLoader.fire env rep ⟨.waitingForBlocks, []⟩ (.block b) s = .ok o) :
    ∃ r, o = some r ∧ Fired env rep .waitingForBlocks (.block b) s r := by
  obtain ⟨r, hr, h⟩ := Machine.drain_cons_eq_ok.1 h
  obtain ⟨d, hd, hr⟩ := (Machine.fireOne_internal (a := .appendBlock) rfl).1 hr
  change s.appendBlock env b = .ok d at hd
  unfold PeerLoader.appendBlock at hd
  simp only at hd
  split at hd
  · rename_i hready
    obtain ⟨⟨hp, err⟩, hput, hd⟩ := Go.bind_eq_ok.1 hd
    cases err with
    | some e =>
      cases hd
      exact ⟨_, drain_ended rfl hr h, .rejected b s hp e hready hput⟩
    | none =>
      cases hd
      subst hr
      rcases h with ⟨he, -⟩ | ⟨-, h⟩
      · cases he
      · obtain ⟨r, rfl, hfin⟩ := drain_queueReady h
        exact ⟨r, rfl, .loaded b s hp r hready hput hfin⟩
  · rename_i hready
    cases hd
    exact ⟨_, drain_ended rfl hr h, .received b s (by simpa using hready)⟩

theorem fire_ignored {st : State} {e : Event} (hi : handler st e = some .ignore)
    (h : PeerLoader.fire env rep ⟨st, []⟩ e s = .ok o) : ∃ r, o = some r ∧ Fired env rep st e s r := by
  obtain ⟨r, hr, h⟩ := Machine.drain_cons_eq_ok.1 h
  rw [Machine.fireOne_ignore hi] at hr
  cases hr
  rcases h with ⟨he, -⟩ | ⟨-, h⟩
  · cases he
  · rw [Machine.drain_nil] at h
    cases h
    exact ⟨_, rfl, .ignored st e s hi⟩

/-- **What firing an event from outside does**: it always ends, and in one of these ways. -/
theorem fire_fired {st : State} {e : Event} (hext : e.External) (h : PeerLoader.fire env rep ⟨st, []⟩ e s = .ok o) :
    ∃ r, o = some r ∧ Fired env rep st e s r := by
  cases st with
  | idle =>
    cases e with
    | start =>
      obtain ⟨d, hd, rfl⟩ := drain_start h
      exact ⟨_, rfl, .started s d hd⟩
    | restart =>
      obtain ⟨d, hd, rfl⟩ := drain_restart h
      exact ⟨_, rfl, .restarted s d hd⟩
    | _ => exact fire_ignored rfl h
  | waitingForIDs =>
    cases e with
    | ids ids => exact fire_ids h
    | tick tm => exact fire_tick (.inl rfl) h
    | timeout => cases hext
    | _ => exact fire_ignored rfl h
  | waitingForBlocks =>
    cases e with
    | block b => exact fire_block h
    | tick tm => exact fire_tick (.inr rfl) h
    | timeout => cases hext
    | queueReady => cases hext
    | _ => exact fire_ignored rfl h
  | done =>
    cases e with
    | queueReady => cases hext
    | _ => exact fire_ignored rfl h

/-- The bound on the triggers of an event does not matter. -/
theorem fire_bound {st : State} {e : Event} {k : Nat} {r : Settled ρ} (hk : 3 ≤ k)
    (h : PeerLoader.fire env rep ⟨st, []⟩ e s = .ok (some r)) : drain env rep k ⟨st, [e]⟩ s = .ok (some r) :=
  Machine.drain_mono hk h

/-- **What every event keeps**: the peer, and what the reporter keeps. -/
theorem Fired.kept {α : Type} {f : ρ → α}
    (hOK : ∀ st peer hp r r' again, rep.OK st peer hp r = .ok (r', again) → f r' = f r)
    (hFail : ∀ st peer r, f (rep.Fail st peer r) = f r) {st : State} {e : Event} {r : Settled ρ}
    (h : Fired env rep st e s r) : r.control.pending = [] ∧ r.world.peer = s.peer ∧ f r.world.r = f s.r := by
  have hrequest : ∀ {block} {s : PeerLoader ρ} {d : Done ρ}, s.requestIDsFrom env block = .ok d →
      d.world.peer = s.peer ∧ f d.world.r = f s.r := fun hd => by
    obtain ⟨hpeer, -, hr⟩ := requestIDsFrom_world hd
    exact ⟨hpeer, by rw [hr]⟩
  have hfinish : ∀ {s : PeerLoader ρ} {r : Settled ρ}, Finished env rep s r →
      r.control.pending = [] ∧ r.world.peer = s.peer ∧ f r.world.r = f s.r := fun hfin => by
    cases hfin with
    | stopped r hok => exact ⟨rfl, rfl, hOK _ _ _ _ _ _ hok⟩
    | again r d hok hd =>
      obtain ⟨hpeer, hr⟩ := hrequest hd
      exact ⟨rfl, hpeer, hr.trans (hOK _ _ _ _ _ _ hok)⟩
  cases h with
  | started _ d hd => exact ⟨rfl, hrequest hd⟩
  | restarted _ d hd => exact ⟨rfl, hrequest hd⟩
  | known _ _ hp _ _ hfin => exact (hfinish hfin :)
  | loaded _ _ hp _ _ _ hfin => exact (hfinish hfin :)
  | gaveUp _ _ _ hp => exact ⟨rfl, rfl, hFail _ _ _⟩
  | _ => exact ⟨rfl, rfl, rfl⟩

end

end Loading
end ForkDetector
