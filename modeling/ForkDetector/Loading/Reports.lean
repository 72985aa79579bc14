import ForkDetector.Loading.Firing
/-!
# Reports — how often a peer is reported

A reporter that only watches the calls answers as the reporter does, so that the loader of a peer runs alike with
either (`fire_observed`); one that counts the calls of `OK` is such a reporter.  The block that completes a queue whose
blocks are all put is reported once (`fire_loaded`).
-/
namespace ForkDetector
namespace Loading

open Chains (Linkage)
open Machine (Control Ran Ended)

variable {ρ σ : Type}

def PeerLoader.mapReport (f : ρ → σ) (s : PeerLoader ρ) : PeerLoader σ :=
  ⟨s.peer, s.hp, f s.r, s.timestamp, s.queue, s.sent⟩

/-- A reporter that answers as `rep` does, over a state of which `rep` has the part `f`. -/
structure Reporter.Observes (rep' : Reporter σ) (rep : Reporter ρ) (f : σ → ρ) : Prop where
  OK : ∀ st peer hp r, rep.OK st peer hp (f r) = (rep'.OK st peer hp r).map fun a => (f a.1, a.2)
  Fail : ∀ st peer r, rep.Fail st peer (f r) = f (rep'.Fail st peer r)

/-- The reporter, and how often `OK` was called. -/
def Reporter.counted (rep : Reporter ρ) : Reporter (ρ × Nat) where
  OK st peer hp r := (rep.OK st peer hp r.1).map fun a => ((a.1, r.2 + 1), a.2)
  Fail st peer r := (rep.Fail st peer r.1, r.2)

theorem Reporter.counted_observes (rep : Reporter ρ) : rep.counted.Observes rep Prod.fst where
  OK st peer hp r := by
    show rep.OK st peer hp r.1 = ((rep.OK st peer hp r.1).map _).map _
    cases rep.OK st peer hp r.1 <;> rfl
  Fail _ _ _ := rfl

section
variable {env : Env} {rep : Reporter ρ}

theorem requestIDsFrom_mapReport (f : ρ → σ) (block : Res Proto.BlockID) (s : PeerLoader ρ) :
    (s.mapReport f).requestIDsFrom env block = (s.requestIDsFrom env block).map (Ran.map (PeerLoader.mapReport f)) := by
  unfold PeerLoader.requestIDsFrom
  show Go.attempt (block >>= fun id => s.hp.lastIDs id idsBatchSize) >>= _ = _
  cases Go.attempt (block >>= fun id => s.hp.lastIDs id idsBatchSize) with
  | error g => rfl
  | ok r => cases r <;> rfl

/-- **Watching the reports changes no action.** -/
theorem perform_observed {f : σ → ρ} {rep' : Reporter σ} (h : rep'.Observes rep f) (a : Action) (st : State) (e : Event)
    (s : PeerLoader σ) : PeerLoader.perform env rep a st e (s.mapReport f) =
      (PeerLoader.perform env rep' a st e s).map (Ran.map (PeerLoader.mapReport f)) := by
  cases a with
  | requestIDs => exact requestIDsFrom_mapReport f (s.hp.leash s.peer) s
  | requestIDsFromLCA => exact requestIDsFrom_mapReport f (s.hp.lcb env.gw env.rng s.peer) s
  | requestBlocks =>
    cases e with
    | ids ids =>
      show skipKnown s.peer s.hp ids >>= _ = (skipKnown s.peer s.hp ids >>= _).map _
      cases skipKnown s.peer s.hp ids with
      | error g => rfl
      | ok r =>
        obtain ⟨hp, e | req⟩ := r
        · rfl
        · cases req <;> rfl
    | _ => rfl
  | appendBlock =>
    cases e with
    | block b =>
      show PeerLoader.appendBlock env (s.mapReport f) b = (PeerLoader.appendBlock env s b).map _
      unfold PeerLoader.appendBlock
      cases hready : (s.queue.put b).ready with
      | false => simp [PeerLoader.mapReport, hready, Except.map, Ran.map]
      | true =>
        simp only [PeerLoader.mapReport, hready, if_true]
        cases putBlocks env.gw s.peer s.hp (s.queue.put b).blocks with
        | error g => rfl
        | ok r => obtain ⟨hp, _ | e⟩ := r <;> rfl
    | _ => rfl
  | onTick => cases e <;> rfl
  | handleFailure =>
    show putBlocks env.gw s.peer s.hp s.queue.received >>= _ =
      (putBlocks env.gw s.peer s.hp s.queue.received >>= _).map _
    cases putBlocks env.gw s.peer s.hp s.queue.received with
    | error g => rfl
    | ok r =>
      obtain ⟨hp, _ | e⟩ := r
      · show Except.ok (⟨{ s.mapReport f with hp := hp, r := rep.Fail st s.peer (f s.r) }, [], none⟩ : Done ρ) = _
        rw [h.Fail]
        rfl
      · rfl
  | reportOK =>
    show rep.OK st s.peer s.hp (f s.r) >>= _ = (rep'.OK st s.peer s.hp s.r >>= _).map _
    rw [h.OK]
    cases rep'.OK st s.peer s.hp s.r with
    | error g => rfl
    | ok r => rfl

/-- **Watching the reports changes nothing else.** -/
theorem fire_observed {f : σ → ρ} {rep' : Reporter σ} (h : rep'.Observes rep f) (m : Control State Event) (e : Event)
    (s : PeerLoader σ) : PeerLoader.fire env rep m e (s.mapReport f) = (PeerLoader.fire env rep' m e s).map
      (Option.map (Ended.map (PeerLoader.mapReport f))) :=
  Machine.drain_map (perform_observed h) 3 _ s

theorem fire_counted (m : Control State Event) (e : Event) (s : PeerLoader (ρ × Nat)) :
    PeerLoader.fire env rep m e (s.mapReport Prod.fst) = (PeerLoader.fire env rep.counted m e s).map
      (Option.map (Ended.map (PeerLoader.mapReport Prod.fst))) := fire_observed rep.counted_observes m e s

end

/-! ## The blocks of a queue -/

section
variable {env : Env} {rep : Reporter ρ} {s : PeerLoader ρ} {b : Option Proto.Block}

/-- A block that leaves the queue incomplete. -/
theorem fire_received (h : (s.queue.put b).ready = false) :
    PeerLoader.fire env rep ⟨.waitingForBlocks, []⟩ (.block b) s =
      .ok (some (settled .waitingForBlocks { s with queue := s.queue.put b } none)) := by
  have hd : s.appendBlock env b = .ok ⟨{ s with queue := s.queue.put b }, [], none⟩ := by
    unfold PeerLoader.appendBlock
    simp only [h]
    rfl
  refine (Machine.drain_cons ((Machine.fireOne_internal (a := Action.appendBlock) rfl).2 ⟨_, hd, rfl⟩)).trans ?_
  exact Machine.drain_nil

/-- **A block that completes the queue**: its blocks are put, and that is reported once. -/
theorem fire_loaded {hp : Linkage} {r : ρ} {again : Bool} (h : (s.queue.put b).ready = true)
    (hput : putBlocks env.gw s.peer s.hp (s.queue.put b).blocks = .ok (hp, none))
    (hok : rep.OK .idle s.peer hp s.r = .ok (r, again))
    (hreq : ∃ d, PeerLoader.requestIDs env { s with queue := s.queue.put b, hp := hp, r := r } = .ok d) :
    ∃ x, PeerLoader.fire env rep ⟨.waitingForBlocks, []⟩ (.block b) s = .ok (some x) ∧ x.world.hp = hp ∧
      x.world.r = r := by
  have hd : s.appendBlock env b = .ok ⟨{ s with queue := s.queue.put b, hp := hp }, [.queueReady], none⟩ := by
    unfold PeerLoader.appendBlock
    simp only [h, if_true]
    exact Go.bind_eq_ok.2 ⟨_, hput, rfl⟩
  have hrep : PeerLoader.reportOK rep .idle { s with queue := s.queue.put b, hp := hp } =
      .ok ⟨{ s with queue := s.queue.put b, hp := hp, r := r }, if again then [.start] else [], none⟩ :=
    Go.bind_eq_ok.2 ⟨_, hok, rfl⟩
  have hone : Machine.fireOne config (PeerLoader.perform env rep) PeerLoader.unhandled ⟨.waitingForBlocks, []⟩
      (.block b) s = .ok ⟨⟨.waitingForBlocks, [.queueReady]⟩, { s with queue := s.queue.put b, hp := hp }, none⟩ :=
    (Machine.fireOne_internal (a := Action.appendBlock) rfl).2 ⟨_, hd, rfl⟩
  have htwo : Machine.fireOne config (PeerLoader.perform env rep) PeerLoader.unhandled ⟨.waitingForBlocks, []⟩
      .queueReady { s with queue := s.queue.put b, hp := hp } = .ok ⟨⟨.idle, if again then [.start] else []⟩,
        { s with queue := s.queue.put b, hp := hp, r := r }, none⟩ :=
    (Machine.fireOne_permit (d := State.idle) (a := Action.reportOK) rfl (by simp) rfl).2 ⟨_, hrep, rfl⟩
  have hrun : PeerLoader.fire env rep ⟨.waitingForBlocks, []⟩ (.block b) s = drain env rep 1
      ⟨.idle, if again then [.start] else []⟩ { s with queue := s.queue.put b, hp := hp, r := r } :=
    (Machine.drain_cons hone).trans (Machine.drain_cons htwo)
  rw [hrun]
  cases again with
  | false => exact ⟨_, Machine.drain_nil, rfl, rfl⟩
  | true =>
    obtain ⟨d, hd⟩ := hreq
    obtain ⟨-, hhp, hr⟩ := requestIDsFrom_world hd
    have hthree : Machine.fireOne config (PeerLoader.perform env rep) PeerLoader.unhandled ⟨.idle, []⟩ .start
        { s with queue := s.queue.put b, hp := hp, r := r } = .ok ⟨⟨.waitingForIDs, d.fired⟩, d.world, d.err⟩ :=
      (Machine.fireOne_permit (d := State.waitingForIDs) (a := Action.requestIDs) rfl (by simp) rfl).2 ⟨d, hd, rfl⟩
    rw [requestIDsFrom_fired hd] at hthree
    refine ⟨⟨⟨.waitingForIDs, []⟩, d.world, d.err⟩, (Machine.drain_cons hthree).trans ?_, hhp, hr⟩
    cases d.err with
    | none => exact Machine.drain_nil
    | some e => rfl

end

end Loading
end ForkDetector
