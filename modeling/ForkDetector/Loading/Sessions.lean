import ForkDetector.Loading.Reports
import ForkDetector.Loading.Requests
import ForkDetector.Loading.Scores
/-!
# Sessions — what the loader reports while it loads from one peer

A session starts when `sync` chooses a peer.  The log of a run lists the sessions that start, the lists of IDs that the
peers answer with, and the calls of `OK` with what they read and decide; a watched reporter writes down the calls.
`Handled` says what an event adds to the log, and `run_log` carries what every step keeps of it to a whole run.
-/
namespace ForkDetector
namespace Loading

open Proto (BlockID Gowaves Version Conn)
open Chains (Linkage Reachable)
open Peers (Registry Peer)
open Machine (Control Ended)
open Run (Path Link)

/-! ## The log -/

/-- A call of `OK`, and whether it continues. -/
structure OKCall where
  peer : Addr
  linkage : Linkage
  report : Report
  again : Bool

namespace OKCall

def broadcast (c : OKCall) : Option Int :=
  match c.report.registry.storage.peer c.peer with
  | .ok p => p.score
  | .error _ => none

def leash (c : OKCall) : Option Int :=
  match c.linkage.leashScore c.peer with
  | .ok score => some score
  | .error _ => none

/-- The broadcast score less the leash score. -/
def lag (c : OKCall) : Option Int := do
  let peerScore ← c.broadcast
  let leashScore ← c.leash
  some (peerScore - leashScore)

end OKCall

/-- A reporter with a list of the calls of `OK`. -/
def Reporter.logged (rep : Reporter Report) : Reporter (Report × List OKCall) where
  OK st peer hp r := (rep.OK st peer hp r.1).map fun a => ((a.1, r.2 ++ [⟨peer, hp, r.1, a.2⟩]), a.2)
  Fail st peer r := (rep.Fail st peer r.1, r.2)

inductive Mark where
  | started
  | told (ids : List BlockID)
  | decided (c : OKCall)

def Mark.call? : Mark → Option OKCall
  | .decided c => some c
  | _ => none

/-- The list of IDs that the loader of a peer takes. -/
def Held.told (pl : Held) : Event → List Mark
  | .ids ids => if pl.control.state = .waitingForIDs then [.told ids] else []
  | _ => []

namespace Loader

/-- The calls of `OK` that an event makes. -/
def okCalled (env : Env) (l : Loader) (pl : Held) (e : Event) : List OKCall :=
  match PeerLoader.fire env reporter.logged pl.control e ((l.view pl).mapReport (·, [])) with
  | .ok (some r) => r.world.r.2
  | _ => []

/-- What the handlers pass on to the loader of the peer. -/
def passes {byName : Peer → Peer → Bool} (gw : Gowaves) (l : Loader) : LoaderEvent byName → Option (Env × Held × Event)
  | .tick now => l.pl.map fun pl => (.at gw now, pl, .tick now)
  | .ids now peer ids => l.pl.bind fun pl =>
    if ids = [] then none else if peer ≠ pl.peer then none else some (.at gw now, pl, .ids ids)
  | .block now peer block => l.pl.bind fun pl =>
    if peer ≠ pl.peer then none else some (.at gw now, pl, .block block)
  | _ => none

/-- What a step adds to the log.  The start that `sync` makes itself reports nothing: `okCalled_start`. -/
def marks {byName : Peer → Peer → Bool} (gw : Gowaves) (l : Loader) (e : LoaderEvent byName) (l' : Loader) :
    List Mark :=
  match l.passes gw e with
  | some (env, pl, ev) => pl.told ev ++ (l.okCalled env pl ev).map .decided
  | none => if l.pl.isNone && l'.pl.isSome then [.started] else []

end Loader

def log {byName : Peer → Peer → Bool} (gw : Gowaves) (tr : List (Link Loader (LoaderEvent byName))) : List Mark :=
  tr.flatMap fun x => x.pre.marks gw x.input x.post

/-! ## Reading a log -/

def calls (h : List Mark) : List OKCall := h.filterMap Mark.call?

/-- The lag that the last call has left, if it continued. -/
def remembered (h : List Mark) : Option Int := (calls h).getLast?.bind fun c => if c.again then c.lag else none

/-- Nothing but lists of IDs. -/
def OnlyTold (mid : List Mark) : Prop := ∀ m ∈ mid, ∃ ids, m = .told ids

/-- The call `c` is made when the log is `before`. -/
def At (h before : List Mark) (c : OKCall) : Prop := before ++ [.decided c] <+: h

/-- The call `c` is the first one of a session that starts after `before`. -/
def FirstOK (h before : List Mark) (c : OKCall) : Prop := ∃ mid, OnlyTold mid ∧ At h (before ++ .started :: mid) c

/-- The call `c'` is the one after `c` in a session. -/
def NextOK (h before : List Mark) (c : OKCall) (mid : List Mark) (c' : OKCall) : Prop :=
  OnlyTold mid ∧ At h (before ++ .decided c :: mid) c'

def Mark.ids? : Mark → Option (List BlockID)
  | .told ids => some ids
  | _ => none

/-- The last ID of the last list. -/
def target (h : List Mark) : Option BlockID := (h.filterMap Mark.ids?).getLast?.bind List.getLast?

/-- Marks that are no calls. -/
def Quiet (ts : List Mark) : Prop := ∀ m ∈ ts, m.call? = none

theorem OnlyTold.quiet {mid : List Mark} (h : OnlyTold mid) : Quiet mid := by
  intro m hm
  obtain ⟨ids, rfl⟩ := h m hm
  rfl

theorem onlyTold_told (pl : Held) (e : Event) : OnlyTold (pl.told e) := by
  intro m hm
  unfold Held.told at hm
  split at hm
  · split at hm
    · exact ⟨_, List.mem_singleton.1 hm⟩
    · cases hm
  · cases hm

theorem Quiet.calls_append {ts : List Mark} (hq : Quiet ts) (h : List Mark) : calls (h ++ ts) = calls h := by
  unfold calls
  rw [List.filterMap_append, List.filterMap_eq_nil_iff.2 hq, List.append_nil]

theorem calls_decided (h : List Mark) (c : OKCall) : calls (h ++ [.decided c]) = calls h ++ [c] := by
  unfold calls
  rw [List.filterMap_append]
  rfl

theorem Quiet.remembered_append {ts : List Mark} (hq : Quiet ts) (h : List Mark) :
    remembered (h ++ ts) = remembered h := by
  unfold remembered
  rw [hq.calls_append]

theorem remembered_decided (h : List Mark) (c : OKCall) :
    remembered (h ++ [.decided c]) = if c.again then c.lag else none := by
  unfold remembered
  rw [calls_decided, List.getLast?_concat]
  rfl

/-- A call is not at the end of a log that ends with other marks. -/
theorem Quiet.eq_nil {h before rest : List Mark} {c : OKCall} (hq : Quiet rest)
    (he : before ++ [.decided c] = h ++ rest) : rest = [] := by
  rcases List.eq_nil_or_concat rest with hr | ⟨init, m, rfl⟩
  · exact hr
  · rw [List.concat_eq_append, ← List.append_assoc] at he
    obtain ⟨-, hm⟩ := List.append_inj' he rfl
    obtain rfl : Mark.decided c = m := by simpa using hm
    cases hq (.decided c) (by simp)

/-- **The calls of a longer log**: those before, and the one that is added. -/
theorem Quiet.at_append {h before ts : List Mark} {c : OKCall} (hq : Quiet ts) (ha : At (h ++ ts) before c) :
    At h before c := by
  obtain ⟨rest, hrest⟩ := ha
  rcases List.append_eq_append_iff.1 hrest with ⟨a, hh, -⟩ | ⟨a, hh, hts⟩
  · exact ⟨a, hh.symm⟩
  · obtain rfl : a = [] := Quiet.eq_nil (fun m hm => hq m (by rw [hts]; exact List.mem_append_left _ hm)) hh
    exact ⟨[], by rw [List.append_nil, hh, List.append_nil]⟩

theorem at_decided {h before : List Mark} {c c' : OKCall} (ha : At (h ++ [.decided c]) before c') :
    before = h ∧ c' = c ∨ At h before c' := by
  rcases List.prefix_concat_iff.1 ha with he | hp
  · obtain ⟨hb, hc⟩ := List.append_inj' he rfl
    exact .inl ⟨hb, by simpa using hc⟩
  · exact .inr hp

theorem Quiet.started {mid : List Mark} (hq : Quiet mid) : Quiet (.started :: mid) := by
  intro m hm
  rcases List.mem_cons.1 hm with rfl | hm
  · rfl
  · exact hq m hm

theorem exists_at {h : List Mark} {c : OKCall} (hc : c ∈ calls h) : ∃ before, At h before c := by
  obtain ⟨m, hm, he⟩ := List.mem_filterMap.1 hc
  cases m with
  | decided c' =>
    cases he
    obtain ⟨before, rest, rfl⟩ := List.append_of_mem hm
    exact ⟨before, rest, by simp⟩
  | _ => cases he

theorem At.start {h before mid : List Mark} {c : OKCall} (ha : At h (before ++ mid) c) : before <+: h := by
  obtain ⟨rest, rfl⟩ := ha
  exact ⟨mid ++ [.decided c] ++ rest, by simp⟩

theorem At.calls {h before : List Mark} {c : OKCall} (ha : At h before c) : calls before ++ [c] <+: calls h := by
  rw [← calls_decided]
  exact ha.filterMap Mark.call?

theorem FirstOK.calls {h before : List Mark} {c : OKCall} (hf : FirstOK h before c) :
    calls before ++ [c] <+: calls h := by
  obtain ⟨mid, hmid, ha⟩ := hf
  rw [← hmid.quiet.started.calls_append before]
  exact ha.calls

theorem log_concat {byName : Peer → Peer → Bool} (gw : Gowaves) (tr : List (Link Loader (LoaderEvent byName)))
    (l : Loader) (e : LoaderEvent byName) (l' : Loader) :
    log gw (tr ++ [⟨l, e, l'⟩]) = log gw tr ++ l.marks gw e l' := by
  unfold log
  rw [List.flatMap_append, List.flatMap_singleton]

/-! ## The calls of one event -/

theorem Reporter.logged_observes (rep : Reporter Report) : rep.logged.Observes rep Prod.fst where
  OK st peer hp r := by
    show rep.OK st peer hp r.1 = ((rep.OK st peer hp r.1).map _).map _
    cases rep.OK st peer hp r.1 <;> rfl
  Fail _ _ _ := rfl

section
variable {env : Env} {l l' : Loader} {pl : Held} {e : Event} {err : Option (Go.Err Sentinel)}

theorem fire_logged (hpend : pl.control.pending = []) (hext : e.External) (h : l.fire env pl e = .ok (l', err)) :
    ∃ x, Fired env reporter.logged pl.control.state e ((l.view pl).mapReport (·, [])) x ∧
      l.okCalled env pl e = x.world.r.2 ∧ l' = Loader.keep (x.map (PeerLoader.mapReport Prod.fst)) := by
  obtain ⟨o, ho, h⟩ := Go.bind_eq_ok.1 h
  have hplain : ((PeerLoader.fire env reporter.logged pl.control e ((l.view pl).mapReport (·, []))).map
      (Option.map (Ended.map (PeerLoader.mapReport Prod.fst)))) = .ok o :=
    (fire_observed reporter.logged_observes pl.control e ((l.view pl).mapReport (·, []))).symm.trans ho
  unfold Loader.okCalled
  cases hlogged : PeerLoader.fire env reporter.logged pl.control e ((l.view pl).mapReport (·, [])) with
  | error g =>
    rw [hlogged] at hplain
    cases hplain
  | ok o' =>
    rw [hlogged] at hplain
    obtain rfl : Option.map (Ended.map (PeerLoader.mapReport Prod.fst)) o' = o := Except.ok.inj hplain
    have hcontrol : pl.control = ⟨pl.control.state, []⟩ := by rw [← hpend]
    rw [hcontrol] at hlogged
    obtain ⟨x, rfl, hx⟩ := fire_fired hext hlogged
    cases h
    exact ⟨x, hx, rfl, rfl⟩

/-- **What `OK` decides**: to continue when the peer lags, unless by the lag that is remembered. -/
theorem reportOK_decides {peer : Addr} {hp : Linkage} {r r' : Report} {again : Bool} {p : Peer} {ps ls : Int}
    (hpeer : r.registry.storage.peer peer = .ok p) (hscore : p.score = some ps) (hleash : hp.leashScore peer = .ok ls)
    (hheld : r.held = true) (h : reportOK .idle peer hp r = .ok (r', again)) :
    (again = true ↔ ls < ps ∧ r.prevDiff ≠ some (ps - ls)) ∧ r'.held = again ∧
      r'.prevDiff = if again then some (ps - ls) else none := by
  unfold reportOK at h
  simp only [hheld, decide_true, Bool.and_self, if_true, hpeer, hleash, hscore] at h
  have hlag : isLagging r.prevDiff ps ls = (ps - ls, decide (ls < ps ∧ r.prevDiff ≠ some (ps - ls))) := by
    unfold isLagging
    cases r.prevDiff <;> simp
  rw [hlag] at h
  by_cases hc : ls < ps ∧ r.prevDiff ≠ some (ps - ls)
  · rw [decide_eq_true hc] at h
    cases h
    exact ⟨iff_of_true rfl hc, rfl, rfl⟩
  · rw [decide_eq_false hc] at h
    cases h
    exact ⟨iff_of_false Bool.false_ne_true hc, rfl, rfl⟩

/-- Where the blocks of a batch come from: a list of known IDs, or the queue that a block completes. -/
inductive EndsBatch (env : Env) (l : Loader) (pl : Held) (hp : Linkage) : Event → Prop where
  | known (ids : List BlockID) : pl.control.state = .waitingForIDs →
      skipKnown pl.peer l.linkage ids = .ok (hp, .ok []) → EndsBatch env l pl hp (.ids ids)
  | loaded (b : Option Proto.Block) : pl.control.state = .waitingForBlocks → (pl.queue.put b).ready = true →
      putBlocks env.gw pl.peer l.linkage (pl.queue.put b).blocks = .ok (hp, none) →
      EndsBatch env l pl hp (.block b)

/-- What a loader that still waits for blocks has asked for. -/
inductive StillAsks (l : Loader) (pl : Held) (pl' : Held) : Event → Prop where
  | same (e : Event) : pl.control.state = .waitingForBlocks →
      pl'.queue.map Item.requested = pl.queue.map Item.requested → StillAsks l pl pl' e
  | asked (ids : List BlockID) (hp : Linkage) (id : BlockID) (req : List BlockID) :
      pl.control.state = .waitingForIDs → skipKnown pl.peer l.linkage ids = .ok (hp, .ok (id :: req)) →
      pl'.queue = newQueue (id :: req) → StillAsks l pl pl' (.ids ids)

/-- **What an event reports**: nothing, or the end of a batch. -/
inductive Handled (env : Env) (l : Loader) (pl : Held) (e : Event) (l' : Loader) : List OKCall → Prop where
  | silent : l'.prevDiff = l.prevDiff →
      (∀ pl', l'.pl = some pl' → pl'.control.state = .waitingForBlocks → StillAsks l pl pl' e) →
      Handled env l pl e l' []
  | ended (hp : Linkage) (again : Bool) (rep : Report) : EndsBatch env l pl hp e →
      reportOK .idle pl.peer hp (l.view pl).r = .ok (rep, again) → l'.linkage = hp → l'.prevDiff = rep.prevDiff →
      l'.pl.isSome = rep.held → (∀ pl', l'.pl = some pl' → pl'.control.state ≠ .waitingForBlocks) →
      Handled env l pl e l' [⟨pl.peer, hp, (l.view pl).r, again⟩]

theorem Queue.put_requested (b : Option Proto.Block) (q : Queue) :
    (q.put b).map Item.requested = q.map Item.requested := by
  cases b with
  | none => rfl
  | some b =>
    show (Queue.putBlock b q).map Item.requested = _
    induction q with
    | nil => rfl
    | cons it q ih =>
      unfold Queue.putBlock
      split
      · rfl
      · rw [List.map_cons, ih, List.map_cons]

theorem logged_eq_ok {peer : Addr} {hp : Linkage} {rep : Report} {r : Report × List OKCall} {again : Bool}
    (h : reporter.logged.OK .idle peer hp (rep, []) = .ok (r, again)) :
    ∃ rep', reportOK .idle peer hp rep = .ok (rep', again) ∧ r = (rep', [⟨peer, hp, rep, again⟩]) := by
  change (reportOK .idle peer hp rep).map _ = .ok (r, again) at h
  cases hok : reportOK .idle peer hp rep with
  | error g =>
    rw [hok] at h
    cases h
  | ok a =>
    rw [hok] at h
    cases h
    exact ⟨a.1, rfl, rfl⟩

theorem reportFail_prevDiff (st : State) (peer : Addr) (rep : Report) :
    (reportFail st peer rep).prevDiff = rep.prevDiff := by
  unfold reportFail
  split <;> rfl

/-- The end of a batch, as the log sees it. -/
theorem Finished.handled {hp : Linkage} {queue : Queue} {r : Settled (Report × List OKCall)}
    (hend : EndsBatch env l pl hp e) (h : Finished env reporter.logged
      { (l.view pl).mapReport (·, ([] : List OKCall)) with hp := hp, queue := queue } r) :
    Handled env l pl e (Loader.keep (r.map (PeerLoader.mapReport Prod.fst))) r.world.r.2 := by
  cases h with
  | stopped r hok =>
    obtain ⟨rep, hrep, rfl⟩ := logged_eq_ok hok
    refine .ended hp false rep hend hrep rfl rfl ?_ fun pl' hpl' => ?_
    · show (if rep.held = true then _ else none : Option Held).isSome = rep.held
      cases rep.held <;> rfl
    · rw [(keep_held hpl').1]
      exact fun h => nomatch h
  | again r d hok hd =>
    obtain ⟨rep, hrep, rfl⟩ := logged_eq_ok hok
    obtain ⟨-, hhp, hr⟩ := requestIDsFrom_world hd
    have hr' : d.world.r = (rep, [⟨pl.peer, hp, (l.view pl).r, true⟩]) := hr
    show Handled env l pl e _ d.world.r.2
    rw [hr']
    refine .ended hp true rep hend hrep hhp (congrArg (fun r => r.1.prevDiff) hr') ?_ fun pl' hpl' => ?_
    · show (if d.world.r.1.held = true then _ else none : Option Held).isSome = rep.held
      rw [hr']
      cases rep.held <;> rfl
    · rw [(keep_held hpl').1]
      exact fun h => nomatch h

theorem keep_queue {r : Settled Report} (h : (Loader.keep r).pl = some pl) : pl.queue = r.world.queue := by
  unfold Loader.keep at h
  simp only at h
  split at h
  · cases h
    rfl
  · cases h

/-- **What every event of the peer held reports.** -/
theorem fire_handled (hpend : pl.control.pending = []) (hext : e.External) (h : l.fire env pl e = .ok (l', err)) :
    Handled env l pl e l' (l.okCalled env pl e) := by
  obtain ⟨x, hx, hcalled, rfl⟩ := fire_logged hpend hext h
  rw [hcalled]
  -- a loader that ends in another state asks for nothing, and one that stays in its state asks for the same
  have hother : ∀ {st : State} {w : PeerLoader (Report × List OKCall)} {err : Option (Go.Err Sentinel)},
      st ≠ .waitingForBlocks → ∀ pl', (Loader.keep ((settled st w err).map (PeerLoader.mapReport Prod.fst))).pl =
        some pl' → pl'.control.state = .waitingForBlocks → StillAsks l pl pl' e := by
    intro st w err hne pl' hpl' hw
    rw [(keep_held hpl').1] at hw
    exact absurd hw hne
  have hsame : ∀ {st : State} {w : PeerLoader (Report × List OKCall)} {err : Option (Go.Err Sentinel)},
      st = pl.control.state → w.queue.map Item.requested = pl.queue.map Item.requested →
      ∀ pl', (Loader.keep ((settled st w err).map (PeerLoader.mapReport Prod.fst))).pl = some pl' →
        pl'.control.state = .waitingForBlocks → StillAsks l pl pl' e := by
    intro st w err hst hq pl' hpl' hw
    rw [(keep_held hpl').1] at hw
    refine .same e (hst.symm.trans hw) ?_
    rw [keep_queue hpl']
    exact hq
  obtain ⟨st, hst⟩ : ∃ st, st = pl.control.state := ⟨_, rfl⟩
  rw [← hst] at hx
  generalize hs : (l.view pl).mapReport (·, ([] : List OKCall)) = s at hx
  cases hx with
  | ignored st e s hi =>
    subst hs
    exact .silent rfl (hsame hst rfl)
  | started s d hd | restarted s d hd =>
    subst hs
    obtain ⟨-, -, hr⟩ := requestIDsFrom_world hd
    show Handled env l pl _ _ d.world.r.2
    rw [hr]
    refine .silent ?_ (hother (by simp))
    exact congrArg (fun r => r.1.prevDiff) hr
  | refused ids s hp err hskip =>
    obtain ⟨req, hreq⟩ := skipKnown_ok hskip
    cases hreq
  | requested ids s hp id req hskip =>
    subst hs
    refine .silent rfl fun pl' hpl' _ => .asked ids hp id req hst.symm hskip ?_
    rw [keep_queue hpl']
    rfl
  | known ids s hp r hskip hfin =>
    subst hs
    exact Finished.handled (.known ids hst.symm hskip) hfin
  | received b s hb =>
    subst hs
    exact .silent rfl (hsame hst (Queue.put_requested b pl.queue))
  | rejected b s hp err hready hput =>
    subst hs
    exact .silent rfl (hsame hst (Queue.put_requested b pl.queue))
  | loaded b s hp r hready hput hfin =>
    subst hs
    exact Finished.handled (.loaded b hst.symm hready hput) hfin
  | ticked st tm s hw hto =>
    subst hs
    exact .silent rfl (hsame hst rfl)
  | stuck st tm s hp err hw hto hput =>
    subst hs
    exact .silent rfl (hother (by simp))
  | gaveUp st tm s hp hw hto hput =>
    subst hs
    exact .silent (reportFail_prevDiff .done pl.peer _) (hother (by simp))

/-! ## One step -/

/-- An idle loader that is started, or one that waits for IDs, waits for IDs. -/
theorem fire_start {st : State} (hcontrol : pl.control = ⟨st, []⟩) (he : e = .start ∨ e = .restart)
    (hst : st = .idle ∨ st = .waitingForIDs) (h : l.fire env pl e = .ok (l', err)) :
    (∃ pl', l'.pl = some pl' ∧ pl'.control = ⟨.waitingForIDs, []⟩) ∧ l'.prevDiff = l.prevDiff ∧
      l'.linkage = l.linkage := by
  have hext : e.External := by rcases he with rfl | rfl <;> trivial
  obtain ⟨r, hr, rfl⟩ := fire_fires (by rw [hcontrol]) hext h
  rw [hcontrol] at hr
  generalize hs : l.view pl = s at hr
  cases hr with
  | ignored st e s hi =>
    subst hs
    rcases hst with rfl | rfl
    · rcases he with rfl | rfl <;> cases hi
    · exact ⟨⟨_, rfl, rfl⟩, rfl, rfl⟩
  | started s d hd | restarted s d hd =>
    subst hs
    obtain ⟨-, hhp, hr⟩ := requestIDsFrom_world hd
    refine ⟨?_, congrArg Report.prevDiff hr, hhp⟩
    have hheld : d.world.r.held = true := congrArg Report.held hr
    unfold Loader.keep settled
    exact ⟨_, if_pos hheld, rfl⟩
  | _ => rcases he with h | h <;> cases h

theorem sync_starts {byName : Peer → Peer → Bool} {conns : Go.MapRange Addr Conn} {srt : Go.UnstableSort Peer byName}
    {pick : Nat} (h4 : Peers.OnlyIPv4 l.registry) (h : l.sync env conns srt pick = .ok l') :
    l' = l ∨ l.pl = none ∧ (∃ pl', l'.pl = some pl' ∧ pl'.control = ⟨.waitingForIDs, []⟩) ∧
      l'.prevDiff = l.prevDiff ∧ l'.linkage = l.linkage := by
  cases hpl : l.pl with
  | some pl =>
    unfold Loader.sync at h
    rw [hpl] at h
    cases h
    exact .inl rfl
  | none =>
    rcases sync_chooses h4 h with rfl | ⟨p, sp, l2, -, -, -, h2, hnext⟩
    · exact .inl rfl
    · refine .inr ⟨rfl, ?_⟩
      obtain ⟨pl, err, hpl', hfire⟩ := continueSync_fires hnext
      rcases h2 with h2 | rfl
      · obtain ⟨pl1, err1, hpl1, hfire1⟩ := restartSync_fires h2
        cases hpl1
        obtain ⟨⟨pl2, hpl2, hcontrol⟩, hprev, hlinkage⟩ := fire_start rfl (.inr rfl) (.inl rfl) hfire1
        obtain rfl : pl2 = pl := Option.some.inj (hpl2.symm.trans hpl')
        obtain ⟨hwaits, hprev', hlinkage'⟩ := fire_start hcontrol (.inl rfl) (.inr rfl) hfire
        exact ⟨hwaits, hprev'.trans hprev, hlinkage'.trans hlinkage⟩
      · cases hpl'
        exact fire_start rfl (.inl rfl) (.inl rfl) hfire

end

section
variable {byName : Peer → Peer → Bool} {gw : Gowaves} {cmpMinor : Version → Version → Int} {l l' : Loader}
  {e : LoaderEvent byName}

theorem marks_of_passes {env : Env} {pl : Held} {ev : Event} (h : l.passes gw e = some (env, pl, ev)) :
    l.marks gw e l' = pl.told ev ++ (l.okCalled env pl ev).map .decided := by
  unfold Loader.marks
  rw [h]

theorem marks_of_same (h : l.passes gw e = none) (hpl : l'.pl = l.pl) : l.marks gw e l' = [] := by
  unfold Loader.marks
  rw [h, hpl]
  cases l.pl <;> rfl

theorem marks_of_started {pl : Held} (h : l.passes gw e = none) (hpl : l.pl = none) (hpl' : l'.pl = some pl) :
    l.marks gw e l' = [.started] := by
  unfold Loader.marks
  rw [h, hpl, hpl']
  rfl

/-- **What a step of the loader can be**, and what it adds to the log. -/
inductive Stepped (gw : Gowaves) (l : Loader) (e : LoaderEvent byName) (l' : Loader) : Prop where
  | fired (env : Env) (pl : Held) (ev : Event) (err : Option (Go.Err Sentinel)) :
      l.marks gw e l' = pl.told ev ++ (l.okCalled env pl ev).map .decided → l.pl = some pl → env.gw = gw →
      ev.External → (∀ ids, ev = .ids ids → ids ≠ []) → l.fire env pl ev = .ok (l', err) → Stepped gw l e l'
  | started (pl' : Held) : l.marks gw e l' = [.started] → l.pl = none → l'.pl = some pl' →
      pl'.control = ⟨.waitingForIDs, []⟩ → l'.prevDiff = l.prevDiff → l'.linkage = l.linkage → Stepped gw l e l'
  | called : l.marks gw e l' = [] → l'.pl = l.pl → l'.prevDiff = l.prevDiff →
      (l'.linkage = l.linkage ∨ ∃ c, l.linkage.call gw c = .ok l'.linkage) → Stepped gw l e l'

theorem step_stepped (h4 : Peers.OnlyIPv4 l.registry) (h : LoaderStep gw cmpMinor l e l') : Stepped gw l e l' := by
  cases e with
  | sync now rng conns srt pick =>
    rcases sync_starts h4 h with rfl | ⟨hpl, ⟨pl', hpl', hcontrol⟩, hprev, hlinkage⟩
    · exact .called (marks_of_same rfl rfl) rfl rfl (.inl rfl)
    · exact .started pl' (marks_of_started rfl hpl hpl') hpl hpl' hcontrol hprev hlinkage
  | tick now =>
    rcases tick_fires h with ⟨hpl, rfl⟩ | ⟨pl, err, hpl, hr⟩
    · exact .called (marks_of_same (by simp [Loader.passes, hpl]) rfl) rfl rfl (.inl rfl)
    · exact .fired (.at gw now) pl (.tick now) err (marks_of_passes (by simp [Loader.passes, hpl])) hpl rfl trivial
        (fun _ h => nomatch h) hr
  | ids now peer ids =>
    change l.handleIDs (.at gw now) peer ids = .ok l' at h
    unfold Loader.handleIDs at h
    split at h
    · rename_i hpl
      cases h
      exact .called (marks_of_same (by simp [Loader.passes, hpl]) rfl) rfl rfl (.inl rfl)
    · rename_i pl hpl
      split at h
      · rename_i hids
        cases h
        exact .called (marks_of_same (by simp [Loader.passes, hpl, hids]) rfl) rfl rfl (.inl rfl)
      · rename_i hids
        split at h
        · rename_i hpeer
          cases h
          exact .called (marks_of_same (by simp [Loader.passes, hpl, hids, hpeer]) rfl) rfl rfl (.inl rfl)
        · rename_i hpeer
          obtain ⟨r, hr, h⟩ := Go.bind_eq_ok.1 h
          cases h
          refine .fired (.at gw now) pl (.ids ids) r.2 (marks_of_passes (by simp [Loader.passes, hpl, hids, hpeer])) hpl
            rfl trivial (fun _ he => ?_) hr
          cases he
          exact hids
  | block now peer block =>
    change l.handleBlock (.at gw now) peer block = .ok l' at h
    unfold Loader.handleBlock at h
    split at h
    · rename_i hpl
      cases h
      exact .called (marks_of_same (by simp [Loader.passes, hpl]) rfl) rfl rfl (.inl rfl)
    · rename_i pl hpl
      split at h
      · rename_i hpeer
        cases h
        exact .called (marks_of_same (by simp [Loader.passes, hpl, hpeer]) rfl) rfl rfl (.inl rfl)
      · rename_i hpeer
        obtain ⟨r, hr, h⟩ := Go.bind_eq_ok.1 h
        cases h
        exact .fired (.at gw now) pl (.block block) r.2 (marks_of_passes (by simp [Loader.passes, hpl, hpeer])) hpl rfl
          trivial (fun _ h => nomatch h) hr
  | linkage c =>
    obtain ⟨hp, hc, h⟩ := Go.bind_eq_ok.1 h
    cases h
    exact .called (marks_of_same rfl rfl) rfl rfl (.inr ⟨c, hc⟩)
  | registry op =>
    obtain ⟨registry, -, h⟩ := Go.bind_eq_ok.1 h
    cases h
    exact .called (marks_of_same rfl rfl) rfl rfl (.inl rfl)

/-- **What every call on the linkage keeps, every step keeps.** -/
theorem Stepped.keeps {Q : Linkage → Prop} (hQ : KeptByCalls gw Q)
    (hpend : ∀ pl, l.pl = some pl → pl.control.pending = []) (h : Stepped gw l e l') (hq : Q l.linkage) :
    Q l'.linkage := by
  cases h with
  | fired env pl ev err _ hpl hgw hext _ hfire =>
    obtain ⟨r, hr, rfl⟩ := fire_fires (hpend pl hpl) hext hfire
    exact hr.keeps hgw hQ hq
  | started _ _ _ _ _ _ hlinkage =>
    rw [hlinkage]
    exact hq
  | called _ _ _ hlinkage =>
    rcases hlinkage with hlinkage | ⟨c, hc⟩
    · rw [hlinkage]
      exact hq
    · exact hQ _ c _ hq hc

/-- **A property of the log and the loader that every step keeps** holds at the end of every run. -/
theorem run_log {P : List Mark → Loader → Prop} {scheme : Proto.Scheme} {genesis : Proto.Block}
    {t : Chains.BlockTree BlockID} {registry : Registry} {linkage : Linkage}
    {tr : List (Link Loader (LoaderEvent byName))} (hl : Reachable gw scheme genesis linkage t)
    (hr : Peers.Reachable cmpMinor registry) (h0 : P [] (newLoader registry linkage))
    (hstep : ∀ (h : List Mark) (l : Loader) (e : LoaderEvent byName) (l' : Loader),
      (∃ t, Reachable gw scheme genesis l.linkage t) → l.Scores → Stepped gw l e l' → P h l →
      P (h ++ l.marks gw e l') l')
    (h : Path (LoaderStep gw cmpMinor) (newLoader registry linkage) tr l') : P (log gw tr) l' := by
  refine (Path.history (P := fun tr l => P (log gw tr) l ∧ (∃ t', Reachable gw scheme genesis l.linkage t') ∧
    l.Scores) (fun tr l e l' hinv hs => ?_) ⟨h0, ⟨t, hl⟩, hr.onlyIPv4, fun pl hpl => nomatch hpl⟩ h).1
  obtain ⟨hP, hlink, hscores⟩ := hinv
  have hst := step_stepped hscores.onlyIPv4 hs
  rw [log_concat]
  exact ⟨hstep _ l e l' hlink hscores hst hP, hst.keeps reachable_keptByCalls (fun pl hpl => (hscores.held pl hpl).1)
    hlink, step_scores hs hscores⟩

end

/-! ## Logs of sample runs -/

namespace Sample
open Chains.Sample (gowaves)
open Peers.Sample (addr registry registry_new cmpMinor)

theorem registry_reachable : Peers.Reachable cmpMinor registry := .fresh registry_new

/-- What a mark of a sample log says. -/
inductive Shown where
  | started
  | told (ids : List BlockID)
  | decided (broadcast leash : Option Int) (again : Bool)
deriving DecidableEq

def shown : Mark → Shown
  | .started => .started
  | .told ids => .told ids
  | .decided c => .decided c.broadcast c.leash c.again

theorem eq_started {m : Mark} (h : shown m = .started) : m = .started := by
  cases m with
  | started => rfl
  | _ => cases h

theorem eq_told {m : Mark} {ids : List BlockID} (h : shown m = .told ids) : m = .told ids := by
  cases m with
  | told => cases h; rfl
  | _ => cases h

theorem eq_decided {m : Mark} {b s : Option Int} {again : Bool} (h : shown m = .decided b s again) :
    ∃ c, m = .decided c ∧ c.broadcast = b ∧ c.leash = s ∧ c.again = again := by
  cases m with
  | decided c => cases h; exact ⟨c, rfl, rfl, rfl, rfl⟩
  | _ => cases h

def logOf (hp : Linkage) (es : List (LoaderEvent anyName)) : List Mark :=
  log gowaves (Run.links (Loader.apply gowaves cmpMinor) (newLoader registry hp) es)

theorem exists_log {hp : Linkage} {e : List (LoaderEvent anyName)} {v : List Shown}
    (hhp : Chains.Sample.after [] = .ok hp) (h : (Chains.Sample.after [] >>= fun hp => load hp e).isOk = true)
    (hv : (Chains.Sample.after [] >>= fun hp => .ok ((logOf hp e).map shown)) = .ok v) :
    ∃ tr l', Path (LoaderStep gowaves cmpMinor) (newLoader registry hp) tr l' ∧ tr.map Link.input = e ∧
      (log gowaves tr).map shown = v := by
  obtain ⟨l', hl⟩ := exists_load e hhp h
  rw [hhp] at hv
  obtain ⟨hpath, hin⟩ := Path.of_links hl
  exact ⟨_, l', hpath, hin, Except.ok.inj hv⟩

/-- A peer connects and tells a high score. -/
def connect : List (LoaderEvent anyName) :=
  [.registry (.suggestVersion 0 addr), .registry (.registerPeer 0 addr (Peers.Sample.conn 0 Peers.Sample.waves)
    Peers.Sample.waves), .registry (.updatePeerScore addr 1000000000000000000000)]

/-- Two sessions with the peer: the first one continues and times out. -/
def twoSessions (between : List (LoaderEvent anyName)) : List (LoaderEvent anyName) :=
  connect ++ [choose, offered [1], ticked] ++ between ++ [choose, offered [1]]

/-- Two rounds with the peer, over a linkage that knows the blocks 1 and 2. -/
def twoRounds (ns ms : List UInt8) : List (LoaderEvent anyName) :=
  .linkage (Chains.Sample.key 2 1) :: connect ++ [choose, offered ns, offered ms]

end Sample

end Loading
end ForkDetector
