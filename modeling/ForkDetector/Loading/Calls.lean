import ForkDetector.Lib.Client
import ForkDetector.Loading.Loader
/-!
# Calls — the loader, one call after the other

The mutexes of the linkage and of the registry are held for one call each, so that the distributor and the others may
call both while the loader handles an event.  Here the handlers of `loading/loader.go` and `loading/peer_loader.go` are
clients of the two stores.  Alone with them they are the handlers that `Loader.apply` has as single steps
(`apply_alone`).
-/
namespace ForkDetector
namespace Loading

open Proto (BlockID Gowaves Version Conn)
open Chains (Linkage)
open Peers (Registry Peer)
open Machine (Control Ran Ended)
open Client (Site Act)

/-! ## The calls -/

/-- What the loader shares with the other components. -/
structure Shared where
  registry : Registry
  linkage : Linkage

inductive LoaderCall (byName : Peer → Peer → Bool) where
  | connections (conns : Go.MapRange Addr Conn) (srt : Go.UnstableSort Peer byName)
  | peer (addr : Addr)
  | leashScore (peer : Addr)
  | hasBlock (id : BlockID)
  | leash (peer : Addr)
  | moveLeash (id : BlockID) (peer : Addr)
  | putBlock (block : Proto.Block) (peer : Addr)
  | lastIDs (id : BlockID) (count : Nat)
  | lcb (rng : Go.MapRange BlockID (List Addr)) (peer : Addr)

abbrev Answer (α : Type) := Except (Go.Err Sentinel) α

@[reducible] def LoaderCall.Answer {byName : Peer → Peer → Bool} : LoaderCall byName → Type
  | .connections .. => Loading.Answer (List Peer)
  | .peer _ => Loading.Answer Peer
  | .leashScore _ => Loading.Answer Int
  | .hasBlock _ => Loading.Answer Bool
  | .leash _ => Loading.Answer BlockID
  | .moveLeash .. => Unit
  | .putBlock .. => Loading.Answer Unit
  | .lastIDs .. => Loading.Answer (List BlockID)
  | .lcb .. => Loading.Answer BlockID

/-- A call that reads. -/
def Shared.read {α : Type} (o : Shared) (x : Res α) : Res (Answer α × Shared) := (Go.attempt x).map fun a => (a, o)

/-- `PutBlock`, which changes nothing when it returns an error. -/
def Shared.put (gw : Gowaves) (o : Shared) (block : Proto.Block) (peer : Addr) : Res (Answer Unit × Shared) :=
  match o.linkage.putBlock gw block peer with
  | .error (.panic msg) => Go.panic msg
  | .error (.err e) => .ok (.error e, o)
  | .ok linkage => .ok (.ok (), { o with linkage := linkage })

def serve (gw : Gowaves) {byName : Peer → Peer → Bool} : (c : LoaderCall byName) → Shared → Res (c.Answer × Shared)
  | .connections conns srt, o => o.read (o.registry.listConnections conns srt)
  | .peer addr, o => o.read (o.registry.storage.peer addr)
  | .leashScore peer, o => o.read (o.linkage.leashScore peer)
  | .hasBlock id, o => o.read (o.linkage.hasBlock id)
  | .leash peer, o => o.read (o.linkage.leash peer)
  | .moveLeash id peer, o => .ok ((), { o with linkage := o.linkage.moveLeash id peer })
  | .putBlock block peer, o => o.put gw block peer
  | .lastIDs id count, o => o.read (o.linkage.lastIDs id count)
  | .lcb rng peer, o => o.read (o.linkage.lcb gw rng peer)

abbrev Calling (byName : Peer → Peer → Bool) := Client String (LoaderCall byName) LoaderCall.Answer

def invoke {byName : Peer → Peer → Bool} (c : LoaderCall byName) : Calling byName c.Answer := Client.ask c

/-! ## The loader of a peer -/

/-- `peerLoader`, less what it shares. -/
structure PeerClient (ρ : Type) where
  peer : Addr
  r : ρ
  timestamp : Option Int
  queue : Queue
  sent : List Request

structure ClientReporter (byName : Peer → Peer → Bool) (ρ : Type) where
  OK : State → Addr → ρ → Calling byName (ρ × Bool)
  Fail : State → Addr → ρ → ρ

abbrev Left (ρ : Type) := Ran (PeerClient ρ) Event (Go.Err Sentinel)

namespace PeerClient
variable {byName : Peer → Peer → Bool} {ρ : Type}

def skipKnown (peer : Addr) : List BlockID → Calling byName (Answer (List BlockID))
  | [] => .done (.ok [])
  | id :: ids => do
    match ← invoke (.hasBlock id) with
    | .error e => .done (.error (.wrap "failed to request blocks from '%s'" e))
    | .ok false => .done (.ok (id :: ids))
    | .ok true =>
      match ← invoke (.leash peer) with
      | .error e => .done (.error (.wrap "failed to request blocks form '%s'" e))
      | .ok leash =>
        if id ≠ leash then do
          let _ ← invoke (.moveLeash id peer)
          skipKnown peer ids
        else skipKnown peer ids

def putBlocks (peer : Addr) : List Proto.Block → Calling byName (Option (Go.Err Sentinel))
  | [] => .done none
  | b :: bs => do
    match ← invoke (.putBlock b peer) with
    | .error e => .done (some e)
    | .ok () => putBlocks peer bs

def onTick (s : PeerClient ρ) (tm : Int) : Left ρ := ⟨s, if timedOut s.timestamp tm then [.timeout] else [], none⟩

def requestIDsFrom (env : Env) (s : PeerClient ρ) (block : Calling byName (Answer BlockID)) :
    Calling byName (Left ρ) := do
  match ← block with
  | .error e => .done ⟨s, [], some (.wrap "failed to request IDs from '%s'" e)⟩
  | .ok id =>
    match ← invoke (.lastIDs id idsBatchSize) with
    | .error e => .done ⟨s, [], some (.wrap "failed to request IDs from '%s'" e)⟩
    | .ok lastIDs => .done ⟨{ s with sent := s.sent ++ [.blockIDs lastIDs], timestamp := some env.now }, [], none⟩

def requestIDs (env : Env) (s : PeerClient ρ) : Calling byName (Left ρ) := s.requestIDsFrom env (invoke (.leash s.peer))

def requestIDsFromLCA (env : Env) (s : PeerClient ρ) : Calling byName (Left ρ) :=
  s.requestIDsFrom env (invoke (.lcb env.rng s.peer))

def requestBlocks (env : Env) (s : PeerClient ρ) (ids : List BlockID) : Calling byName (Left ρ) := do
  match ← skipKnown s.peer ids with
  | .error e => .done ⟨s, [], some e⟩
  | .ok [] => .done ⟨s, [.queueReady], none⟩
  | .ok (id :: req) => .done ⟨{ s with
      queue := newQueue (id :: req), sent := s.sent ++ (id :: req).map .block, timestamp := some env.now }, [], none⟩

def appendBlock (s : PeerClient ρ) (block : Option Proto.Block) : Calling byName (Left ρ) :=
  let queue := s.queue.put block
  if queue.ready then do
    match ← putBlocks s.peer queue.blocks with
    | some e => .done ⟨{ s with queue := queue }, [], some (.wrap "failed to append block '%s' for peer '%s'" e)⟩
    | none => .done ⟨{ s with queue := queue }, [.queueReady], none⟩
  else .done ⟨{ s with queue := queue }, [], none⟩

def handleFailure (rep : ClientReporter byName ρ) (st : State) (s : PeerClient ρ) : Calling byName (Left ρ) := do
  match ← putBlocks s.peer s.queue.received with
  | some e => .done ⟨s, [], some e⟩
  | none => .done ⟨{ s with r := rep.Fail st s.peer s.r }, [], none⟩

def reportOK (rep : ClientReporter byName ρ) (st : State) (s : PeerClient ρ) : Calling byName (Left ρ) := do
  let (r, again) ← rep.OK st s.peer s.r
  .done ⟨{ s with r := r }, if again then [.start] else [], none⟩

def perform (env : Env) (rep : ClientReporter byName ρ) :
    Action → State → Event → PeerClient ρ → Calling byName (Left ρ)
  | .onTick, _, .tick tm, s => .done (s.onTick tm)
  | .requestIDs, _, _, s => s.requestIDs env
  | .requestIDsFromLCA, _, _, s => s.requestIDsFromLCA env
  | .requestBlocks, _, .ids ids, s => s.requestBlocks env ids
  | .appendBlock, _, .block block, s => s.appendBlock block
  | .handleFailure, st, _, s => s.handleFailure rep st
  | .reportOK, st, _, s => s.reportOK rep st
  | _, _, _, s => .done ⟨s, [], some (.text "invalid argument type")⟩

def fire (env : Env) (rep : ClientReporter byName ρ) (m : Control State Event) (e : Event) (s : PeerClient ρ) :
    Calling byName (Option (Ended State Event (PeerClient ρ) (Go.Err Sentinel))) :=
  Machine.fire config (perform env rep) PeerLoader.unhandled 3 m e s

end PeerClient

/-! ## The loader -/

/-- `Loader`, less what it shares. -/
structure Own where
  pl : Option Held
  prevDiff : Option Int
  fc : FailureCounter

/-- What a report reads and writes of it. -/
structure OwnReport where
  held : Bool
  prevDiff : Option Int
  fc : FailureCounter

def clientOK {byName : Peer → Peer → Bool} (st : State) (peer : Addr) (l : OwnReport) :
    Calling byName (OwnReport × Bool) :=
  if l.held && decide (st = .idle) then do
    let l := { l with fc := l.fc.reset peer }
    match ← invoke (.peer peer) with
    | .error _ => .done (l, false)
    | .ok p =>
      match ← invoke (.leashScore peer) with
      | .error _ => .done (l, false)
      | .ok score =>
        match p.score with
        | none => .fault "invalid memory address or nil pointer dereference"
        | some peerScore =>
          match isLagging l.prevDiff peerScore score with
          | (diff, true) => .done ({ l with prevDiff := some diff }, true)
          | (_, false) => .done ({ l with held := false, prevDiff := none }, false)
  else .done (l, false)

def clientFail (st : State) (peer : Addr) (l : OwnReport) : OwnReport :=
  if l.held && decide (st = .done) then { l with fc := l.fc.inc peer, held := false } else l

def clientReporter (byName : Peer → Peer → Bool) : ClientReporter byName OwnReport := ⟨clientOK, clientFail⟩

namespace Own
variable {byName : Peer → Peer → Bool}

def view (l : Own) (pl : Held) : PeerClient OwnReport :=
  ⟨pl.peer, ⟨true, l.prevDiff, l.fc⟩, pl.timestamp, pl.queue, pl.sent⟩

def keep (r : Ended State Event (PeerClient OwnReport) (Go.Err Sentinel)) : Own where
  pl := if r.world.r.held then some ⟨r.control, r.world.peer, r.world.timestamp, r.world.queue, r.world.sent⟩ else none
  prevDiff := r.world.r.prevDiff
  fc := r.world.r.fc

def fire (env : Env) (l : Own) (pl : Held) (e : Event) : Calling byName (Own × Option (Go.Err Sentinel)) := do
  match ← PeerClient.fire env (clientReporter byName) pl.control e (l.view pl) with
  | some r => .done (keep r, r.err)
  | none => .fault "too many triggers"

def warn : Own × Option (Go.Err Sentinel) → Calling byName Own
  | (l, none) => .done l
  | (l, some _) =>
    match l.pl with
    | none => .fault "invalid memory address or nil pointer dereference"
    | some _ => .done l

def continueSync (env : Env) (l : Own) : Calling byName Own :=
  match l.pl with
  | none => .fault "invalid memory address or nil pointer dereference"
  | some pl => do
    let r ← l.fire env pl .start
    warn r

def restartSync (env : Env) (l : Own) : Calling byName Own :=
  match l.pl with
  | none => .fault "invalid memory address or nil pointer dereference"
  | some pl => do
    let r ← fire env { l with fc := l.fc.reset pl.peer } pl .restart
    warn r

def lagging : List Peer → Calling byName (List Peer)
  | [] => .done []
  | cp :: cps =>
    match cp.score with
    | none => lagging cps
    | some peerScore => do
      match ← invoke (.leashScore cp.addr) with
      | .error _ => lagging cps
      | .ok score => do
        let rest ← lagging cps
        .done (if peerScore > score then cp :: rest else rest)

def sync (env : Env) (conns : Go.MapRange Addr Conn) (srt : Go.UnstableSort Peer byName) (pick : Nat) (l : Own) :
    Calling byName Own :=
  match l.pl with
  | some _ => .done l
  | none => do
    match ← invoke (.connections conns srt) with
    | .error _ => .done l
    | .ok connections => do
      let lagging ← lagging connections
      match lagging[pick % lagging.length]? with
      | none => .done l
      | some p => do
        let l := { l with pl := some ⟨⟨.idle, []⟩, p.addr, none, [], []⟩ }
        let l ← (if l.fc.count p.addr ≥ restartThreshold then l.restartSync env else .done l : Calling byName Own)
        l.continueSync env

def tick (env : Env) (l : Own) : Calling byName Own :=
  match l.pl with
  | none => .done l
  | some pl => do
    let r ← l.fire env pl (.tick env.now)
    warn r

def handleIDs (env : Env) (l : Own) (peer : Addr) (ids : List BlockID) : Calling byName Own :=
  match l.pl with
  | none => .done l
  | some pl =>
    if ids = [] then .done l
    else if peer ≠ pl.peer then .done l
    else do
      let r ← l.fire env pl (.ids ids)
      .done r.1

def handleBlock (env : Env) (l : Own) (peer : Addr) (block : Option Proto.Block) : Calling byName Own :=
  match l.pl with
  | none => .done l
  | some pl =>
    if peer ≠ pl.peer then .done l
    else do
      let r ← l.fire env pl (.block block)
      .done r.1

end Own

/-! ## Alone with the stores -/

section
variable {byName : Peer → Peer → Bool} {gw : Gowaves} {ρ ρ' : Type}

theorem alone_invoke {α : Type} (c : LoaderCall byName) (f : c.Answer → Calling byName α) (o : Shared) :
    (invoke c >>= f).alone .panic (serve gw) o = serve gw c o >>= fun x => (f x.1).alone .panic (serve gw) x.2 := rfl

/-- The loader of a peer, with what it shares. -/
def PeerClient.join (f : Registry → ρ → ρ') (o : Shared) (s : PeerClient ρ) : PeerLoader ρ' :=
  ⟨s.peer, o.linkage, f o.registry s.r, s.timestamp, s.queue, s.sent⟩

/-- A reporter that makes calls, and one that does the same in one step. -/
structure Agrees (gw : Gowaves) (f : Registry → ρ → ρ') (rep : Reporter ρ') (rep' : ClientReporter byName ρ) :
    Prop where
  OK : ∀ st peer (o : Shared) r, (rep.OK st peer o.linkage (f o.registry r)).map (fun x => (x, o)) =
    ((rep'.OK st peer r).alone .panic (serve gw) o).map fun x => ((f x.2.registry x.1.1, x.1.2), x.2)
  Fail : ∀ st peer registry r, rep.Fail st peer (f registry r) = f registry (rep'.Fail st peer r)

namespace PeerClient

theorem skipKnown_alone (peer : Addr) : ∀ (ids : List BlockID) (o : Shared),
    (skipKnown peer ids : Calling byName _).alone .panic (serve gw) o =
      (Loading.skipKnown peer o.linkage ids).map fun x => (x.2, { o with linkage := x.1 })
  | [], o => rfl
  | id :: ids, o => by
    unfold skipKnown Loading.skipKnown
    rw [alone_invoke]
    change (o.read (o.linkage.hasBlock id) >>= _) = _
    cases o.linkage.hasBlock id with
    | error g => cases g <;> rfl
    | ok has =>
      cases has with
      | false => rfl
      | true =>
        change (o.read (o.linkage.leash peer) >>= _) = _
        cases o.linkage.leash peer with
        | error g => cases g <;> rfl
        | ok leash =>
          change Client.alone .panic (serve gw) (if id ≠ leash then _ else _) o =
            (Loading.skipKnown peer (if id ≠ leash then _ else _) ids).map _
          split
          · exact skipKnown_alone peer ids { o with linkage := o.linkage.moveLeash id peer }
          · exact skipKnown_alone peer ids o

theorem putBlocks_alone (peer : Addr) : ∀ (bs : List Proto.Block) (o : Shared),
    (putBlocks peer bs : Calling byName _).alone .panic (serve gw) o =
      (Loading.putBlocks gw peer o.linkage bs).map fun x => (x.2, { o with linkage := x.1 })
  | [], o => rfl
  | b :: bs, o => by
    unfold putBlocks Loading.putBlocks
    rw [alone_invoke]
    change (o.put gw b peer >>= _) = _
    unfold Shared.put
    cases o.linkage.putBlock gw b peer with
    | error g => cases g <;> rfl
    | ok hp => exact putBlocks_alone peer bs { o with linkage := hp }

section
variable {env : Env} {f : Registry → ρ → ρ'} {rep : Reporter ρ'} {rep' : ClientReporter byName ρ}

theorem requestIDsFrom_alone (s : PeerClient ρ) (o : Shared) {block : Calling byName (Answer BlockID)}
    {id : Res BlockID} (hblock : block.alone .panic (serve gw) o = o.read id) : (s.join f o).requestIDsFrom env id =
      ((s.requestIDsFrom env block).alone .panic (serve gw) o).map fun r => r.1.map (join f r.2) := by
  unfold PeerLoader.requestIDsFrom requestIDsFrom
  rw [Client.alone_bind, hblock]
  cases id with
  | error g => cases g <;> rfl
  | ok id =>
    change (Go.attempt (o.linkage.lastIDs id idsBatchSize) >>= _) =
      Except.map _ (o.read (o.linkage.lastIDs id idsBatchSize) >>= _)
    cases o.linkage.lastIDs id idsBatchSize with
    | error g => cases g <;> rfl
    | ok ids => rfl

theorem requestBlocks_alone (s : PeerClient ρ) (o : Shared) (ids : List BlockID) :
    (s.join f o).requestBlocks env ids =
      ((s.requestBlocks env ids : Calling byName _).alone .panic (serve gw) o).map fun r => r.1.map (join f r.2) := by
  unfold PeerLoader.requestBlocks requestBlocks
  rw [Client.alone_bind, skipKnown_alone]
  change (Loading.skipKnown s.peer o.linkage ids >>= _) = _
  cases Loading.skipKnown s.peer o.linkage ids with
  | error g => rfl
  | ok x => obtain ⟨hp, e | _ | ⟨id, req⟩⟩ := x <;> rfl

theorem appendBlock_alone (s : PeerClient ρ) (o : Shared) (block : Option Proto.Block) :
    (s.join f o).appendBlock env block =
      ((s.appendBlock block : Calling byName _).alone .panic (serve env.gw) o).map fun r => r.1.map (join f r.2) := by
  unfold PeerLoader.appendBlock appendBlock
  change (if (s.queue.put block).ready = true then
    (Loading.putBlocks env.gw s.peer o.linkage (s.queue.put block).blocks >>= _) else _) =
      (Client.alone .panic (serve env.gw) (if (s.queue.put block).ready = true then _ else _) o).map _
  split
  · rw [Client.alone_bind, putBlocks_alone]
    cases Loading.putBlocks env.gw s.peer o.linkage (s.queue.put block).blocks with
    | error g => rfl
    | ok x => obtain ⟨hp, _ | e⟩ := x <;> rfl
  · rfl

theorem handleFailure_alone (hrep : Agrees gw f rep rep') (st : State) (s : PeerClient ρ) (o : Shared) :
    (s.join f o).handleFailure env rep st =
      ((s.handleFailure rep' st).alone .panic (serve env.gw) o).map fun r => r.1.map (join f r.2) := by
  unfold PeerLoader.handleFailure handleFailure
  rw [Client.alone_bind, putBlocks_alone]
  change (Loading.putBlocks env.gw s.peer o.linkage s.queue.received >>= _) = _
  cases Loading.putBlocks env.gw s.peer o.linkage s.queue.received with
  | error g => rfl
  | ok x =>
    obtain ⟨hp, _ | e⟩ := x
    · change Except.ok (⟨⟨s.peer, hp, rep.Fail st s.peer (f o.registry s.r), s.timestamp, s.queue, s.sent⟩, [], none⟩ :
        Done ρ') = _
      rw [hrep.Fail]
      rfl
    · rfl

theorem reportOK_alone (hrep : Agrees gw f rep rep') (st : State) (s : PeerClient ρ) (o : Shared) :
    (s.join f o).reportOK rep st =
      ((s.reportOK rep' st).alone .panic (serve gw) o).map fun r => r.1.map (join f r.2) := by
  unfold PeerLoader.reportOK reportOK
  rw [Client.alone_bind]
  have hOK := hrep.OK st s.peer o s.r
  change (rep.OK st s.peer o.linkage (f o.registry s.r) >>= _) = _
  cases hr : rep.OK st s.peer o.linkage (f o.registry s.r) with
  | error g =>
    rw [hr] at hOK
    cases hx : (rep'.OK st s.peer s.r).alone .panic (serve gw) o with
    | error g' =>
      rw [hx] at hOK
      cases hOK
      rfl
    | ok x =>
      rw [hx] at hOK
      cases hOK
  | ok r =>
    rw [hr] at hOK
    cases hx : (rep'.OK st s.peer s.r).alone .panic (serve gw) o with
    | error g' =>
      rw [hx] at hOK
      cases hOK
    | ok x =>
      rw [hx] at hOK
      obtain ⟨rfl, rfl⟩ := Prod.mk.inj (Except.ok.inj hOK)
      rfl

/-- **An action alone with the stores** is the action in one step. -/
theorem perform_alone (hrep : Agrees env.gw f rep rep') (a : Action) (st : State) (e : Event) (s : PeerClient ρ)
    (o : Shared) : PeerLoader.perform env rep a st e (s.join f o) =
      ((perform env rep' a st e s).alone .panic (serve env.gw) o).map fun r => r.1.map (join f r.2) := by
  cases a with
  | onTick => cases e <;> rfl
  | requestIDs => exact requestIDsFrom_alone s o (Client.alone_ask _ _ _ _)
  | requestIDsFromLCA => exact requestIDsFrom_alone s o (Client.alone_ask _ _ _ _)
  | requestBlocks =>
    cases e with
    | ids ids => exact requestBlocks_alone s o ids
    | _ => rfl
  | appendBlock =>
    cases e with
    | block block => exact appendBlock_alone s o block
    | _ => rfl
  | handleFailure => exact handleFailure_alone hrep st s o
  | reportOK => exact reportOK_alone hrep st s o

theorem fire_alone (hrep : Agrees env.gw f rep rep') (m : Control State Event) (e : Event) (s : PeerClient ρ)
    (o : Shared) : PeerLoader.fire env rep m e (s.join f o) =
      ((fire env rep' m e s).alone .panic (serve env.gw) o).map fun r => r.1.map (Ended.map (join f r.2)) :=
  Client.drain_alone (perform_alone hrep) 3 _ s o

end

end PeerClient

def OwnReport.join (registry : Registry) (r : OwnReport) : Report := ⟨r.held, r.prevDiff, r.fc, registry⟩

theorem reportOK_alone (st : State) (peer : Addr) (o : Shared) (r : OwnReport) :
    (reportOK st peer o.linkage (r.join o.registry)).map (fun x => (x, o)) =
      ((clientOK st peer r : Calling byName _).alone .panic (serve gw) o).map
        fun x => ((x.1.1.join x.2.registry, x.1.2), x.2) := by
  unfold reportOK clientOK OwnReport.join
  cases r.held && decide (st = .idle) with
  | false =>
    simp only [Bool.false_eq_true, if_false]
    rfl
  | true =>
    simp only [if_true]
    change _ = Except.map _ (o.read (o.registry.storage.peer peer) >>= _)
    cases o.registry.storage.peer peer with
    | error g => cases g <;> rfl
    | ok p =>
      change _ = Except.map _ (o.read (o.linkage.leashScore peer) >>= _)
      cases o.linkage.leashScore peer with
      | error g => cases g <;> rfl
      | ok score =>
        change Except.map _ (match p.score with | none => _ | some peerScore => _) =
          Except.map _ (Client.alone .panic (serve gw) (match p.score with | none => _ | some peerScore => _) o)
        cases p.score with
        | none => rfl
        | some peerScore =>
          dsimp only
          obtain ⟨diff, again⟩ := isLagging r.prevDiff peerScore score
          cases again <;> rfl

theorem agrees_client (gw : Gowaves) (byName : Peer → Peer → Bool) :
    Agrees gw OwnReport.join reporter (clientReporter byName) where
  OK := reportOK_alone
  Fail st peer registry r := by
    change reportFail st peer (r.join registry) = (clientFail st peer r).join registry
    unfold reportFail clientFail OwnReport.join
    cases r.held && decide (st = .done) <;> rfl

namespace Own

/-- The loader, with what it shares. -/
def join (l : Own) (o : Shared) : Loader := ⟨l.pl, l.prevDiff, l.fc, o.registry, o.linkage⟩

section
variable {env : Env} (l : Own) (o : Shared)

/-- What a handler of the loader does alone with the stores. -/
def after (gw : Gowaves) (x : Calling byName Own) (o : Shared) : Res Loader :=
  (x.alone .panic (serve gw) o).map fun r => r.1.join r.2

theorem fire_alone (pl : Held) (e : Event) : (l.join o).fire env pl e =
    ((l.fire env pl e : Calling byName _).alone .panic (serve env.gw) o).map fun r => (r.1.1.join r.2, r.1.2) := by
  unfold Loader.fire fire
  rw [Client.alone_bind]
  have hfire := PeerClient.fire_alone (agrees_client env.gw byName) pl.control e (l.view pl) o
  change (PeerLoader.fire env reporter pl.control e ((l.view pl).join OwnReport.join o) >>= _) = _
  rw [hfire]
  cases (PeerClient.fire env (clientReporter byName) pl.control e (l.view pl)).alone .panic (serve env.gw) o with
  | error g => rfl
  | ok x =>
    obtain ⟨_ | r, o'⟩ := x
    · rfl
    · rfl

theorem warn_alone (err : Option (Go.Err Sentinel)) : Loader.warn (l.join o, err) =
    after gw (warn (l, err) : Calling byName _) o := by
  obtain ⟨pl, prevDiff, fc⟩ := l
  cases err <;> cases pl <;> rfl

theorem after_bind {α : Type} (x : Calling byName α) (g : α → Calling byName Own) (o : Shared) :
    after gw (x >>= g) o = x.alone .panic (serve gw) o >>= fun r => after gw (g r.1) r.2 := by
  unfold after
  rw [Client.alone_bind]
  cases x.alone .panic (serve gw) o <;> rfl

theorem after_invoke (c : LoaderCall byName) (g : c.Answer → Calling byName Own) (o : Shared) :
    after gw (invoke c >>= g) o = serve gw c o >>= fun r => after gw (g r.1) r.2 := by
  unfold after
  rw [alone_invoke]
  cases serve gw c o <;> rfl

theorem fire_after (pl : Held) (e : Event) (next : Own × Option (Go.Err Sentinel) → Calling byName Own)
    (next' : Loader × Option (Go.Err Sentinel) → Res Loader)
    (hnext : ∀ l err o, next' (l.join o, err) = after env.gw (next (l, err)) o) :
    (l.join o).fire env pl e >>= next' = after env.gw (l.fire env pl e >>= next) o := by
  rw [fire_alone, after_bind]
  cases (l.fire env pl e : Calling byName _).alone .panic (serve env.gw) o with
  | error g => rfl
  | ok x => exact hnext _ _ _

omit l in
/-- One handler after another. -/
theorem bind_after {x : Res Loader} {y : Calling byName Own} {next : Loader → Res Loader}
    {next' : Own → Calling byName Own} (hx : x = after gw y o) (hnext : ∀ l o, next (l.join o) = after gw (next' l) o) :
    x >>= next = after gw (y >>= next') o := by
  rw [after_bind, hx]
  unfold after
  cases y.alone .panic (serve gw) o with
  | error g => rfl
  | ok r => exact hnext r.1 r.2

theorem continueSync_alone : (l.join o).continueSync env = after env.gw (l.continueSync env : Calling byName _) o := by
  unfold Loader.continueSync continueSync
  change (match l.pl with | none => _ | some pl => _) = _
  cases l.pl with
  | none => rfl
  | some pl => exact fire_after l o pl .start warn Loader.warn fun l err o => warn_alone l o err

theorem restartSync_alone : (l.join o).restartSync env = after env.gw (l.restartSync env : Calling byName _) o := by
  unfold Loader.restartSync restartSync
  change (match l.pl with | none => _ | some pl => _) = _
  cases l.pl with
  | none => rfl
  | some pl =>
    exact fire_after { l with fc := l.fc.reset pl.peer } o pl .restart warn Loader.warn
      fun l err o => warn_alone l o err

omit l in
theorem lagging_alone : ∀ cps : List Peer, (lagging cps : Calling byName _).alone .panic (serve gw) o =
    (Loader.lagging o.linkage cps).map fun ps => (ps, o)
  | [] => rfl
  | cp :: cps => by
    unfold lagging Loader.lagging
    cases cp.score with
    | none => exact lagging_alone cps
    | some peerScore =>
      change (o.read (o.linkage.leashScore cp.addr) >>= _) = _
      cases o.linkage.leashScore cp.addr with
      | error g =>
        cases g with
        | err e => exact lagging_alone cps
        | panic msg => rfl
      | ok score =>
        change Client.alone .panic (serve gw) (lagging cps >>= _) o = _
        rw [Client.alone_bind, lagging_alone cps]
        change _ = Except.map _ (Loader.lagging o.linkage cps >>= _)
        cases Loader.lagging o.linkage cps <;> rfl

theorem sync_alone (conns : Go.MapRange Addr Conn) (srt : Go.UnstableSort Peer byName) (pick : Nat) :
    (l.join o).sync env conns srt pick = after env.gw (l.sync env conns srt pick) o := by
  obtain ⟨pl, prevDiff, fc⟩ := l
  cases pl with
  | some pl => rfl
  | none =>
    unfold Loader.sync sync
    dsimp only [join]
    rw [after_invoke]
    change _ = (o.read (o.registry.listConnections conns srt) >>= _)
    cases o.registry.listConnections conns srt with
    | error g => cases g <;> rfl
    | ok connections =>
      change _ = after env.gw (lagging connections >>= _) o
      rw [after_bind, lagging_alone]
      change (Loader.lagging o.linkage connections >>= _) = _
      cases Loader.lagging o.linkage connections with
      | error g => rfl
      | ok ps =>
        change (match ps[pick % ps.length]? with | none => _ | some p => _) =
          after env.gw (match ps[pick % ps.length]? with | none => _ | some p => _) o
        cases ps[pick % ps.length]? with
        | none => rfl
        | some p =>
          refine bind_after o ?_ fun l o => continueSync_alone l o
          change (if fc.count p.addr ≥ restartThreshold then _ else _ : Res Loader) =
            after env.gw (if fc.count p.addr ≥ restartThreshold then _ else _) o
          split
          · exact restartSync_alone ⟨some ⟨⟨.idle, []⟩, p.addr, none, [], []⟩, prevDiff, fc⟩ o
          · rfl

theorem tick_alone : (l.join o).tick env = after env.gw (l.tick env : Calling byName _) o := by
  unfold Loader.tick tick
  change (match l.pl with | none => _ | some pl => _) = _
  cases l.pl with
  | none => rfl
  | some pl => exact fire_after l o pl _ warn Loader.warn fun l err o => warn_alone l o err

theorem handleIDs_alone (peer : Addr) (ids : List BlockID) :
    (l.join o).handleIDs env peer ids = after env.gw (l.handleIDs env peer ids : Calling byName _) o := by
  unfold Loader.handleIDs handleIDs
  change (match l.pl with | none => _ | some pl => _) = _
  cases l.pl with
  | none => rfl
  | some pl =>
    dsimp only
    split
    · rfl
    · split
      · rfl
      · exact fire_after l o pl (.ids ids) (fun r => .done r.1) (fun r => .ok r.1) fun _ _ _ => rfl

theorem handleBlock_alone (peer : Addr) (block : Option Proto.Block) :
    (l.join o).handleBlock env peer block = after env.gw (l.handleBlock env peer block : Calling byName _) o := by
  unfold Loader.handleBlock handleBlock
  change (match l.pl with | none => _ | some pl => _) = _
  cases l.pl with
  | none => rfl
  | some pl =>
    dsimp only
    split
    · rfl
    · exact fire_after l o pl (.block block) (fun r => .done r.1) (fun r => .ok r.1) fun _ _ _ => rfl

end

end Own

/-! ## The handlers -/

/-- What the loop of the loader selects: a timer, or a package of the distributor. -/
inductive Selected (byName : Peer → Peer → Bool) where
  | sync (now : Int) (rng : Go.MapRange BlockID (List Addr)) (conns : Go.MapRange Addr Conn)
      (srt : Go.UnstableSort Peer byName) (pick : Nat)
  | tick (now : Int)
  | ids (now : Int) (peer : Addr) (ids : List BlockID)
  | block (now : Int) (peer : Addr) (block : Option Proto.Block)

def Selected.event : Selected byName → LoaderEvent byName
  | .sync now rng conns srt pick => .sync now rng conns srt pick
  | .tick now => .tick now
  | .ids now peer list => .ids now peer list
  | .block now peer b => .block now peer b

def Own.handle (gw : Gowaves) : Selected byName → Own → Calling byName Own
  | .sync now rng conns srt pick, l => l.sync ⟨gw, now, rng⟩ conns srt pick
  | .tick now, l => l.tick (.at gw now)
  | .ids now peer ids, l => l.handleIDs (.at gw now) peer ids
  | .block now peer block, l => l.handleBlock (.at gw now) peer block

/-- **A handler alone with the stores** does what it does in one step. -/
theorem apply_alone (gw : Gowaves) (cmpMinor : Version → Version → Int) (l : Own) (o : Shared) (i : Selected byName) :
    (l.join o).apply gw cmpMinor i.event = Own.after gw (l.handle gw i) o := by
  cases i with
  | sync now rng conns srt pick => exact Own.sync_alone l o conns srt pick
  | tick now => exact Own.tick_alone l o
  | ids now peer ids => exact Own.handleIDs_alone l o peer ids
  | block now peer block => exact Own.handleBlock_alone l o peer block

end

end Loading
end ForkDetector
