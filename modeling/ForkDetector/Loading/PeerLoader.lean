import ForkDetector.Lib.Machine
import ForkDetector.Chains.Linkage
import ForkDetector.Loading.Queue
/-!
# PeerLoader — loading the history of one peer

`loading/peer_loader.go`: the states, what each does with each event, and the actions.  An action that fails keeps what
it has changed so far.  A reporter is what the loader of a peer reports to; whether it starts the loader again is part
of its answer, as the start is queued until the report returns.  `Fired` is what one event can do.
-/
namespace ForkDetector
namespace Loading

open Proto (BlockID Gowaves)
open Chains (Linkage)
open Machine (Handler Control Ran Ended)

inductive State where
  | idle
  | waitingForIDs
  | waitingForBlocks
  | done
deriving DecidableEq

inductive Event where
  | start
  | restart
  | ids (ids : List BlockID)
  | block (block : Option Proto.Block)
  | tick (tm : Int)
  | timeout
  | queueReady

inductive Action where
  | requestIDs
  | requestIDsFromLCA
  | requestBlocks
  | appendBlock
  | onTick
  | handleFailure
  | reportOK

inductive Request where
  | blockIDs (ids : List BlockID)
  | block (id : BlockID)
deriving DecidableEq

/-! ## The state machine -/

def configureIdleState : Event → Option (Handler State Action)
  | .start => some (.permit .waitingForIDs)
  | .restart => some (.permit .waitingForIDs)
  | .ids _ => some .ignore
  | .block _ => some .ignore
  | .tick _ => some .ignore
  | .timeout => some .ignore
  | .queueReady => some .ignore

def configureWaitingForIDs : Event → Option (Handler State Action)
  | .ids _ => some (.permit .waitingForBlocks)
  | .tick _ => some (.internal .onTick)
  | .timeout => some (.permit .done)
  | .start => some .ignore
  | .restart => some .ignore
  | .block _ => some .ignore
  | .queueReady => some .ignore

def configureWaitingForBlocksState : Event → Option (Handler State Action)
  | .block _ => some (.internal .appendBlock)
  | .tick _ => some (.internal .onTick)
  | .timeout => some (.permit .done)
  | .queueReady => some (.permit .idle)
  | .start => some .ignore
  | .restart => some .ignore
  | .ids _ => some .ignore

def configureDoneState : Event → Option (Handler State Action)
  | .start => some .ignore
  | .restart => some .ignore
  | .ids _ => some .ignore
  | .block _ => some .ignore
  | .tick _ => some .ignore
  | .timeout => some .ignore
  | .queueReady => none

def handler : State → Event → Option (Handler State Action)
  | .idle => configureIdleState
  | .waitingForIDs => configureWaitingForIDs
  | .waitingForBlocks => configureWaitingForBlocksState
  | .done => configureDoneState

/-- `OnEntryFrom` of the first three states, `OnEntry` of the last. -/
def entry : State → Event → Option Action
  | .idle, .queueReady => some .reportOK
  | .waitingForIDs, .start => some .requestIDs
  | .waitingForIDs, .restart => some .requestIDsFromLCA
  | .waitingForBlocks, .ids _ => some .requestBlocks
  | .done, _ => some .handleFailure
  | _, _ => none

def config : Machine.Config State Event Action := ⟨handler, entry⟩

/-! ## The loader of a peer -/

def idsBatchSize : Nat := 100
def timeoutDuration : Int := 30000000000

/-- `Reporter`, over its own state: `OK` may start the loader again. -/
structure Reporter (ρ : Type) where
  OK : State → Addr → Linkage → ρ → Res (ρ × Bool)
  Fail : State → Addr → ρ → ρ

/-- The fields of `peerLoader`, with what they point to, and the requests sent to the peer. -/
structure PeerLoader (ρ : Type) where
  peer : Addr
  hp : Linkage
  r : ρ
  timestamp : Option Int
  queue : Queue
  sent : List Request

/-- The node library, the clock, and the order in which a map is ranged over. -/
structure Env where
  gw : Gowaves
  now : Int
  rng : Go.MapRange BlockID (List Addr)

abbrev Done (ρ : Type) := Ran (PeerLoader ρ) Event (Go.Err Sentinel)

def newPeerLoader {ρ : Type} (peer : Addr) (hp : Linkage) (r : ρ) : Control State Event × PeerLoader ρ :=
  (⟨.idle, []⟩, ⟨peer, hp, r, none, [], []⟩)

/-- Whether the time since the timestamp is over the limit; it is when the timestamp is still the zero time. -/
def timedOut (timestamp : Option Int) (tm : Int) : Bool := timestamp.all fun t => decide (tm - t > timeoutDuration)

/-- The loop of `requestBlocks`: the leash follows the known blocks, up to the first one that is not stored. -/
def skipKnown (peer : Addr) (hp : Linkage) : List BlockID → Res (Linkage × Except (Go.Err Sentinel) (List BlockID))
  | [] => .ok (hp, .ok [])
  | id :: ids =>
    match hp.hasBlock id with
    | .error (.panic msg) => Go.panic msg
    | .error (.err e) => .ok (hp, .error (.wrap "failed to request blocks from '%s'" e))
    | .ok false => .ok (hp, .ok (id :: ids))
    | .ok true =>
      match hp.leash peer with
      | .error (.panic msg) => Go.panic msg
      | .error (.err e) => .ok (hp, .error (.wrap "failed to request blocks form '%s'" e))
      | .ok leash => skipKnown peer (if id ≠ leash then hp.moveLeash id peer else hp) ids

/-- Blocks put for the peer, up to the first one that fails. -/
def putBlocks (gw : Gowaves) (peer : Addr) (hp : Linkage) : List Proto.Block → Res (Linkage × Option (Go.Err Sentinel))
  | [] => .ok (hp, none)
  | b :: bs =>
    match hp.putBlock gw b peer with
    | .error (.panic msg) => Go.panic msg
    | .error (.err e) => .ok (hp, some e)
    | .ok hp => putBlocks gw peer hp bs

namespace PeerLoader
variable {ρ : Type}

def onTick (s : PeerLoader ρ) (tm : Int) : Done ρ := ⟨s, if timedOut s.timestamp tm then [.timeout] else [], none⟩

/-- The end of `requestIDs` and `requestIDsFromLCA`, from the block that they found. -/
def requestIDsFrom (env : Env) (s : PeerLoader ρ) (block : Res BlockID) : Res (Done ρ) := do
  let r ← Go.attempt (do
    let id ← block
    s.hp.lastIDs id idsBatchSize)
  match r with
  | .error e => .ok ⟨s, [], some (.wrap "failed to request IDs from '%s'" e)⟩
  | .ok lastIDs => .ok ⟨{ s with sent := s.sent ++ [.blockIDs lastIDs], timestamp := some env.now }, [], none⟩

def requestIDs (env : Env) (s : PeerLoader ρ) : Res (Done ρ) := s.requestIDsFrom env (s.hp.leash s.peer)

def requestIDsFromLCA (env : Env) (s : PeerLoader ρ) : Res (Done ρ) :=
  s.requestIDsFrom env (s.hp.lcb env.gw env.rng s.peer)

def requestBlocks (env : Env) (s : PeerLoader ρ) (ids : List BlockID) : Res (Done ρ) := do
  let (hp, r) ← skipKnown s.peer s.hp ids
  match r with
  | .error e => .ok ⟨{ s with hp := hp }, [], some e⟩
  | .ok [] => .ok ⟨{ s with hp := hp }, [.queueReady], none⟩
  | .ok (id :: req) => .ok ⟨{ s with
      hp := hp, queue := newQueue (id :: req), sent := s.sent ++ (id :: req).map .block,
      timestamp := some env.now }, [], none⟩

def appendBlock (env : Env) (s : PeerLoader ρ) (block : Option Proto.Block) : Res (Done ρ) :=
  let queue := s.queue.put block
  if queue.ready then do
    let (hp, err) ← putBlocks env.gw s.peer s.hp queue.blocks
    match err with
    | some e => .ok ⟨{ s with queue := queue, hp := hp }, [],
        some (.wrap "failed to append block '%s' for peer '%s'" e)⟩
    | none => .ok ⟨{ s with queue := queue, hp := hp }, [.queueReady], none⟩
  else .ok ⟨{ s with queue := queue }, [], none⟩

def handleFailure (env : Env) (rep : Reporter ρ) (st : State) (s : PeerLoader ρ) : Res (Done ρ) := do
  let (hp, err) ← putBlocks env.gw s.peer s.hp s.queue.received
  match err with
  | some e => .ok ⟨{ s with hp := hp }, [], some e⟩
  | none => .ok ⟨{ s with hp := hp, r := rep.Fail st s.peer s.r }, [], none⟩

def reportOK (rep : Reporter ρ) (st : State) (s : PeerLoader ρ) : Res (Done ρ) := do
  let (r, again) ← rep.OK st s.peer s.hp s.r
  .ok ⟨{ s with r := r }, if again then [.start] else [], none⟩

def perform (env : Env) (rep : Reporter ρ) : Action → State → Event → PeerLoader ρ → Res (Done ρ)
  | .onTick, _, .tick tm, s => .ok (s.onTick tm)
  | .requestIDs, _, _, s => s.requestIDs env
  | .requestIDsFromLCA, _, _, s => s.requestIDsFromLCA env
  | .requestBlocks, _, .ids ids, s => s.requestBlocks env ids
  | .appendBlock, _, .block block, s => s.appendBlock env block
  | .handleFailure, st, _, s => s.handleFailure env rep st
  | .reportOK, st, _, s => s.reportOK rep st
  | _, _, _, s => .ok ⟨s, [], some (.text "invalid argument type")⟩

def unhandled (_ : State) (_ : Event) : Go.Err Sentinel :=
  .text "stateless: No valid leaving transitions are permitted"

/-- `sm.Fire`; no event makes more than three triggers. -/
def fire (env : Env) (rep : Reporter ρ) (m : Control State Event) (e : Event) (s : PeerLoader ρ) :
    Res (Option (Ended State Event (PeerLoader ρ) (Go.Err Sentinel))) :=
  Machine.fire config (perform env rep) unhandled 3 m e s

end PeerLoader

end Loading
end ForkDetector
