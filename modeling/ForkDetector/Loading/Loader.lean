import ForkDetector.Chains.Refinement
import ForkDetector.Loading.Firing
import ForkDetector.Peers.Registry
/-!
# Loader — choosing the peer to load from

`loading/loader.go`: the loader of the whole program, which holds the loader of one peer at a time and is what that one
reports to.  An event is handled to its end before the next; between events other components call the linkage and the
registry.  The ticker runs from the first peer on, so that a tick may come at any time.
-/
namespace ForkDetector
namespace Loading

open Std (ExtTreeMap)
open Proto (BlockID Gowaves Version Conn)
open Chains (Linkage)
open Peers (Registry Peer)
open Machine (Control)

def restartThreshold : Nat := 10

structure FailureCounter where
  m : ExtTreeMap Addr Nat
deriving DecidableEq

namespace FailureCounter

def inc (fc : FailureCounter) (addr : Addr) : FailureCounter := ⟨fc.m.insert addr (fc.m.getD addr 0 + 1)⟩
def count (fc : FailureCounter) (addr : Addr) : Nat := fc.m.getD addr 0
def reset (fc : FailureCounter) (addr : Addr) : FailureCounter := ⟨fc.m.insert addr 0⟩

end FailureCounter

/-- The loader of a peer, less the linkage and what it reports to. -/
structure Held where
  control : Control State Event
  peer : Addr
  timestamp : Option Int
  queue : Queue
  sent : List Request

structure Loader where
  pl : Option Held
  prevDiff : Option Int
  fc : FailureCounter
  registry : Registry
  linkage : Linkage

def newLoader (registry : Registry) (linkage : Linkage) : Loader := ⟨none, none, ⟨∅⟩, registry, linkage⟩

/-! ## Reports -/

/-- What a report reads and writes of the loader; `held` is whether it still holds the loader of the peer. -/
structure Report where
  held : Bool
  prevDiff : Option Int
  fc : FailureCounter
  registry : Registry

def isLagging (prevDiff : Option Int) (peerScore leashScore : Int) : Int × Bool :=
  let diff := peerScore - leashScore
  match prevDiff with
  | none => (diff, decide (peerScore > leashScore))
  | some d => (diff, decide (peerScore > leashScore) && decide (d ≠ diff))

/-- `Loader.OK`; the flag is `continueSync`. -/
def reportOK (st : State) (peer : Addr) (linkage : Linkage) (l : Report) : Res (Report × Bool) :=
  if l.held && decide (st = .idle) then
    let l := { l with fc := l.fc.reset peer }
    match l.registry.storage.peer peer with
    | .error (.panic msg) => Go.panic msg
    | .error (.err _) => .ok (l, false)
    | .ok p =>
      match linkage.leashScore peer with
      | .error (.panic msg) => Go.panic msg
      | .error (.err _) => .ok (l, false)
      | .ok score =>
        match p.score with
        | none => Go.panic "invalid memory address or nil pointer dereference"
        | some peerScore =>
          match isLagging l.prevDiff peerScore score with
          | (diff, true) => .ok ({ l with prevDiff := some diff }, true)
          -- `resetLoadingPeer`
          | (_, false) => .ok ({ l with held := false, prevDiff := none }, false)
  else .ok (l, false)

/-- `Loader.Fail`. -/
def reportFail (st : State) (peer : Addr) (l : Report) : Report :=
  if l.held && decide (st = .done) then { l with fc := l.fc.inc peer, held := false } else l

def reporter : Reporter Report := ⟨reportOK, reportFail⟩

namespace Loader

/-! ## Handlers -/

def view (l : Loader) (pl : Held) : PeerLoader Report :=
  ⟨pl.peer, l.linkage, ⟨true, l.prevDiff, l.fc, l.registry⟩, pl.timestamp, pl.queue, pl.sent⟩

def keep (r : Settled Report) : Loader where
  pl := if r.world.r.held then some ⟨r.control, r.world.peer, r.world.timestamp, r.world.queue, r.world.sent⟩ else none
  prevDiff := r.world.r.prevDiff
  fc := r.world.r.fc
  registry := r.world.r.registry
  linkage := r.world.hp

def fire (env : Env) (l : Loader) (pl : Held) (e : Event) : Res (Loader × Option (Go.Err Sentinel)) := do
  match ← PeerLoader.fire env reporter pl.control e (l.view pl) with
  | some r => .ok (keep r, r.err)
  -- never comes to this: `fire_fired`
  | none => Go.panic "too many triggers"

/-- The warning about an error, which names the peer of the loader held. -/
def warn : Loader × Option (Go.Err Sentinel) → Res Loader
  | (l, none) => .ok l
  | (l, some _) =>
    match l.pl with
    | none => Go.panic "invalid memory address or nil pointer dereference"
    | some _ => .ok l

def continueSync (env : Env) (l : Loader) : Res Loader :=
  match l.pl with
  | none => Go.panic "invalid memory address or nil pointer dereference"
  | some pl => do
    let r ← l.fire env pl .start
    warn r

def restartSync (env : Env) (l : Loader) : Res Loader :=
  match l.pl with
  | none => Go.panic "invalid memory address or nil pointer dereference"
  | some pl => do
    let r ← fire env { l with fc := l.fc.reset pl.peer } pl .restart
    warn r

def lagging (linkage : Linkage) : List Peer → Res (List Peer)
  | [] => .ok []
  | cp :: cps =>
    match cp.score with
    | none => lagging linkage cps
    | some peerScore =>
      match linkage.leashScore cp.addr with
      | .error (.panic msg) => Go.panic msg
      | .error (.err _) => lagging linkage cps
      | .ok score => do
        let rest ← lagging linkage cps
        .ok (if peerScore > score then cp :: rest else rest)

/-- `sync`; `pick` is the random choice among the lagging peers. -/
def sync {byName : Peer → Peer → Bool} (env : Env) (conns : Go.MapRange Addr Conn) (srt : Go.UnstableSort Peer byName)
    (pick : Nat) (l : Loader) : Res Loader :=
  match l.pl with
  | some _ => .ok l
  | none =>
    match l.registry.listConnections conns srt with
    | .error (.panic msg) => Go.panic msg
    | .error (.err _) => .ok l
    | .ok connections => do
      let lagging ← lagging l.linkage connections
      match lagging[pick % lagging.length]? with
      | none => .ok l
      | some p => do
        let l := { l with pl := some ⟨⟨.idle, []⟩, p.addr, none, [], []⟩ }
        let l ← (if l.fc.count p.addr ≥ restartThreshold then l.restartSync env else .ok l : Res Loader)
        l.continueSync env

def tick (env : Env) (l : Loader) : Res Loader :=
  match l.pl with
  | none => .ok l
  | some pl => do
    let r ← l.fire env pl (.tick env.now)
    warn r

def handleIDs (env : Env) (l : Loader) (peer : Addr) (ids : List BlockID) : Res Loader :=
  match l.pl with
  | none => .ok l
  | some pl =>
    if ids = [] then .ok l
    else if peer ≠ pl.peer then .ok l
    else do
      let r ← l.fire env pl (.ids ids)
      .ok r.1

def handleBlock (env : Env) (l : Loader) (peer : Addr) (block : Option Proto.Block) : Res Loader :=
  match l.pl with
  | none => .ok l
  | some pl =>
    if peer ≠ pl.peer then .ok l
    else do
      let r ← l.fire env pl (.block block)
      .ok r.1

end Loader

/-! ## Events -/

/-- What the loader handles, with the clock and the orders and choices that it meets, and the calls of other components
on the linkage and the registry. -/
inductive LoaderEvent (byName : Peer → Peer → Bool) where
  | sync (now : Int) (rng : Go.MapRange BlockID (List Addr)) (conns : Go.MapRange Addr Conn)
      (srt : Go.UnstableSort Peer byName) (pick : Nat)
  | tick (now : Int)
  | ids (now : Int) (peer : Addr) (ids : List BlockID)
  | block (now : Int) (peer : Addr) (block : Option Proto.Block)
  | linkage (c : Chains.Call)
  | registry (op : Peers.Op)

/-- The map order matters to a restart only, so that the other events have a fixed one. -/
def Env.at (gw : Gowaves) (now : Int) : Env := ⟨gw, now, .listed _ _⟩

def Loader.apply {byName : Peer → Peer → Bool} (gw : Gowaves) (cmpMinor : Version → Version → Int) (l : Loader) :
    LoaderEvent byName → Res Loader
  | .sync now rng conns srt pick => l.sync ⟨gw, now, rng⟩ conns srt pick
  | .tick now => l.tick (.at gw now)
  | .ids now peer ids => l.handleIDs (.at gw now) peer ids
  | .block now peer block => l.handleBlock (.at gw now) peer block
  | .linkage c => do
    let linkage ← l.linkage.call gw c
    .ok { l with linkage := linkage }
  | .registry op => do
    let registry ← l.registry.apply cmpMinor op
    .ok { l with registry := registry }

/-- A step of the loader: an event that is handled to its end, with all the calls that it makes.  Others may call between
two of them; `Calls` and `Among` have those calls one by one. -/
def LoaderStep {byName : Peer → Peer → Bool} (gw : Gowaves) (cmpMinor : Version → Version → Int) (l : Loader)
    (e : LoaderEvent byName) (l' : Loader) : Prop := l.apply gw cmpMinor e = .ok l'

end Loading
end ForkDetector
