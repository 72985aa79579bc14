import ForkDetector.Loading.Among
import ForkDetector.Node.Messages
/-!
# Service — the loops of the whole program, from the start to the shutdown

`run` of `forkdetector.go` starts the distributor, the loader and the respawn, and waits for their loops to end when the
user interrupts it.  The distributor sends what it has for the loader over channels without a buffer: it waits until the
loader takes it, and does not look at the interrupt while it waits.  While the loader handles an event, others call the
registry and the linkage between two of its calls.
-/
namespace ForkDetector
namespace Node

open Proto (BlockID Gowaves Version Conn)
open Chains (Linkage)
open Peers (Registry Peer)
open Loading (AmongStep Calling Selected Loader LoaderAct LoaderSite Own Shared newLoader)
open Client (Act)
open Run (Path Link)

/-! ## The program -/

/-- The state that the loops share, and the loops: what the loader has of its own and what is left of the event that it
handles, what the distributor waits to send, whether the user has interrupted the program, and which loops still run. -/
structure Service (byName : Peer → Peer → Bool) where
  net : Net
  linkage : Linkage
  own : Own
  handling : Option (Calling byName Own)
  sending : Option Package
  cancelled : Bool
  distributing : Bool
  loading : Bool
  respawning : Bool

inductive ServiceEvent (byName : Peer → Peer → Bool) where
  | message (np : Conn) (srt : Go.UnstableSort Peer byName) (m : Message)
  | connected (now : Int) (np : Conn)
  | internalErr (now : Int) (np : Conn)
  /-- The loader takes what the distributor sends. -/
  | handoff (now : Int)
  | sync (now : Int) (rng : Go.MapRange BlockID (List Addr)) (conns : Go.MapRange Addr Conn)
      (srt : Go.UnstableSort Peer byName) (pick : Nat)
  | tick (now : Int)
  /-- The loader makes its next call, or is through with what it handles. -/
  | loads
  | suggestVersion (now : Int) (addr : Addr)
  | respawn (now : Int)
  | dialEnded (ap : AddrPort)
  | dialFailed (now : Int) (ap : AddrPort) (own : Option Conn)
  | interrupt
  | distributorStops
  | loaderStops
  | respawnStops

section
variable {byName : Peer → Peer → Bool}

def Package.received (now : Int) : Package → Selected byName
  | .ids peer list => .ids now peer list
  | .block package => .block now package.peer (some package.block)

namespace Service

def start (byName : Peer → Peer → Bool) (r : Registry) (hp : Linkage) : Service byName where
  net := .start r
  linkage := hp
  own := ⟨none, none, ⟨∅⟩⟩
  handling := none
  sending := none
  cancelled := false
  distributing := true
  loading := true
  respawning := true

def shared (s : Service byName) : Shared := ⟨s.net.registry, s.linkage⟩

/-- The loader, among the calls of the others. -/
def site (s : Service byName) : LoaderSite byName := ⟨s.shared, s.own, s.handling⟩

def handle (gw : Gowaves) (s : Service byName) (i : Selected byName) : Service byName :=
  { s with handling := some (s.own.handle gw i) }

def load (gw : Gowaves) (s : Service byName) : Res (Service byName) :=
  match s.handling with
  | none => .ok s
  | some (.done own) => .ok { s with own := own, handling := none }
  | some (.fault msg) => Go.panic msg
  | some (.call c next) => do
    let (a, o) ← Loading.serve gw c s.shared
    .ok { s with net := { s.net with registry := o.registry }, linkage := o.linkage, handling := some (next a) }

def connect (cmpMinor : Version → Version → Int) (s : Service byName) (e : Event) : Res (Service byName) := do
  let net ← s.net.apply cmpMinor e
  .ok { s with net := net }

def apply (gw : Gowaves) (cmpMinor : Version → Version → Int) (s : Service byName) :
    ServiceEvent byName → Res (Service byName)
  | .message np srt m => do
    let x ← handleMessage gw srt s.net.registry s.linkage np m
    .ok { s with net := { s.net with registry := x.registry }, linkage := x.linkage, sending := x.package }
  | .connected now np => s.connect cmpMinor (.connected now np)
  | .internalErr now np => s.connect cmpMinor (.internalErr now np)
  | .handoff now =>
    match s.sending with
    | none => .ok s
    | some package => .ok ({ s with sending := none }.handle gw (package.received now))
  | .sync now rng conns srt pick => .ok (s.handle gw (.sync now rng conns srt pick))
  | .tick now => .ok (s.handle gw (.tick now))
  | .loads => s.load gw
  | .suggestVersion now addr => s.connect cmpMinor (.suggestVersion now addr)
  | .respawn now => s.connect cmpMinor (.respawn now)
  | .dialEnded ap => s.connect cmpMinor (.dialEnded ap)
  | .dialFailed now ap own => s.connect cmpMinor (.dialFailed now ap own)
  | .interrupt => .ok { s with cancelled := true }
  | .distributorStops => .ok { s with distributing := false }
  | .loaderStops => .ok { s with loading := false }
  | .respawnStops => .ok { s with respawning := false }

/-- The distributor selects between its messages and the end, unless it waits to send. -/
def Selects (s : Service byName) : Prop := s.distributing = true ∧ s.sending = none

/-- The loader selects between its timers, the packages and the end, unless it handles one of them. -/
def Waits (s : Service byName) : Prop := s.loading = true ∧ s.handling = none

def Enabled (s : Service byName) : ServiceEvent byName → Prop
  | .message .. | .connected .. | .internalErr .. => s.Selects
  | .handoff _ => s.Waits ∧ s.sending ≠ none
  | .sync .. | .tick _ => s.Waits
  | .loads => s.loading = true ∧ s.handling ≠ none
  | .suggestVersion .. => True
  | .respawn _ => s.respawning = true ∧ s.net.armed = true
  | .dialEnded ap | .dialFailed _ ap _ => ap ∈ s.net.dials
  | .interrupt => s.cancelled = false
  | .distributorStops => s.cancelled = true ∧ s.Selects
  | .loaderStops => s.cancelled = true ∧ s.Waits
  | .respawnStops => s.cancelled = true ∧ s.respawning = true

end Service

def ServiceStep (gw : Gowaves) (cmpMinor : Version → Version → Int) (s : Service byName) (e : ServiceEvent byName)
    (s' : Service byName) : Prop := s.Enabled e ∧ s.apply gw cmpMinor e = .ok s'

/-- What the distributor makes of a message for the loader. -/
def made (x : Link (Service byName) (ServiceEvent byName)) : List Package :=
  match x.input with
  | .message .. => x.post.sending.toList
  | _ => []

/-- What the loader takes from the distributor. -/
def taken (x : Link (LoaderSite byName) (LoaderAct byName)) : List Package :=
  match x.input with
  | .begins (.ids _ peer ids) => [.ids peer ids]
  | .begins (.block _ peer (some block)) => [.block ⟨peer, block⟩]
  | _ => []

end

/-! ## The loader and the net of a run -/

namespace Service
variable {gw : Gowaves} {cmpMinor : Version → Version → Int} {byName : Peer → Peer → Bool} {s s' : Service byName}

/-- **The calls of other components** fall into a run of the loader that takes nothing. -/
theorem exists_calls {w : LoaderSite byName} {r : Registry} {hp : Linkage}
    (hr : r = w.shared.registry ∨ ∃ op, w.shared.registry.apply cmpMinor op = .ok r)
    (hhp : hp = w.shared.linkage ∨ ∃ c, w.shared.linkage.call gw c = .ok hp) :
    ∃ tr, Path (AmongStep gw cmpMinor) w tr { w with shared := ⟨r, hp⟩ } ∧ tr.flatMap taken = [] := by
  have hregistry : ∃ tr, Path (AmongStep gw cmpMinor) w tr { w with shared := ⟨r, w.shared.linkage⟩ } ∧
      tr.flatMap taken = [] := by
    rcases hr with rfl | ⟨op, hop⟩
    · exact ⟨[], .nil w, rfl⟩
    · exact ⟨_, .cons (.other w.own w.doing (.registry hop)) (.nil _), rfl⟩
  obtain ⟨tr, htr, hno⟩ := hregistry
  rcases hhp with rfl | ⟨c, hc⟩
  · exact ⟨tr, htr, hno⟩
  · have hs : AmongStep gw cmpMinor { w with shared := ⟨r, w.shared.linkage⟩ } (.other (.linkage c))
        { w with shared := ⟨r, hp⟩ } := .other w.own w.doing (.linkage hc)
    refine ⟨_, htr.append (.cons hs (.nil _)), ?_⟩
    rw [List.flatMap_append, hno]
    rfl

theorem handle_step (gw : Gowaves) (cmpMinor : Version → Version → Int) (hw : s.handling = none) (i : Selected byName) :
    AmongStep gw cmpMinor s.site (.begins i) (s.handle gw i).site := by
  obtain ⟨net, hp, own, handling, sending, cancelled, distributing, loading, respawning⟩ := s
  cases hw
  exact .begins _ own i

/-- **The next step of the loader** in what it handles. -/
theorem load_step (cmpMinor : Version → Version → Int) (hh : s.handling ≠ none) (h : s.load gw = .ok s') :
    (AmongStep gw cmpMinor s.site .calls s'.site ∨ AmongStep gw cmpMinor s.site .ends s'.site) ∧ s'.net = s.net ∧
      s'.sending = s.sending := by
  obtain ⟨net, hp, own, handling, sending, cancelled, distributing, loading, respawning⟩ := s
  obtain ⟨p, rfl⟩ := Option.ne_none_iff_exists'.1 hh
  cases p with
  | done own' =>
    cases h
    exact ⟨.inr (.ends _ own own'), rfl, rfl⟩
  | fault msg => cases h
  | call c next =>
    obtain ⟨⟨a, o⟩, hc, h⟩ := Go.bind_eq_ok.1 h
    cases h
    refine ⟨.inl (.calls own next hc), ?_, rfl⟩
    have hr : o.registry = net.registry := Loading.serve_registry hc
    rw [hr]

theorem connect_carried {e : Event} (h : s.connect cmpMinor e = .ok s') :
    ∃ tr, Path (AmongStep gw cmpMinor) s.site tr s'.site ∧
      tr.flatMap taken ++ s'.sending.toList = s.sending.toList := by
  obtain ⟨net, hn, h⟩ := Go.bind_eq_ok.1 h
  cases h
  obtain ⟨tr, htr, hno⟩ : ∃ tr, Path (AmongStep gw cmpMinor) s.site tr { s.site with
      shared := ⟨net.registry, s.linkage⟩ } ∧ tr.flatMap taken = [] :=
    exists_calls (Net.apply_registry hn) (.inl rfl)
  exact ⟨tr, htr, by rw [hno]; rfl⟩

/-- **A step of the program is steps of the loader among others**, which takes in order what the distributor makes. -/
theorem step_carried {e : ServiceEvent byName} (h : ServiceStep gw cmpMinor s e s') :
    ∃ tr, Path (AmongStep gw cmpMinor) s.site tr s'.site ∧
      tr.flatMap taken ++ s'.sending.toList = s.sending.toList ++ made ⟨s, e, s'⟩ := by
  obtain ⟨hen, h⟩ := h
  cases e with
  | message np srt m =>
    obtain ⟨x, hx, h⟩ := Go.bind_eq_ok.1 h
    cases h
    have hr : x.registry = s.site.shared.registry ∨
        ∃ op, s.site.shared.registry.apply cmpMinor op = .ok x.registry := by
      rcases handleMessage_event cmpMinor hx with he | ⟨e, -, he⟩
      · exact .inl he
      · exact Net.apply_registry he
    obtain ⟨tr, htr, hno⟩ := exists_calls hr (handleMessage_call hx)
    exact ⟨tr, htr, by rw [hno, hen.2]; rfl⟩
  | handoff now =>
    obtain ⟨package, hp⟩ := Option.ne_none_iff_exists'.1 hen.2
    simp only [apply, hp] at h
    cases h
    have hstep := handle_step (s := { s with sending := none }) gw cmpMinor hen.1.2 (package.received now)
    refine ⟨_, .cons hstep (.nil _), ?_⟩
    rw [List.flatMap_singleton, hp]
    cases package <;> rfl
  | sync | tick =>
    cases h
    exact ⟨_, .cons (handle_step gw cmpMinor hen.2 _) (.nil _), (List.append_nil _).symm⟩
  | loads =>
    simp only [made, List.append_nil]
    obtain ⟨hstep | hstep, -, hsend⟩ := load_step cmpMinor hen.2 h
    · exact ⟨_, .cons hstep (.nil _), by rw [hsend]; rfl⟩
    · exact ⟨_, .cons hstep (.nil _), by rw [hsend]; rfl⟩
  | connected | internalErr | suggestVersion | respawn | dialEnded | dialFailed =>
    simp only [made, List.append_nil]
    exact connect_carried h
  | interrupt | distributorStops | loaderStops | respawnStops =>
    cases h
    exact ⟨[], .nil _, (List.append_nil _).symm⟩

theorem connect_net {e : Event} (hen : s.net.Enabled e) (h : s.connect cmpMinor e = .ok s') :
    ∃ tr, Path (Step cmpMinor) s.net tr s'.net := by
  obtain ⟨net, hn, h⟩ := Go.bind_eq_ok.1 h
  cases h
  exact ⟨_, .cons ⟨hen, hn⟩ (.nil _)⟩

/-- **A step of the program is steps of the net.** -/
theorem step_connected {e : ServiceEvent byName} (h : ServiceStep gw cmpMinor s e s') :
    ∃ tr, Path (Step cmpMinor) s.net tr s'.net := by
  obtain ⟨hen, h⟩ := h
  have hsame : s'.net = s.net → ∃ tr, Path (Step cmpMinor) s.net tr s'.net := fun he => by
    rw [he]
    exact ⟨[], .nil _⟩
  cases e with
  | message np srt m =>
    obtain ⟨x, hx, h⟩ := Go.bind_eq_ok.1 h
    cases h
    rcases handleMessage_event cmpMinor hx with he | ⟨e, hs⟩
    · refine hsame ?_
      rw [he]
    · exact ⟨_, .cons hs (.nil _)⟩
  | handoff now =>
    obtain ⟨package, hp⟩ := Option.ne_none_iff_exists'.1 hen.2
    simp only [apply, hp] at h
    cases h
    exact hsame rfl
  | loads => exact hsame (load_step cmpMinor hen.2 h).2.1
  | connected now np => exact connect_net (e := .connected now np) trivial h
  | internalErr now np => exact connect_net (e := .internalErr now np) trivial h
  | suggestVersion now addr => exact connect_net (e := .suggestVersion now addr) trivial h
  | respawn now => exact connect_net (e := .respawn now) hen.2 h
  | dialEnded ap => exact connect_net (e := .dialEnded ap) hen h
  | dialFailed now ap own => exact connect_net (e := .dialFailed now ap own) hen h
  | sync | tick | interrupt | distributorStops | loaderStops | respawnStops =>
    cases h
    exact hsame rfl

end Service

/-- **The program is its loader and its net, over one registry and one linkage**, for every order of events and every
call that falls between two of the loader's.  The loader takes what the distributor makes of the messages, each package
once and in order, up to the one being sent; and both stores stay in states that their own operations reach. -/
theorem run_carried {gw : Gowaves} {cmpMinor : Version → Version → Int} {byName : Peer → Peer → Bool}
    {scheme : Proto.Scheme} {genesis : Proto.Block} {t : Chains.BlockTree BlockID} {r : Registry} {hp : Linkage}
    {tr : List (Link (Service byName) (ServiceEvent byName))} {s' : Service byName}
    (hl : Chains.Reachable gw scheme genesis hp t) (hr : Peers.Reachable cmpMinor r)
    (h : Path (ServiceStep gw cmpMinor) (.start byName r hp) tr s') :
    (∃ ltr, Path (AmongStep gw cmpMinor) ((newLoader r hp).site byName) ltr s'.site ∧
      ltr.flatMap taken ++ s'.sending.toList = tr.flatMap made) ∧
    (∃ ntr, Path (Step cmpMinor) (.start r) ntr s'.net) ∧
    (∃ t', Chains.Reachable gw scheme genesis s'.linkage t') ∧ Peers.Reachable cmpMinor s'.net.registry := by
  obtain ⟨ltr, hltr, hout⟩ := h.simulates Service.site made taken (fun s => s.sending.toList)
    fun _ _ _ hs => Service.step_carried hs
  obtain ⟨ntr, hntr, -⟩ := h.simulates Service.net (fun _ => ([] : List Unit)) (fun _ => []) (fun _ => [])
    fun _ _ _ hs => by
      obtain ⟨ntr, hntr⟩ := Service.step_connected hs
      exact ⟨ntr, hntr, by simp⟩
  obtain ⟨honward, -⟩ := Loading.run_onward hltr ⟨t, hl⟩
  exact ⟨⟨ltr, hltr, hout⟩, ⟨ntr, hntr⟩, honward.keeps Loading.reachable_keptByCalls ⟨t, hl⟩, honward.reachable hr⟩

namespace Sample
open Loading.Sample (anyName asListed)
open Peers.Sample (addr waves conn registry cmpMinor)
open Chains.Sample (block gowaves id)

abbrev Serves : Service anyName → ServiceEvent anyName → Service anyName → Prop := ServiceStep gowaves cmpMinor

/-- Nobody is connected. -/
def idle (hp : Linkage) : Service anyName := .start anyName registry hp

/-- A peer sends a list of one ID. -/
def listed : ServiceEvent anyName := .message (conn 0 waves) asListed (.blockIDs [id 2])

def sending (hp : Linkage) : Service anyName := { idle hp with sending := some (.ids addr [id 2]) }

theorem listed_sends (hp : Linkage) : Serves (idle hp) listed (sending hp) := ⟨⟨rfl, rfl⟩, rfl⟩

/-- The loader looks for a peer to load from. -/
def syncing (hp : Linkage) : Service anyName :=
  (idle hp).handle gowaves (.sync 0 (.listed _ _) (.listed _ _) asListed 0)

/-- A peer sends a block. -/
def blocked : ServiceEvent anyName := .message (conn 0 waves) asListed (.block (some (block 2 1)))

def withBlock (s : Service anyName) : Service anyName := { s with sending := some (.block ⟨addr, block 2 1⟩) }

theorem blocked_sends {hp hp' : Linkage} (h : hp.putBlock gowaves (block 2 1) addr = .ok hp') :
    Serves (syncing hp) blocked (withBlock (syncing hp')) := by
  have hblock : handleBlockMessage gowaves hp (conn 0 waves) (some (block 2 1)) =
      .ok (hp', some (.block ⟨addr, block 2 1⟩)) := by
    unfold handleBlockMessage Loading.Distributor.handleBlock
    simp only [conn, h]
    rfl
  have hmessage : handleMessage gowaves asListed registry hp (conn 0 waves) (.block (some (block 2 1))) =
      .ok ⟨registry, hp', none, some (.block ⟨addr, block 2 1⟩)⟩ := Go.bind_eq_ok.2 ⟨_, hblock, rfl⟩
  exact ⟨⟨rfl, rfl⟩, Go.bind_eq_ok.2 ⟨_, hmessage, rfl⟩⟩

/-- The distributor puts the block while the loader looks, and the loader takes it after that. -/
theorem exists_path {hp hp' : Linkage} (h : hp.putBlock gowaves (block 2 1) addr = .ok hp') :
    ∃ tr, Path Serves (idle hp) tr (idle hp') ∧ tr.flatMap made = [.block ⟨addr, block 2 1⟩] := by
  let looked : Service anyName := { withBlock (syncing hp') with handling := some (.done ⟨none, none, ⟨∅⟩⟩) }
  let takes : Service anyName := (idle hp').handle gowaves (.block 0 addr (some (block 2 1)))
  have hsync : Serves (idle hp) (.sync 0 (.listed _ _) (.listed _ _) asListed 0) (syncing hp) := ⟨⟨rfl, rfl⟩, rfl⟩
  have hlooks : Serves (withBlock (syncing hp')) .loads looked :=
    ⟨⟨rfl, by simp [withBlock, syncing, Service.handle]⟩, rfl⟩
  have hlooked : Serves looked .loads (withBlock (idle hp')) := ⟨⟨rfl, by simp [looked]⟩, rfl⟩
  have htakes : Serves (withBlock (idle hp')) (.handoff 0) takes := ⟨⟨⟨rfl, rfl⟩, by simp [withBlock]⟩, rfl⟩
  have htaken : Serves takes .loads (idle hp') := ⟨⟨rfl, by simp [takes, Service.handle]⟩, rfl⟩
  exact ⟨_, .cons hsync (.cons (blocked_sends h) (.cons hlooks (.cons hlooked (.cons htakes (.cons htaken (.nil _)))))),
    rfl⟩

end Sample

/-- The loader takes a block that the distributor has put while the loader looked for a peer, and a list is on its
way. -/
theorem run_carried_sample : ∃ hp hp', Chains.Sample.after [] = .ok hp ∧
    hp.putBlock Chains.Sample.gowaves (Chains.Sample.block 2 1) Peers.Sample.addr = .ok hp' ∧
    ∃ ltr, Path (AmongStep Chains.Sample.gowaves Peers.Sample.cmpMinor)
        ((newLoader Peers.Sample.registry hp).site Loading.Sample.anyName) ltr (Sample.sending hp').site ∧
      ltr.flatMap taken = [.block ⟨Peers.Sample.addr, Chains.Sample.block 2 1⟩] := by
  obtain ⟨hp, hhp⟩ := Go.exists_of_isOk (x := Chains.Sample.after []) (by decide +kernel)
  obtain ⟨hp', hafter⟩ := Go.exists_of_isOk
    (x := Chains.Sample.after [.putBlock (Chains.Sample.block 2 1) Peers.Sample.addr]) (by decide +kernel)
  have hput : hp.putBlock Chains.Sample.gowaves (Chains.Sample.block 2 1) Peers.Sample.addr = .ok hp' := by
    obtain ⟨hp0, h0, hafter⟩ := Go.bind_eq_ok.1 hafter
    obtain ⟨hp1, h1, hnil⟩ := Go.bind_eq_ok.1 hhp
    rw [h0] at h1
    cases h1
    cases hnil
    exact Path.first_of_foldlM hafter
  obtain ⟨tr, htr, hmade⟩ := Sample.exists_path hput
  obtain ⟨⟨ltr, hltr, hout⟩, -⟩ := run_carried (Chains.Sample.reachable hhp) (.fresh Peers.Sample.registry_new)
    (htr.append (.cons (Sample.listed_sends hp') (.nil _)))
  rw [List.flatMap_append, hmade] at hout
  exact ⟨hp, hp', hhp, hput, ltr, hltr, List.append_cancel_right hout⟩

end Node
end ForkDetector
