import ForkDetector.Lib.BigEndian
import ForkDetector.Loading.Arrival
import ForkDetector.Node.Distributor
import ForkDetector.Peers.Listing
/-!
# Messages — what the distributor does with a message

The messages of `distributor.go` and their handlers, and the filter of `connection_manager.go` before them.  What a
handler does to the registry and to the linkage is one of their operations, or nothing.
-/
namespace ForkDetector
namespace Node

open Proto (BlockID Gowaves MicroBlockInv Version Conn)
open Chains (Linkage Call)
open Peers (Registry Peer Op)
open Loading (BlockPackage)

/-! ## Messages -/

structure Signature where
  bytes : Bytes
  size : bytes.length = Proto.signatureSize
deriving DecidableEq

def newBlockIDFromSignature (s : Signature) : BlockID := ⟨s.bytes, .inr s.size⟩

/-- A message of a peer.  A block or an announcement is what its bytes decode to, and the addresses are what their texts
parse to. -/
inductive Message where
  | getPeers
  | peers (peers : List (Option AddrPort))
  | signatures (signatures : List Signature)
  | block (block : Option Proto.Block)
  | score (score : Bytes)
  | microBlockInv (inv : Option MicroBlockInv)
  | pbBlock (block : Option Proto.Block)
  | blockIDs (blocks : List BlockID)
  /-- A message of any other kind. -/
  | other

inductive ContentID where
  | getPeers
  | peers
  | getSignatures
  | signatures
  | getBlock
  | block
  | score
  | transaction
  | invMicroblock
  | checkpoint
  | microblockRequest
  | microblock
  | pbBlock
  | pbMicroBlock
  | pbTransaction
  | getBlockIDs
  | blockIDs
  | getBlockSnapshot
  | microBlockSnapshot
  | blockSnapshot
  | microBlockSnapshotRequest
  /-- An ID that the table of the connection manager does not list. -/
  | unlisted
deriving DecidableEq

def ContentID.discarded : ContentID → Option Bool
  | .getPeers | .peers | .signatures | .block | .score | .invMicroblock | .pbBlock | .blockIDs => some false
  | .unlisted => none
  | _ => some true

def skipFunc (contentID : ContentID) : Bool := contentID.discarded.getD false

def Message.HasContentID : Message → ContentID → Prop
  | .getPeers, id => id = .getPeers
  | .peers _, id => id = .peers
  | .signatures _, id => id = .signatures
  | .block _, id => id = .block
  | .score _, id => id = .score
  | .microBlockInv _, id => id = .invMicroblock
  | .pbBlock _, id => id = .pbBlock
  | .blockIDs _, id => id = .blockIDs
  | .other, id => id ∉ [.getPeers, .peers, .signatures, .block, .score, .invMicroblock, .pbBlock, .blockIDs]

/-- The filter skips no message that has a handler, and all others with a listed ID. -/
theorem skipFunc_iff {m : Message} {id : ContentID} (h : m.HasContentID id) (hl : id ≠ .unlisted) :
    skipFunc id = true ↔ m = .other := by
  cases m with
  | other =>
    refine iff_of_true ?_ rfl
    unfold Message.HasContentID at h
    revert h hl
    cases id <;> decide
  | _ => cases h; exact iff_of_false (by decide) (by simp)

/-! ## Handlers -/

/-- What the distributor sends to the loader. -/
inductive Package where
  | ids (peer : Addr) (ids : List BlockID)
  | block (package : BlockPackage)

/-- What is left of a message: the registry and the linkage, the answer to a request for peers, and what the distributor
goes on to send to the loader. -/
structure Handled where
  registry : Registry
  linkage : Linkage
  reply : Option (List AddrPort)
  package : Option Package

def handleSignaturesMessage (np : Conn) (signatures : List Signature) : Option Package :=
  match np.remote with
  | none => none
  | some ap => some (.ids ap.addr (signatures.map newBlockIDFromSignature))

def handleBlockIDsMessage (np : Conn) (ids : List BlockID) : Option Package :=
  match np.remote with
  | none => none
  | some ap => if ids = [] then none else some (.ids ap.addr ids)

def handleBlockMessage (gw : Gowaves) (linkage : Linkage) (np : Conn) :
    Option Proto.Block → Res (Linkage × Option Package)
  | none => .ok (linkage, none)
  | some b => do
    match ← Go.attempt (Loading.Distributor.handleBlock gw linkage b np.remote) with
    | .error _ => .ok (linkage, none)
    | .ok (linkage, package) => .ok (linkage, some (.block package))

def handleProtoBlockMessage (gw : Gowaves) (linkage : Linkage) (np : Conn) :
    Option Proto.Block → Res (Linkage × Option Package) := handleBlockMessage gw linkage np

def handleMicroBlockInvMessage (linkage : Linkage) (np : Conn) : Option MicroBlockInv → Res Linkage
  | none => .ok linkage
  | some inv => Loading.Distributor.handleMicroBlockInvMessage linkage inv np.remote

def handleMessage {byName : Peer → Peer → Bool} (gw : Gowaves) (srt : Go.UnstableSort Peer byName) (r : Registry)
    (linkage : Linkage) (np : Conn) : Message → Res Handled
  | .getPeers => do
    let reply ← r.handleGetPeersMessage srt
    .ok ⟨r, linkage, reply, none⟩
  | .peers peers => do
    let r ← handlePeersMessage r peers
    .ok ⟨r, linkage, none, none⟩
  | .signatures signatures => .ok ⟨r, linkage, none, handleSignaturesMessage np signatures⟩
  | .block block => do
    let (linkage, package) ← handleBlockMessage gw linkage np block
    .ok ⟨r, linkage, none, package⟩
  | .score score => do
    let r ← handleScoreMessage r np (BigEndian.decode score)
    .ok ⟨r, linkage, none, none⟩
  | .microBlockInv inv => do
    let linkage ← handleMicroBlockInvMessage linkage np inv
    .ok ⟨r, linkage, none, none⟩
  | .pbBlock block => do
    let (linkage, package) ← handleProtoBlockMessage gw linkage np block
    .ok ⟨r, linkage, none, package⟩
  | .blockIDs blocks => .ok ⟨r, linkage, none, handleBlockIDsMessage np blocks⟩
  | .other => .ok ⟨r, linkage, none, none⟩

/-! ## What a handler does -/

section
variable {gw : Gowaves} {cmpMinor : Version → Version → Int} {byName : Peer → Peer → Bool}
  {srt : Go.UnstableSort Peer byName} {r r' : Registry} {hp hp' : Linkage} {np : Conn}

theorem handleBlockMessage_call {block : Option Proto.Block} {package : Option Package}
    (h : handleBlockMessage gw hp np block = .ok (hp', package)) : hp' = hp ∨ ∃ c, hp.call gw c = .ok hp' := by
  unfold handleBlockMessage at h
  split at h
  · cases h
    exact .inl rfl
  · rename_i b
    obtain ⟨x, hx, h⟩ := Go.bind_eq_ok.1 h
    split at h
    · cases h
      exact .inl rfl
    · cases h
      have hb := Go.attempt_eq_ok.1 hx
      unfold Loading.Distributor.handleBlock at hb
      split at hb
      · cases hb
      · rename_i ap hap
        split at hb
        · rename_i hput
          cases hb
          exact .inr ⟨.putBlock b ap.addr, hput⟩
        · cases hb
        · split at hb
          · cases hb
            exact .inl rfl
          · cases hb

theorem handleMicroBlockInvMessage_call {inv : Option MicroBlockInv}
    (h : handleMicroBlockInvMessage hp np inv = .ok hp') : hp' = hp ∨ ∃ c, hp.call gw c = .ok hp' := by
  unfold handleMicroBlockInvMessage at h
  split at h
  · cases h
    exact .inl rfl
  · rename_i inv
    unfold Loading.Distributor.handleMicroBlockInvMessage at h
    split at h
    · cases h
      exact .inl rfl
    · rename_i ap hap
      split at h
      · rename_i hput
        cases h
        exact .inr ⟨.putMicroBlock inv ap.addr, hput⟩
      · cases h
      · cases h
        exact .inl rfl

/-- **A message is at most one call on the linkage.** -/
theorem handleMessage_call {m : Message} {x : Handled} (h : handleMessage gw srt r hp np m = .ok x) :
    x.linkage = hp ∨ ∃ c, hp.call gw c = .ok x.linkage := by
  cases m with
  | getPeers | peers | score =>
    obtain ⟨_, _, h⟩ := Go.bind_eq_ok.1 h
    cases h
    exact .inl rfl
  | signatures | blockIDs | other =>
    cases h
    exact .inl rfl
  | block | pbBlock =>
    obtain ⟨⟨hp', package⟩, hb, h⟩ := Go.bind_eq_ok.1 h
    cases h
    exact handleBlockMessage_call hb
  | microBlockInv =>
    obtain ⟨hp', hb, h⟩ := Go.bind_eq_ok.1 h
    cases h
    exact handleMicroBlockInvMessage_call hb

/-- **A message is at most one event of the net.** -/
theorem handleMessage_event (cmpMinor : Version → Version → Int) {m : Message} {x : Handled} {s : Net}
    (h : handleMessage gw srt s.registry hp np m = .ok x) : x.registry = s.registry ∨
      ∃ e, Step cmpMinor s e { s with registry := x.registry } := by
  cases m with
  | getPeers | block | pbBlock | microBlockInv =>
    obtain ⟨_, _, h⟩ := Go.bind_eq_ok.1 h
    cases h
    exact .inl rfl
  | signatures | blockIDs | other =>
    cases h
    exact .inl rfl
  | peers peers =>
    obtain ⟨r, hr, h⟩ := Go.bind_eq_ok.1 h
    cases h
    exact .inr ⟨.peersMessage peers, trivial, Go.bind_eq_ok.2 ⟨r, hr, rfl⟩⟩
  | score score =>
    obtain ⟨r, hr, h⟩ := Go.bind_eq_ok.1 h
    cases h
    exact .inr ⟨.scoreMessage np (BigEndian.decode score), trivial, Go.bind_eq_ok.2 ⟨r, hr, rfl⟩⟩

end

/-! ## What an event of the net does -/

/-- The operation of the registry that an event makes. -/
def Event.op : Event → Option Op
  | .connected now np => np.remote.map fun ap => .registerPeer now ap.addr np np.handshake
  | .internalErr now np => np.remote.map fun ap => .unregisterPeer now ap.addr
  | .scoreMessage np score => np.remote.map fun ap => .updatePeerScore ap.addr score
  | .peersMessage addresses => some (.appendAddresses addresses)
  | .suggestVersion now addr => some (.suggestVersion now addr)
  | .respawn now => some (.takeAvailableAddresses now)
  | .dialEnded _ => none
  | .dialFailed now ap _ => some (.unregisterPeer now ap.addr)

/-- **An event of the net is at most one operation of the registry.** -/
theorem Net.apply_op {cmpMinor : Version → Version → Int} {s s' : Net} {e : Event} (h : s.apply cmpMinor e = .ok s') :
    e.op = none ∧ s'.registry = s.registry ∨
      ∃ op, e.op = some op ∧ s.registry.apply cmpMinor op = .ok s'.registry := by
  cases e with
  | connected now np =>
    obtain ⟨⟨r, accepted⟩, hc, he⟩ := Go.bind_eq_ok.1 h
    have hs : s'.registry = r := by
      cases he
      unfold accept
      split
      · split <;> rfl
      · rfl
    rw [hs]
    unfold handleConnected at hc
    split at hc
    · rename_i hno
      cases hc
      exact .inl ⟨by rw [Event.op, hno]; rfl, rfl⟩
    · rename_i ap hap
      obtain ⟨a, ha, hc⟩ := Go.bind_eq_ok.1 hc
      cases hc
      exact .inr ⟨.registerPeer now ap.addr np np.handshake, by rw [Event.op, hap]; rfl, Go.bind_eq_ok.2 ⟨a, ha, rfl⟩⟩
  | internalErr now np =>
    obtain ⟨r, hi, he⟩ := Go.bind_eq_ok.1 h
    cases he
    unfold handleInternalError at hi
    split at hi
    · rename_i hno
      cases hi
      exact .inl ⟨by rw [Event.op, hno]; rfl, rfl⟩
    · rename_i ap hap
      obtain ⟨a, ha, he⟩ := Go.bind_eq_ok.1 hi
      cases he
      exact .inr ⟨.unregisterPeer now ap.addr, by rw [Event.op, hap]; rfl, Go.bind_eq_ok.2 ⟨a, ha, rfl⟩⟩
  | scoreMessage np score =>
    obtain ⟨r, hi, he⟩ := Go.bind_eq_ok.1 h
    cases he
    unfold handleScoreMessage at hi
    split at hi
    · rename_i hno
      cases hi
      exact .inl ⟨by rw [Event.op, hno]; rfl, rfl⟩
    · rename_i ap hap
      obtain ⟨a, ha, he⟩ := Go.bind_eq_ok.1 hi
      cases he
      exact .inr ⟨.updatePeerScore ap.addr score, by rw [Event.op, hap]; rfl, Go.bind_eq_ok.2 ⟨a, ha, rfl⟩⟩
  | peersMessage addresses =>
    obtain ⟨r, hi, he⟩ := Go.bind_eq_ok.1 h
    cases he
    obtain ⟨a, ha, he⟩ := Go.bind_eq_ok.1 hi
    cases he
    exact .inr ⟨_, rfl, Go.bind_eq_ok.2 ⟨a, ha, rfl⟩⟩
  | suggestVersion now addr =>
    obtain ⟨a, ha, he⟩ := Go.bind_eq_ok.1 h
    cases he
    exact .inr ⟨_, rfl, Go.bind_eq_ok.2 ⟨a, ha, rfl⟩⟩
  | respawn now =>
    obtain ⟨a, ha, he⟩ := Go.bind_eq_ok.1 h
    refine .inr ⟨_, rfl, Go.bind_eq_ok.2 ⟨a, ha, ?_⟩⟩
    split at he <;> cases he <;> rfl
  | dialEnded ap =>
    cases h
    exact .inl ⟨rfl, rfl⟩
  | dialFailed now ap own =>
    obtain ⟨a, ha, he⟩ := Go.bind_eq_ok.1 h
    cases he
    exact .inr ⟨_, rfl, Go.bind_eq_ok.2 ⟨a, ha, rfl⟩⟩

theorem Net.apply_registry {cmpMinor : Version → Version → Int} {s s' : Net} {e : Event}
    (h : s.apply cmpMinor e = .ok s') : s'.registry = s.registry ∨
      ∃ op, s.registry.apply cmpMinor op = .ok s'.registry :=
  (apply_op h).imp And.right fun ⟨op, _, hop⟩ => ⟨op, hop⟩

end Node
end ForkDetector
