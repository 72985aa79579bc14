import ForkDetector.Chains.Batch
import ForkDetector.Loading.Reports
import ForkDetector.Loading.Timeout
import ForkDetector.Loading.Wedge
/-!
# Arrival — the blocks that are requested, in the order in which they come

A block goes to the linkage at once and to the loader after that, and the loader puts the whole batch again, in the
order of the request, when its last block is there.  So the order of arrival does not matter: `batch_loaded`.
-/
namespace ForkDetector
namespace Loading

open Proto (BlockID Gowaves MicroBlockInv)
open Chains (Linkage Reachable Batch BlockTree Mirrors PlacedAs Chained)
open Run (Path Link)

/-! ## The distributor -/

structure BlockPackage where
  peer : Addr
  block : Proto.Block

namespace Distributor

/-- `Distributor.handleBlock`: the linkage, and what is sent to the loader.  The address is what its text parses to. -/
def handleBlock (gw : Gowaves) (linkage : Linkage) (block : Proto.Block) (addr : Option AddrPort) :
    Res (Linkage × BlockPackage) :=
  match addr with
  | none => Go.fail (.text "failed to parse peer remote address: %w")
  | some ap =>
    match linkage.putBlock gw block ap.addr with
    | .ok linkage => .ok (linkage, ⟨ap.addr, block⟩)
    | .error (.panic msg) => Go.panic msg
    | .error (.err e) =>
      if e.is .parentNotFound then .ok (linkage, ⟨ap.addr, block⟩)
      -- what is wrapped here is the error of the parser, which is nil
      else Go.fail (.text "failed to append block: %w")

def handleMicroBlockInvMessage (linkage : Linkage) (inv : MicroBlockInv) (addr : Option AddrPort) : Res Linkage :=
  match addr with
  | none => .ok linkage
  | some ap =>
    match linkage.putMicroBlock inv ap.addr with
    | .ok linkage => .ok linkage
    | .error (.panic msg) => Go.panic msg
    | .error (.err _) => .ok linkage

end Distributor

/-- A message that the distributor has decoded, with the clock that the loader reads. -/
inductive Message where
  | block (now : Int) (addr : Option AddrPort) (block : Proto.Block)
  | microBlockInv (addr : Option AddrPort) (inv : MicroBlockInv)

namespace Loader

/-- A message on its way through the distributor and the loader. -/
def deliver (gw : Gowaves) (l : Loader) : Message → Res Loader
  | .block now addr block => do
    match ← Go.attempt (Distributor.handleBlock gw l.linkage block addr) with
    | .error _ => .ok l
    | .ok (linkage, package) =>
      handleBlock (.at gw now) { l with linkage := linkage } package.peer (some package.block)
  | .microBlockInv addr inv => do
    let linkage ← Distributor.handleMicroBlockInvMessage l.linkage inv addr
    .ok { l with linkage := linkage }

/-- How often the loader of the peer calls `OK` while the loader handles a block. -/
def okCalls (env : Env) (l : Loader) (peer : Addr) (block : Option Proto.Block) : Nat :=
  match l.pl with
  | none => 0
  | some pl =>
    if peer ≠ pl.peer then 0
    else match PeerLoader.fire env reporter.counted pl.control (.block block) ((l.view pl).mapReport (·, 0)) with
      | .ok (some r) => r.world.r.2
      | _ => 0

/-- How often `OK` is called on the way of a message. -/
def reports (gw : Gowaves) (l : Loader) : Message → Nat
  | .block now addr block =>
    match Distributor.handleBlock gw l.linkage block addr with
    | .ok (linkage, package) => okCalls (.at gw now) { l with linkage := linkage } package.peer (some package.block)
    | .error _ => 0
  | .microBlockInv _ _ => 0

end Loader

def Delivers (gw : Gowaves) (l : Loader) (m : Message) (l' : Loader) : Prop := l.deliver gw m = .ok l'

/-! ## The queue -/

/-- The queue of a batch when the blocks `got` have arrived. -/
def Queue.holding (bs : List Proto.Block) (got : List BlockID) : Queue :=
  bs.map fun b => ⟨b.blockID, if b.blockID ∈ got then some b else none⟩

namespace Queue
variable {bs : List Proto.Block} {got : List BlockID}

theorem holding_nil : holding bs [] = newQueue (bs.map Proto.Block.blockID) := by
  simp [holding, newQueue]

theorem holding_congr {got' : List BlockID} (h : ∀ b ∈ bs, b.blockID ∈ got ↔ b.blockID ∈ got') :
    holding bs got = holding bs got' := by
  refine List.map_congr_left fun b hb => ?_
  simp only [h b hb]

theorem putBlock_holding {b : Proto.Block} : ∀ {bs : List Proto.Block}, (bs.map Proto.Block.blockID).Nodup →
    (b.blockID ∈ bs.map Proto.Block.blockID → b ∈ bs) → putBlock b (holding bs got) = holding bs (got ++ [b.blockID])
  | [], _, _ => rfl
  | a :: bs, hnd, hb => by
    obtain ⟨hnot, hnd⟩ := List.nodup_cons.1 hnd
    show putBlock b (⟨a.blockID, if a.blockID ∈ got then some a else none⟩ :: holding bs got) =
      ⟨a.blockID, if a.blockID ∈ got ++ [b.blockID] then some a else none⟩ :: holding bs (got ++ [b.blockID])
    unfold putBlock
    by_cases ha : a.blockID = b.blockID
    · have hab : b = a := by
        rcases List.mem_cons.1 (hb (by simp [ha])) with h | h
        · exact h
        · exact absurd (List.mem_map_of_mem h) (ha ▸ hnot)
      subst hab
      have hrest : holding bs got = holding bs (got ++ [b.blockID]) := holding_congr fun c hc => by
        have hne : c.blockID ≠ b.blockID := fun he => hnot (he ▸ List.mem_map_of_mem hc)
        simp [hne]
      rw [if_pos rfl, hrest]
      simp
    · have hb' : b.blockID ∈ bs.map Proto.Block.blockID → b ∈ bs := fun h =>
        (List.mem_cons.1 (hb (List.mem_cons_of_mem _ h))).resolve_left fun he => ha (he ▸ rfl)
      rw [if_neg ha, putBlock_holding hnd hb']
      simp [ha]

theorem ready_holding : (holding bs got).ready = true ↔ ∀ b ∈ bs, b.blockID ∈ got := by
  unfold ready holding
  rw [List.all_map, List.all_eq_true]
  refine forall_congr' fun b => forall_congr' fun _ => ?_
  by_cases hb : b.blockID ∈ got <;> simp [Item.isReceived, hb]

theorem blocks_holding (h : ∀ b ∈ bs, b.blockID ∈ got) : (holding bs got).blocks = bs := by
  unfold blocks holding
  rw [List.filterMap_map]
  refine (List.filterMap_congr fun b hb => ?_).trans List.filterMap_some
  simp [h b hb]

end Queue

/-! ## The linkage -/

section
variable {gw : Gowaves} {scheme : Proto.Scheme} {genesis : Proto.Block} {q : Batch} {h : Nat} {hp hp' : Linkage}

/-- The parent of the batch is stored at the height `h`, and so is every block of the batch that came in, where it
says. -/
def Carries (gw : Gowaves) (scheme : Proto.Scheme) (genesis : Proto.Block) (q : Batch) (h : Nat) (hp : Linkage) :
    Prop :=
  ∃ t, Reachable gw scheme genesis hp t ∧ t.Stored q.parent ∧ t.height q.parent = h ∧ ∀ b ∈ q.blocks, PlacedAs t b

theorem Carries.call {c : Chains.Call} (hc : Carries gw scheme genesis q h hp) (hcall : hp.call gw c = .ok hp')
    (hown : c.id ∈ q.ids → ∃ b ∈ q.blocks, ∃ addr, c = .putBlock b addr) : Carries gw scheme genesis q h hp' := by
  obtain ⟨t, hr, hp, hh, hplaced⟩ := hc
  refine ⟨t.call c, hr.call c hcall, hp.call, (BlockTree.call_height hp).trans hh, fun b hb => ?_⟩
  refine (hplaced b hb).call fun hid => ?_
  obtain ⟨b', hb', addr, rfl⟩ := hown (hid ▸ List.mem_map_of_mem hb)
  obtain rfl : b' = b := Batch.eq_of_blockID hb' hb hid
  exact ⟨addr, rfl⟩

/-- **The blocks of a chain are put, one after the other**, whichever of them were there before. -/
theorem exists_putBlocks (hgw : gw.Addresses) (peer : Addr) : ∀ {bs : List Proto.Block} {p : BlockID} {hp : Linkage}
    {t : BlockTree BlockID}, Reachable gw scheme genesis hp t → Chained p bs → (bs.map Proto.Block.blockID).Nodup →
    t.Stored p → t.height p + bs.length < 2 ^ 32 →
    (∀ b ∈ bs, b.baseTarget.toNat ≤ 9223372036854775807 ∧ PlacedAs t b) →
    ∃ hp' t', putBlocks gw peer hp bs = .ok (hp', none) ∧ Reachable gw scheme genesis hp' t' ∧
      (∀ x, t.Stored x → t'.node x = t.node x) ∧ ∀ b ∈ bs, t'.Stored b.blockID ∧ PlacedAs t' b
  | [], p, hp, t, hr, _, _, _, _, _ =>
    ⟨hp, t, rfl, hr, fun _ _ => rfl, fun b hb => absurd hb List.not_mem_nil⟩
  | b :: bs, p, hp, t, hr, hch, hnd, hs, hh, hall => by
    obtain ⟨rfl, hch⟩ := hch
    obtain ⟨hnot, hnd⟩ := List.nodup_cons.1 hnd
    obtain ⟨⟨hbt, hplaced⟩, hall⟩ := List.forall_mem_cons.1 hall
    rw [List.length_cons] at hh
    obtain ⟨hp1, hput⟩ := hr.mirrors.refines.exists_putBlock peer hgw hs hbt (by omega)
    have hr1 : Reachable gw scheme genesis hp1 (t.call (.putBlock b peer)) := .call (.putBlock b peer) hr hput
    obtain ⟨hsb, hpb⟩ := BlockTree.call_putBlock peer hs
    have hhb := ((t.call (.putBlock b peer)).isRooted.step _ _ hsb (hpb hplaced hsb)).2
    have hhp : (t.call (.putBlock b peer)).height b.parent = t.height b.parent := BlockTree.call_height hs
    have hothers : ∀ b' ∈ bs, (Chains.Call.putBlock b peer).id ≠ b'.blockID :=
      fun b' hb' (hid : b.blockID = b'.blockID) => hnot (hid ▸ List.mem_map_of_mem hb')
    obtain ⟨hp', t', hputs, hr', hnode, hrest⟩ := exists_putBlocks hgw peer hr1 hch hnd hsb (by omega)
      fun b' hb' => ⟨(hall b' hb').1, (hall b' hb').2.call fun hid => absurd hid (hothers b' hb')⟩
    refine ⟨hp', t', ?_, hr', fun x hx => ?_, List.forall_mem_cons.2 ⟨?_, hrest⟩⟩
    · unfold putBlocks
      rw [hput]
      exact hputs
    · rw [hnode x hx.call, BlockTree.call_node hx]
    · have hb := hnode _ hsb
      refine ⟨?_, fun _ => ?_⟩
      · unfold BlockTree.Stored
        rw [hb]
        exact hsb
      · have hpar := hpb hplaced hsb
        unfold BlockTree.parent Chains.parentIn at hpar ⊢
        rw [hb]
        exact hpar

/-- **A batch that is there**: its blocks at consecutive heights from `h` on, and the leash of the peer on the last. -/
structure Loaded (q : Batch) (p : Addr) (h : Nat) (hp : Linkage) : Prop where
  blocks : ∀ i b, q.blocks[i]? = some b → ∃ r, hp.st.block b.blockID = .ok r ∧ r.height = h + i + 1
  leash : hp.leash p = .ok q.last

theorem Carries.putBlocks (hgw : gw.Addresses) (hc : Carries gw scheme genesis q h hp) {p : Addr}
    (hbt : ∀ b ∈ q.blocks, b.baseTarget.toNat ≤ 9223372036854775807) (hfit : h + q.blocks.length < 2 ^ 32) :
    ∃ hp' t, Loading.putBlocks gw p hp q.blocks = .ok (hp', none) ∧ Reachable gw scheme genesis hp' t ∧
      Loaded q p h hp' := by
  obtain ⟨t, hr, hs, hh, hplaced⟩ := hc
  obtain ⟨hp', t', hputs, hr', hnode, hall⟩ := exists_putBlocks hgw p hr q.chained q.distinct hs
    (by omega) fun b hb => ⟨hbt b hb, hplaced b hb⟩
  have hh' : t'.height q.parent = h := by
    rw [← hh]
    unfold BlockTree.height Chains.heightIn
    rw [hnode _ hs]
  refine ⟨hp', t', hputs, hr', fun i b hi => ?_, ?_⟩
  · have hb := List.mem_of_getElem? hi
    obtain ⟨hsb, hplacedb⟩ := hall b hb
    obtain ⟨r, hrb, hrh, -⟩ := hr'.mirrors.getBlock_of_stored hsb
    obtain ⟨hsp, hhb⟩ := t'.isRooted.step _ _ hsb (hplacedb hsb)
    obtain ⟨-, hhp⟩ := q.chained.parent_height (fun b hb => (hall b hb).2) i b hi hsp
    exact ⟨r, hrb, by omega⟩
  · rw [leash_putBlocks hputs, List.getLast?_eq_getLast_of_ne_nil q.nonempty]
    rfl

/-- **What the distributor does with a block**: it goes on to the loader, put or not. -/
theorem Carries.handleBlock (hgw : gw.Addresses) (hc : Carries gw scheme genesis q h hp) {b : Proto.Block}
    (ap : AddrPort) (hbt : b.baseTarget.toNat ≤ 9223372036854775807) (hown : b.blockID ∈ q.ids → b ∈ q.blocks)
    (hfit : h + q.blocks.length < 2 ^ 32)
    (hfits : b.blockID ∉ q.ids → ∀ pb, hp.st.block b.parent = .ok pb → pb.height + 1 < 2 ^ 32) :
    ∃ hp', Distributor.handleBlock gw hp b (some ap) = .ok (hp', ⟨ap.addr, b⟩) ∧ Carries gw scheme genesis q h hp' := by
  have hput : ∀ hp', hp.putBlock gw b ap.addr = .ok hp' →
      Distributor.handleBlock gw hp b (some ap) = .ok (hp', ⟨ap.addr, b⟩) ∧ Carries gw scheme genesis q h hp' :=
    fun hp' hput => ⟨by unfold Distributor.handleBlock; simp only [hput],
      hc.call (c := .putBlock b ap.addr) hput fun hid => ⟨b, hown hid, ap.addr, rfl⟩⟩
  obtain ⟨t, hr, -, hh, hplaced⟩ := id hc
  have R := hr.mirrors.refines
  by_cases hs : t.Stored b.blockID
  · exact ⟨_, hput _ (R.putBlock_stored hs)⟩
  · by_cases hps : t.Stored b.parent
    · have hheight : t.height b.parent + 1 < 2 ^ 32 := by
        by_cases hb : b.blockID ∈ q.ids
        · obtain ⟨i, hi, hib⟩ := List.getElem_of_mem (hown hb)
          have := (q.chained.parent_height hplaced i b (List.getElem?_eq_some_iff.2 ⟨hi, hib⟩) hps).2
          omega
        · obtain ⟨pb, hpb, hpbh, -⟩ := hr.mirrors.getBlock_of_stored hps
          exact hpbh ▸ hfits hb pb hpb
      obtain ⟨hp', hhp⟩ := R.exists_putBlock ap.addr hgw hps hbt hheight
      exact ⟨hp', hput hp' hhp⟩
    · refine ⟨hp, ?_, hc⟩
      unfold Distributor.handleBlock
      simp only [R.putBlock_orphan ap.addr hs hps]
      rfl

theorem Carries.handleMicroBlockInvMessage (hc : Carries gw scheme genesis q h hp) {inv : MicroBlockInv}
    (addr : Option AddrPort) (hown : inv.totalBlockID ∉ q.ids) :
    ∃ hp', Distributor.handleMicroBlockInvMessage hp inv addr = .ok hp' ∧ Carries gw scheme genesis q h hp' := by
  unfold Distributor.handleMicroBlockInvMessage
  cases addr with
  | none => exact ⟨hp, rfl, hc⟩
  | some ap =>
    obtain ⟨t, hr, -⟩ := id hc
    have hno := hr.mirrors.refines.putMicroBlock_noPanic ap.addr inv
    cases hput : hp.putMicroBlock inv ap.addr with
    | ok hp' =>
      exact ⟨hp', by simp only [hput], hc.call (c := .putMicroBlock inv ap.addr) hput fun hid => absurd hid hown⟩
    | error f =>
      cases f with
      | err e => exact ⟨hp, by simp only [hput], hc⟩
      | panic msg => exact absurd hput (hno msg)

end

/-! ## The loader -/

/-- The report of a batch returns where the record of the peer has a score. -/
theorem exists_reportOK {gw : Gowaves} {hp : Linkage} {t : BlockTree BlockID} (M : Mirrors gw hp t) {peer : Addr}
    {l : Report} (hs : ∃ sp, l.registry.storage.peer peer = .ok sp ∧ sp.score ≠ none) :
    ∃ r again, reportOK .idle peer hp l = .ok (r, again) := by
  obtain ⟨sp, hsp, hne⟩ := hs
  obtain ⟨peerScore, hps⟩ := Option.ne_none_iff_exists'.1 hne
  obtain ⟨score, hscore⟩ := M.exists_leashScore peer
  unfold reportOK
  split
  · simp only [hsp, hscore, hps]
    split <;> exact ⟨_, _, rfl⟩
  · exact ⟨_, _, rfl⟩

theorem exists_requestIDs {ρ : Type} {env : Env} {gw : Gowaves} {s : PeerLoader ρ} {t : BlockTree BlockID}
    (M : Mirrors gw s.hp t) : ∃ d, s.requestIDs env = .ok d := by
  obtain ⟨k, hk, hs⟩ := M.leash_stored s.peer
  unfold PeerLoader.requestIDs PeerLoader.requestIDsFrom
  rw [hk]
  show ∃ d, Go.attempt (s.hp.lastIDs k idsBatchSize) >>= _ = .ok d
  rw [show s.hp.lastIDs k idsBatchSize = _ from M.refines.getAncestors_eq hs idsBatchSize]
  exact ⟨_, rfl⟩

namespace Loader
variable {env : Env} {l : Loader} {pl : Held} {b : Option Proto.Block}

/-- What the counted run of the loader of the peer says about the loader. -/
theorem handleBlock_of_fire (hpl : l.pl = some pl) {x : Settled (Report × Nat)}
    (hx : PeerLoader.fire env reporter.counted pl.control (.block b) ((l.view pl).mapReport (·, 0)) = .ok (some x)) :
    l.handleBlock env pl.peer b = .ok (keep (x.map (PeerLoader.mapReport Prod.fst))) ∧
      l.okCalls env pl.peer b = x.world.r.2 := by
  have hfire : PeerLoader.fire env reporter pl.control (.block b) (l.view pl) =
      .ok (some (x.map (PeerLoader.mapReport Prod.fst))) := by
    refine (fire_counted pl.control (.block b) ((l.view pl).mapReport (·, 0))).trans ?_
    rw [hx]
    rfl
  constructor
  · unfold handleBlock fire
    simp only [hpl, ne_eq, not_true_eq_false, if_false, hfire]
    rfl
  · unfold okCalls
    simp only [hpl, ne_eq, not_true_eq_false, if_false, hx]

theorem handleBlock_of_ne {peer : Addr} (hpl : l.pl = some pl) (hne : peer ≠ pl.peer) :
    l.handleBlock env peer b = .ok l ∧ l.okCalls env peer b = 0 := by
  unfold handleBlock okCalls
  simp only [hpl, if_pos hne]
  exact ⟨trivial, trivial⟩

end Loader

/-! ## One message -/

namespace Message

/-- The ID of the block that comes from the peer. -/
def arrives (p : Addr) : Message → Option BlockID
  | .block _ (some ap) b => if ap.addr = p then some b.blockID else none
  | _ => none

/-- A base target in range, and under the IDs of the batch nothing but its blocks. -/
def Fair (q : Batch) : Message → Prop
  | .block _ _ b => b.baseTarget.toNat ≤ 9223372036854775807 ∧ (b.blockID ∈ q.ids → b ∈ q.blocks)
  | .microBlockInv _ inv => inv.totalBlockID ∉ q.ids

/-- No block on one of the largest height, beside those of the batch. -/
def Fits (q : Batch) (hp : Linkage) : Message → Prop
  | .block _ _ b => b.blockID ∉ q.ids → ∀ pb, hp.st.block b.parent = .ok pb → pb.height + 1 < 2 ^ 32
  | .microBlockInv _ _ => True

end Message

def arrived (p : Addr) (ms : List Message) : List BlockID := ms.filterMap (Message.arrives p)

def Complete (q : Batch) (got : List BlockID) : Prop := ∀ x ∈ q.ids, x ∈ got

/-- The message that completes a batch brings a block of it. -/
theorem Message.fits_of_last {q : Batch} {p : Addr} {got : List BlockID} {hp : Linkage} (m : Message)
    (hmissing : ¬ Complete q got) (hc : Complete q (got ++ (m.arrives p).toList)) : m.Fits q hp := by
  cases m with
  | microBlockInv addr inv => trivial
  | block now addr b =>
    refine fun hb => absurd (fun x hx => ?_) hmissing
    refine (List.mem_append.1 (hc x hx)).resolve_right fun hxb => hb ?_
    cases addr with
    | none => cases hxb
    | some ap =>
      by_cases hap : ap.addr = p
      · have hxb : x = b.blockID := by simpa [arrives, hap] using hxb
        exact hxb ▸ hx
      · simp [arrives, hap] at hxb

/-- The loader while it waits for the batch, the blocks `got` come from the peer. -/
structure Midway (gw : Gowaves) (scheme : Proto.Scheme) (genesis : Proto.Block) (q : Batch) (p : Addr) (h : Nat)
    (got : List BlockID) (l : Loader) : Prop where
  carries : Carries gw scheme genesis q h l.linkage
  held : ∃ pl, l.pl = some pl ∧ pl.control = ⟨.waitingForBlocks, []⟩ ∧ pl.peer = p ∧
    pl.queue = Queue.holding q.blocks got
  scored : ∃ sp, l.registry.storage.peer p = .ok sp ∧ sp.score ≠ none

theorem Loader.deliver_block {gw : Gowaves} {l : Loader} {hp : Linkage} (now : Int) {addr : Option AddrPort}
    {b : Proto.Block} {k : BlockPackage} (h : Distributor.handleBlock gw l.linkage b addr = .ok (hp, k)) :
    l.deliver gw (.block now addr b) = Loader.handleBlock (.at gw now) { l with linkage := hp } k.peer (some k.block) ∧
      l.reports gw (.block now addr b) =
        Loader.okCalls (.at gw now) { l with linkage := hp } k.peer (some k.block) := by
  unfold deliver reports
  simp only [h]
  exact ⟨rfl, trivial⟩

namespace Midway
variable {gw : Gowaves} {scheme : Proto.Scheme} {genesis : Proto.Block} {q : Batch} {p : Addr} {h : Nat}
  {got : List BlockID} {l : Loader} {env : Env} {b : Proto.Block}

theorem withLinkage (hm : Midway gw scheme genesis q p h got l) {hp : Linkage} (hc : Carries gw scheme genesis q h hp) :
    Midway gw scheme genesis q p h got { l with linkage := hp } := ⟨hc, hm.held, hm.scored⟩

/-- **A block while others are missing** is kept in the queue. -/
theorem handleBlock (hm : Midway gw scheme genesis q p h got l) (hown : b.blockID ∈ q.ids → b ∈ q.blocks)
    (hmissing : ¬ Complete q (got ++ [b.blockID])) : ∃ l', l.handleBlock env p (some b) = .ok l' ∧
      l.okCalls env p (some b) = 0 ∧ Midway gw scheme genesis q p h (got ++ [b.blockID]) l' := by
  obtain ⟨⟨control, peer, timestamp, queue, sent⟩, hpl, rfl, rfl, rfl⟩ := hm.held
  have hput : Queue.put (Queue.holding q.blocks got) (some b) = Queue.holding q.blocks (got ++ [b.blockID]) :=
    Queue.putBlock_holding q.distinct hown
  have hready : (Queue.put (Queue.holding q.blocks got) (some b)).ready = false := by
    rw [hput, ← Bool.not_eq_true, Queue.ready_holding]
    exact fun hall => hmissing fun x hx => by
      obtain ⟨c, hc, rfl⟩ := List.mem_map.1 hx
      exact hall c hc
  obtain ⟨hl, hok⟩ := Loader.handleBlock_of_fire (x := settled .waitingForBlocks _ none) hpl (fire_received hready)
  exact ⟨_, hl, hok, hm.carries, ⟨_, rfl, rfl, rfl, hput⟩, hm.scored⟩

/-- **The last block that was missing**: the batch is put, and reported once. -/
theorem handleBlock_last (hgw : gw.Addresses) (henv : env.gw = gw) (hm : Midway gw scheme genesis q p h got l)
    (hbt : ∀ b ∈ q.blocks, b.baseTarget.toNat ≤ 9223372036854775807) (hfit : h + q.blocks.length < 2 ^ 32)
    (hown : b.blockID ∈ q.ids → b ∈ q.blocks) (hall : Complete q (got ++ [b.blockID])) :
    ∃ l', l.handleBlock env p (some b) = .ok l' ∧ l.okCalls env p (some b) = 1 ∧ Loaded q p h l'.linkage := by
  obtain ⟨⟨control, peer, timestamp, queue, sent⟩, hpl, rfl, rfl, rfl⟩ := hm.held
  have hput : Queue.put (Queue.holding q.blocks got) (some b) = Queue.holding q.blocks (got ++ [b.blockID]) :=
    Queue.putBlock_holding q.distinct hown
  have hgot : ∀ c ∈ q.blocks, c.blockID ∈ got ++ [b.blockID] := fun c hc => hall _ (List.mem_map_of_mem hc)
  have hready : (Queue.put (Queue.holding q.blocks got) (some b)).ready = true := by
    rw [hput]
    exact Queue.ready_holding.2 hgot
  obtain ⟨hp, t, hputs, hr, hloaded⟩ := hm.carries.putBlocks hgw (p := peer) hbt hfit
  rw [← henv, ← Queue.blocks_holding hgot, ← hput] at hputs
  obtain ⟨r, again, hrep⟩ := exists_reportOK hr.mirrors (l := ⟨true, l.prevDiff, l.fc, l.registry⟩) hm.scored
  have hok : reporter.counted.OK .idle peer hp (⟨true, l.prevDiff, l.fc, l.registry⟩, 0) = .ok ((r, 1), again) := by
    simp only [Reporter.counted, reporter, hrep, Except.map]
  obtain ⟨x, hx, hxp, hxr⟩ := fire_loaded
    (s := (l.view ⟨⟨.waitingForBlocks, []⟩, peer, timestamp, Queue.holding q.blocks got, sent⟩).mapReport (·, 0))
    hready hputs hok (exists_requestIDs hr.mirrors)
  obtain ⟨hl, hcount⟩ := Loader.handleBlock_of_fire hpl hx
  refine ⟨_, hl, hcount.trans (by rw [hxr]), ?_⟩
  rw [← hxp] at hloaded
  exact hloaded

/-- **A message while blocks are missing**: the loader waits on, unless it brings the last of them. -/
theorem deliver (hgw : gw.Addresses) (hm : Midway gw scheme genesis q p h got l)
    (hbt : ∀ b ∈ q.blocks, b.baseTarget.toNat ≤ 9223372036854775807) (hfit : h + q.blocks.length < 2 ^ 32)
    (hmissing : ¬ Complete q got) {m : Message} (hfair : m.Fair q) (hfits : m.Fits q l.linkage) :
    ∃ l', l.deliver gw m = .ok l' ∧
      (¬ Complete q (got ++ (m.arrives p).toList) ∧ l.reports gw m = 0 ∧
          Midway gw scheme genesis q p h (got ++ (m.arrives p).toList) l' ∨
        Complete q (got ++ (m.arrives p).toList) ∧ l.reports gw m = 1 ∧ Loaded q p h l'.linkage) := by
  cases m with
  | microBlockInv addr inv =>
    obtain ⟨hp, hhp, hc⟩ := hm.carries.handleMicroBlockInvMessage addr hfair
    refine ⟨{ l with linkage := hp }, Go.bind_eq_ok.2 ⟨hp, hhp, rfl⟩, .inl ⟨?_, rfl, ?_⟩⟩
    · simpa [Message.arrives] using hmissing
    · simpa [Message.arrives] using hm.withLinkage hc
  | block now addr b =>
    cases addr with
    | none => exact ⟨l, rfl, .inl ⟨by simpa [Message.arrives] using hmissing, rfl, by simpa [Message.arrives] using hm⟩⟩
    | some ap =>
      obtain ⟨hp, hhp, hc⟩ := hm.carries.handleBlock hgw ap hfair.1 hfair.2 hfit hfits
      obtain ⟨hdeliver, hreports⟩ := Loader.deliver_block now hhp
      have hm' := hm.withLinkage hc
      rw [hdeliver, hreports]
      by_cases hap : ap.addr = p
      · have harr : (Message.arrives p (.block now (some ap) b)).toList = [b.blockID] := by simp [Message.arrives, hap]
        rw [harr, hap]
        by_cases hall : Complete q (got ++ [b.blockID])
        · have henv : (Env.at gw now).gw = gw := rfl
          obtain ⟨l', hl, hok, hloaded⟩ := hm'.handleBlock_last hgw henv hbt hfit hfair.2 hall
          exact ⟨l', hl, .inr ⟨hall, hok, hloaded⟩⟩
        · obtain ⟨l', hl, hok, hmid⟩ := hm'.handleBlock hfair.2 hall
          exact ⟨l', hl, .inl ⟨hall, hok, hmid⟩⟩
      · have harr : (Message.arrives p (.block now (some ap) b)).toList = [] := by simp [Message.arrives, hap]
        obtain ⟨pl, hpl, -, hpeer, -⟩ := hm'.held
        obtain ⟨hl, hok⟩ := Loader.handleBlock_of_ne hpl (hpeer.symm ▸ hap)
        rw [harr, List.append_nil]
        exact ⟨_, hl, .inl ⟨hmissing, hok, hm'⟩⟩

end Midway

/-! ## All messages -/

def HeightsFit (gw : Gowaves) (q : Batch) : Loader → List Message → Prop
  | _, [] => True
  | l, m :: ms => m.Fits q l.linkage ∧ ∀ l', l.deliver gw m = .ok l' → HeightsFit gw q l' ms

def Loader.WaitsForBlocks (l : Loader) (p : Addr) : Prop :=
  ∃ pl, l.pl = some pl ∧ pl.control.state = .waitingForBlocks ∧ pl.peer = p

/-- The loader just after it has requested a batch from the peer: none of its blocks is stored, and their parent is, at
the height `h`.  `Loader.sync` chooses peers with a score only, and they keep it (`run_scored`). -/
structure Loader.Awaits (l : Loader) (q : Batch) (p : Addr) (h : Nat) : Prop where
  held : ∃ pl, l.pl = some pl ∧ pl.control = ⟨.waitingForBlocks, []⟩ ∧ pl.peer = p ∧ pl.queue = newQueue q.ids
  new : ∀ x ∈ q.ids, ¬ l.linkage.Has x
  parent : ∃ b, l.linkage.st.block q.parent = .ok b ∧ b.height = h
  scored : ∃ sp, l.registry.storage.peer p = .ok sp ∧ sp.score ≠ none

section
variable {gw : Gowaves} {scheme : Proto.Scheme} {genesis : Proto.Block} {q : Batch} {p : Addr} {h : Nat}
  {l : Loader} {t : BlockTree BlockID}

theorem Loader.Awaits.midway (ha : l.Awaits q p h) (hr : Reachable gw scheme genesis l.linkage t) :
    Midway gw scheme genesis q p h [] l := by
  have R := hr.mirrors.refines
  obtain ⟨b, hb, hh⟩ := ha.parent
  obtain ⟨n, hn, hbn⟩ := Chains.Storage.getBlockByID_eq_ok.1 hb
  obtain ⟨nd, b', k, hnd, r⟩ := R.of_num hn
  obtain rfl : b' = b := Option.some.inj (r.block.symm.trans hbn)
  obtain ⟨pl, hpl, hcontrol, hpeer, hqueue⟩ := ha.held
  refine ⟨⟨t, hr, BlockTree.stored_of_node hnd, ?_, fun b hb hs => ?_⟩, ⟨pl, hpl, hcontrol, hpeer, ?_⟩, ha.scored⟩
  · rw [← hh, r.block_height, BlockTree.height_eq hnd]
  · exact absurd (R.stored_iff.1 hs) (ha.new _ (List.mem_map_of_mem hb))
  · rw [hqueue, Queue.holding_nil]
    rfl

/-- The run while blocks are missing. -/
theorem Midway.run (hgw : gw.Addresses) (hbt : ∀ b ∈ q.blocks, b.baseTarget.toNat ≤ 9223372036854775807)
    (hfit : h + q.blocks.length < 2 ^ 32) : ∀ {ms : List Message} {l : Loader} {got : List BlockID},
    Midway gw scheme genesis q p h got l → (∀ m ∈ ms, m.Fair q) → HeightsFit gw q l ms →
    ¬ Complete q (got ++ arrived p ms) →
    ∃ tr l', Path (Delivers gw) l tr l' ∧ tr.map Link.input = ms ∧
      (∀ x ∈ tr, x.pre.reports gw x.input = 0 ∧ x.post.WaitsForBlocks p) ∧
      Midway gw scheme genesis q p h (got ++ arrived p ms) l'
  | [], l, got, hm, _, _, _ => by
    refine ⟨[], l, .nil l, rfl, fun x hx => absurd hx List.not_mem_nil, ?_⟩
    rw [arrived, List.filterMap_nil, List.append_nil]
    exact hm
  | m :: ms, l, got, hm, hfair, hheights, hmissing => by
    have harr : got ++ arrived p (m :: ms) = (got ++ (m.arrives p).toList) ++ arrived p ms := by
      unfold arrived
      cases ha : m.arrives p with
      | none => rw [List.filterMap_cons_none ha]; simp
      | some x => rw [List.filterMap_cons_some ha]; simp
    rw [harr] at hmissing ⊢
    have hnow : ¬ Complete q (got ++ (m.arrives p).toList) := fun hc =>
      hmissing fun x hx => List.mem_append_left _ (hc x hx)
    obtain ⟨hm1, hms⟩ := List.forall_mem_cons.1 hfair
    obtain ⟨l1, hl1, ⟨-, hok, hmid⟩ | ⟨hc, -⟩⟩ := hm.deliver hgw hbt hfit
      (fun hc => hnow fun x hx => List.mem_append_left _ (hc x hx)) hm1 hheights.1
    · obtain ⟨tr, l', htr, hin, hall, hend⟩ := Midway.run hgw hbt hfit hmid hms (hheights.2 l1 hl1) hmissing
      obtain ⟨pl, hpl, hcontrol, hpeer, -⟩ := hmid.held
      refine ⟨⟨l, m, l1⟩ :: tr, l', .cons hl1 htr, by rw [List.map_cons, hin], ?_, hend⟩
      exact List.forall_mem_cons.2 ⟨⟨hok, pl, hpl, by rw [hcontrol], hpeer⟩, hall⟩
    · exact absurd hc hnow

/-- **The order of arrival does not matter.**  While a block of the batch is missing the loader waits and reports
nothing, whatever else comes in; the message that brings the last one is handled to its end, the batch is loaded, and
that is reported once. -/
theorem batch_loaded (hgw : gw.Addresses) (hr : Reachable gw scheme genesis l.linkage t) (ha : l.Awaits q p h)
    (hbt : ∀ b ∈ q.blocks, b.baseTarget.toNat ≤ 9223372036854775807) (hfit : h + q.blocks.length < 2 ^ 32)
    {ms : List Message} (hfair : ∀ m ∈ ms, m.Fair q) (hheights : HeightsFit gw q l ms)
    (hmissing : ¬ Complete q (arrived p ms)) :
    ∃ tr l', Path (Delivers gw) l tr l' ∧ tr.map Link.input = ms ∧
      (∀ x ∈ tr, x.pre.reports gw x.input = 0 ∧ x.post.WaitsForBlocks p) ∧
      ∀ m : Message, m.Fair q → Complete q (arrived p (ms ++ [m])) →
        ∃ l'', l'.deliver gw m = .ok l'' ∧ l'.reports gw m = 1 ∧ Loaded q p h l''.linkage := by
  obtain ⟨tr, l', htr, hin, hall, hmid⟩ := (ha.midway hr).run hgw hbt hfit hfair hheights hmissing
  refine ⟨tr, l', htr, hin, hall, fun m hm hc => ?_⟩
  have harr : arrived p (ms ++ [m]) = arrived p ms ++ (m.arrives p).toList := by
    unfold arrived
    cases ha : m.arrives p with
    | none => simp [ha]
    | some x => simp [ha]
  rw [harr] at hc
  obtain ⟨l'', hl, ⟨hno, -⟩ | ⟨-, hok, hloaded⟩⟩ := hmid.deliver hgw hbt hfit hmissing hm (m.fits_of_last hmissing hc)
  · exact absurd hc hno
  · exact ⟨l'', hl, hok, hloaded⟩

end

namespace Sample
open Chains.Sample (block address publicKey id)
open Peers.Sample (addr registry cmpMinor)

/-- Every key has the address of the key of zeros. -/
def hashes : Gowaves := ⟨fun _ _ => .ok address, fun _ => .ok address⟩

theorem hashes_addresses : hashes.Addresses := fun _ _ => ⟨address, rfl⟩

/-- A loader that has asked for the blocks 2 and 3. -/
def asked : Res Loader := do
  let hp ← Chains.newLinkage hashes 87 (block 1 0)
  offering.foldlM (Loader.apply hashes cmpMinor) (newLoader registry hp)

def batch : Batch := ⟨id 1, [block 2 1, block 3 2], by simp, ⟨rfl, rfl, trivial⟩, by decide⟩

theorem asked_reads {α : Type} {l : Loader} {v : α} (f : Loader → α) (h : asked = .ok l) (hv : asked.map f = .ok v) :
    f l = v := by
  rw [h] at hv
  exact Except.ok.inj hv

theorem asked_reachable {l : Loader} (h : asked = .ok l) :
    Reachable hashes 87 (block 1 0) l.linkage (.single (id 1)) := by
  have hl : asked.map Loader.linkage = Chains.newLinkage hashes 87 (block 1 0) := by decide +kernel
  rw [h] at hl
  exact .start hl.symm

theorem asked_awaits {l : Loader} (h : asked = .ok l) : l.Awaits batch addr 1 := by
  have hheld : l.pl.map (fun pl => (pl.control.state, pl.control.pending.length, pl.peer, pl.queue)) =
      some (.waitingForBlocks, 0, addr, newQueue batch.ids) :=
    asked_reads (fun l => l.pl.map fun pl => (pl.control.state, pl.control.pending.length, pl.peer, pl.queue)) h
      (by decide +kernel)
  have hnew : ∀ x ∈ batch.ids, l.linkage.st.nums[x]?.isSome = false := of_decide_eq_true <|
    asked_reads (fun l => decide (∀ x ∈ batch.ids, l.linkage.st.nums[x]?.isSome = false)) h (by decide +kernel)
  have hparent : (l.linkage.st.block (id 1)).map Chains.StoredBlock.height = .ok 1 :=
    asked_reads (fun l => (l.linkage.st.block (id 1)).map Chains.StoredBlock.height) h (by decide +kernel)
  have hscore : (l.registry.storage.peer addr).map (fun sp => sp.score.isSome) = .ok true :=
    asked_reads (fun l => (l.registry.storage.peer addr).map fun sp => sp.score.isSome) h (by decide +kernel)
  obtain ⟨⟨⟨st, ts⟩, peer, timestamp, queue, sent⟩, hpl, heq⟩ := Option.map_eq_some_iff.1 hheld
  simp only [Prod.mk.injEq, List.length_eq_zero_iff] at heq
  obtain ⟨rfl, rfl, rfl, rfl⟩ := heq
  refine ⟨⟨_, hpl, rfl, rfl, rfl⟩, fun x hx hhas => ?_, ?_, ?_⟩
  · exact absurd ((hnew x hx).symm.trans hhas) (by simp)
  · cases hb : l.linkage.st.block (id 1) with
    | error f => rw [hb] at hparent; cases hparent
    | ok b => rw [hb] at hparent; exact ⟨b, hb, Except.ok.inj hparent⟩
  · cases hp : l.registry.storage.peer addr with
    | error f => rw [hp] at hscore; cases hscore
    | ok sp =>
      rw [hp] at hscore
      have hsome : sp.score.isSome = true := Except.ok.inj hscore
      exact ⟨sp, rfl, Option.isSome_iff_ne_none.1 hsome⟩

def own (n p : UInt8) : Message := .block 0 (some ⟨addr, 6868⟩) (block n p)
def others (n p : UInt8) : Message := .block 0 (some ⟨Chains.Sample.peer 5, 6868⟩) (block n p)
def micro (n r : UInt8) : Message := .microBlockInv (some ⟨Chains.Sample.peer 5, 6868⟩) ⟨id n, id r⟩

/-- The second block first, then a block and a micro-block of another peer, and the second block again. -/
def early : List Message := [own 3 2, others 7 1, micro 9 7, own 3 2]

theorem early_fair : ∀ m ∈ early, m.Fair batch := by
  simp only [early, List.forall_mem_cons]
  exact ⟨⟨by decide, by decide⟩, ⟨by decide, by decide⟩, (by decide : Chains.Sample.id 9 ∉ batch.ids),
    ⟨by decide, by decide⟩, fun m hm => absurd hm List.not_mem_nil⟩

theorem early_fits {l : Loader} (h : asked = .ok l) : HeightsFit hashes batch l early := by
  have hread : (asked >>= fun l => l.deliver hashes (own 3 2) >>= fun l1 =>
      .ok ((l1.linkage.st.block (id 1)).map Chains.StoredBlock.height) : Res (Res Nat)) = .ok (.ok 1) := by
    decide +kernel
  rw [h] at hread
  have hown : ∀ hp : Linkage, (own 3 2).Fits batch hp := fun hp hn => absurd (by decide) hn
  refine ⟨hown _, fun l1 h1 => ⟨fun _ pb hpb => ?_, fun l2 _ => ⟨trivial, fun l3 _ => ⟨hown _, fun _ _ => trivial⟩⟩⟩⟩
  obtain ⟨l0, h0, hread⟩ := Go.bind_eq_ok.1 hread
  cases h0
  obtain ⟨l1', h1', hread⟩ := Go.bind_eq_ok.1 hread
  obtain rfl : l1' = l1 := Except.ok.inj (h1'.symm.trans h1)
  rw [show l1'.linkage.st.block (Chains.Sample.id 1) = .ok pb from hpb] at hread
  have hh : pb.height = 1 := Except.ok.inj (Except.ok.inj hread)
  rw [hh]
  decide

end Sample

/-- Two blocks that come in reverse order, between messages of another peer. -/
theorem batch_loaded_sample : ∃ l tr l' l'', Sample.asked = .ok l ∧
    Path (Delivers Sample.hashes) l tr l' ∧ tr.map Link.input = Sample.early ∧
    (∀ x ∈ tr, x.pre.reports Sample.hashes x.input = 0 ∧ x.post.WaitsForBlocks Peers.Sample.addr) ∧
    l'.deliver Sample.hashes (Sample.own 2 1) = .ok l'' ∧ l'.reports Sample.hashes (Sample.own 2 1) = 1 ∧
    Loaded Sample.batch Peers.Sample.addr 1 l''.linkage := by
  obtain ⟨l, h⟩ := Go.exists_of_isOk (x := Sample.asked) (by decide +kernel)
  obtain ⟨tr, l', htr, hin, hall, hlast⟩ := batch_loaded Sample.hashes_addresses (Sample.asked_reachable h)
    (Sample.asked_awaits h) (by decide) (by decide) Sample.early_fair (Sample.early_fits h)
    (fun hc => absurd (hc (Chains.Sample.id 2) (by decide)) (by decide))
  obtain ⟨l'', hl, hok, hloaded⟩ := hlast (Sample.own 2 1) ⟨by decide, by decide⟩ (by unfold Complete; decide)
  exact ⟨l, tr, l', l'', h, htr, hin, hall, hl, hok, hloaded⟩

namespace Sample
open Chains.Sample (block publicKey id)

/-- The ID with a number in its first five bytes. -/
def numbered (n : Nat) : BlockID :=
  ⟨[n, n / 256, n / 65536, n / 16777216, n / 4294967296].map UInt8.ofNat ++ List.replicate 27 0,
    .inl (by simp [Proto.digestSize])⟩

theorem numbered_inj {m n : Nat} (hm : m < 2 ^ 40) (hn : n < 2 ^ 40) (h : numbered m = numbered n) : m = n := by
  have hbytes := congrArg BlockID.bytes h
  simp only [numbered, List.map_cons, List.map_nil, List.cons_append, List.nil_append, List.cons.injEq,
    and_true] at hbytes
  obtain ⟨h0, h1, h2, h3, h4⟩ := hbytes
  have := congrArg UInt8.toNat h0
  have := congrArg UInt8.toNat h1
  have := congrArg UInt8.toNat h2
  have := congrArg UInt8.toNat h3
  have := congrArg UInt8.toNat h4
  simp only [UInt8.toNat_ofNat'] at *
  omega

/-- The block after the one with the number `n`. -/
def tower (n : Nat) : Proto.Block := ⟨numbered (n + 1), numbered n, 1700000000000, 100, publicKey⟩

/-- A chain of any height below `2^32`. -/
theorem exists_tower : ∀ n, 0 < n → n < 2 ^ 32 → ∃ (hp : Linkage) (t : BlockTree BlockID),
    Reachable hashes 87 (block 1 0) hp t ∧ t.Stored (numbered n) ∧ t.height (numbered n) = n ∧
      ∀ m, n < m → m < 2 ^ 40 → ¬ t.Stored (numbered m)
  | 0, h0, _ => absurd h0 (Nat.lt_irrefl 0)
  | 1, _, _ => by
    obtain ⟨hp, h⟩ := Go.exists_of_isOk (x := Chains.newLinkage hashes 87 (block 1 0)) (by decide +kernel)
    refine ⟨hp, .single (numbered 1), .start h, (BlockTree.isRooted _).root_node, (BlockTree.isRooted _).height_root,
      fun m hm hlt hs => ?_⟩
    have hm1 : numbered m = numbered 1 := by
      by_contra hne
      simp [BlockTree.Stored, BlockTree.single, hne] at hs
    have := numbered_inj hlt (by decide) hm1
    omega
  | n + 2, _, hlt => by
    obtain ⟨hp, t, hr, hs, hh, hnew⟩ := exists_tower (n + 1) (by omega) (by omega)
    have hbelow : t.height (tower (n + 1)).parent = n + 1 := hh
    have hs : t.Stored (tower (n + 1)).parent := hs
    obtain ⟨hp', hput⟩ := hr.mirrors.refines.exists_putBlock (b := tower (n + 1)) Peers.Sample.addr hashes_addresses hs
      (show (100 : UInt64).toNat ≤ _ by decide) (by omega)
    obtain ⟨hs', hplaced⟩ := BlockTree.call_putBlock (b := tower (n + 1)) Peers.Sample.addr hs
    refine ⟨hp', _, .call (.putBlock (tower (n + 1)) Peers.Sample.addr) hr hput, hs', ?_, fun m hm hm40 hsm => ?_⟩
    · have hpar := hplaced (fun h => absurd h (hnew (n + 2) (by omega) (by omega))) hs'
      have := ((BlockTree.isRooted _).step _ _ hs' hpar).2
      rw [BlockTree.call_height hs, hbelow] at this
      exact this
    · rcases BlockTree.call_stored hsm with he | hs
      · have := numbered_inj hm40 (by omega) he
        omega
      · exact hnew m (by omega) hm40 hs

/-- The block on top of the largest height, as a batch. -/
def top : Batch := ⟨numbered 4294967295, [tower 4294967295], by simp, ⟨rfl, trivial⟩, by simp⟩

end Sample

/-- **A batch on the largest height** panics when its block arrives. -/
theorem heights_run_out : ∃ (l : Loader) (t : BlockTree BlockID),
    Reachable Sample.hashes 87 (Chains.Sample.block 1 0) l.linkage t ∧
    l.Awaits Sample.top Peers.Sample.addr 4294967295 ∧ ∃ m : Message, m.Fair Sample.top ∧
    Complete Sample.top (arrived Peers.Sample.addr [m]) ∧ ∀ l', l.deliver Sample.hashes m ≠ .ok l' := by
  obtain ⟨l, h⟩ := Go.exists_of_isOk (x := Sample.asked) (by decide +kernel)
  obtain ⟨hp, t, hr, hs, hh, hnew⟩ := Sample.exists_tower 4294967295 (by decide) (by decide)
  have hn : ¬ t.Stored (Sample.tower 4294967295).blockID := hnew _ (by decide) (by decide)
  have R := hr.mirrors.refines
  let pl : Held := ⟨⟨.waitingForBlocks, []⟩, Peers.Sample.addr, some 0, newQueue Sample.top.ids, []⟩
  refine ⟨{ l with linkage := hp, pl := some pl }, t, hr, ⟨⟨pl, rfl, rfl, rfl, rfl⟩, ?_, ?_, ?_⟩,
    .block 0 (some ⟨Peers.Sample.addr, 6868⟩) (Sample.tower 4294967295), ⟨by decide, ?_⟩, ?_, ?_⟩
  · intro x hx hhas
    obtain rfl : x = (Sample.tower 4294967295).blockID := by simpa [Batch.ids, Sample.top] using hx
    exact hn (R.stored_iff.2 hhas)
  · obtain ⟨b, hb, hbh, -⟩ := hr.mirrors.getBlock_of_stored hs
    exact ⟨b, hb, hbh.trans hh⟩
  · exact (Sample.asked_awaits h).scored
  · exact fun _ => List.mem_singleton.2 rfl
  · intro x hx
    simpa [Batch.ids, Sample.top, arrived, Message.arrives] using hx
  · intro l' hl'
    have hheight : t.height (Sample.tower 4294967295).parent = 4294967295 := hh
    rcases R.putBlock_outcomes Peers.Sample.addr hn hs with ⟨e, -, he, -⟩ | ⟨-, msg, -, -, hput⟩ | ⟨-, -, -, -, hlt, -⟩
    · cases he
    · simp only [Loader.deliver, Distributor.handleBlock, hput] at hl'
      cases hl'
    · omega

end Loading
end ForkDetector
