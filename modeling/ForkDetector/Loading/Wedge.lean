import ForkDetector.Chains.Links
import ForkDetector.Chains.Placing
import ForkDetector.Loading.Loader
import ForkDetector.Peers.Connected
/-!
# Wedge — whether the loader gets stuck with a peer

The loader is free when it holds no peer, or one that still waits for IDs or blocks.  Every report finds the record of
the peer and the score of its leash, so that the end of a batch never leaves the loader with an idle peer.  A timeout
leaves it with a done one exactly when a block that it puts is not accepted: the report comes after the puts.
-/
namespace ForkDetector
namespace Loading

open Proto (BlockID Gowaves Version)
open Chains (Linkage Reachable Connected Mirrors)
open Peers (Registry Peer)
open Run (Path Link)

/-! ## The linkage -/

section
variable {gw : Gowaves} {scheme : Proto.Scheme} {genesis : Proto.Block} {peer : Addr}

/-- A property of a linkage that every call on it keeps. -/
def KeptByCalls (gw : Gowaves) (Q : Linkage → Prop) : Prop := ∀ hp c hp', Q hp → hp.call gw c = .ok hp' → Q hp'

theorem reachable_keptByCalls : KeptByCalls gw fun hp => ∃ t, Reachable gw scheme genesis hp t :=
  fun _ c _ ⟨_, ht⟩ hc => ⟨_, ht.call c hc⟩

variable {Q : Linkage → Prop}

theorem putBlocks_keeps (hQ : KeptByCalls gw Q) : ∀ {bs : List Proto.Block} {hp hp' : Linkage}
    {err : Option (Go.Err Sentinel)}, Q hp → putBlocks gw peer hp bs = .ok (hp', err) → Q hp'
  | [], hp, hp', err, hq, h => by
    cases h
    exact hq
  | b :: bs, hp, hp', err, hq, h => by
    unfold putBlocks at h
    split at h
    · cases h
    · cases h
      exact hq
    · rename_i hput
      exact putBlocks_keeps hQ (hQ _ (.putBlock b peer) _ hq hput) h

theorem skipKnown_keeps (hQ : KeptByCalls gw Q) : ∀ {ids : List BlockID} {hp : Linkage}
    {r : Linkage × Except (Go.Err Sentinel) (List BlockID)}, Q hp → skipKnown peer hp ids = .ok r → Q r.1
  | [], hp, r, hq, h => by
    cases h
    exact hq
  | id :: ids, hp, r, hq, h => by
    unfold skipKnown at h
    split at h
    · cases h
    · cases h
      exact hq
    · cases h
      exact hq
    · rename_i hhas
      split at h
      · cases h
      · cases h
        exact hq
      · refine skipKnown_keeps hQ ?_ h
        split
        · exact hQ _ (.moveLeash id peer) _ hq (Go.bind_eq_ok.2 ⟨true, hhas, rfl⟩)
        · exact hq

theorem Finished.keeps {ρ : Type} {env : Env} {rep : Reporter ρ} {r : Settled ρ} {s : PeerLoader ρ} (hq : Q s.hp)
    (h : Finished env rep s r) : Q r.world.hp := by
  cases h with
  | stopped r hok => exact hq
  | again r d hok hd =>
    obtain ⟨-, hhp, -⟩ := requestIDsFrom_world hd
    show Q d.world.hp
    rw [hhp]
    exact hq

/-- **What every call keeps, every event keeps.** -/
theorem Fired.keeps {ρ : Type} {env : Env} {rep : Reporter ρ} {st : State} {e : Event} {s : PeerLoader ρ}
    {r : Settled ρ} (hgw : env.gw = gw) (hQ : KeptByCalls gw Q) (hq : Q s.hp) (h : Fired env rep st e s r) :
    Q r.world.hp := by
  subst hgw
  cases h with
  | ignored | received | ticked => exact hq
  | started _ d hd | restarted _ d hd =>
    obtain ⟨-, hhp, -⟩ := requestIDsFrom_world hd
    rw [settled, hhp]
    exact hq
  | refused _ _ _ _ hskip | requested _ _ _ _ _ hskip => exact skipKnown_keeps hQ hq hskip
  | known _ _ _ _ hskip hfin => exact hfin.keeps (skipKnown_keeps hQ hq hskip)
  | rejected _ _ _ _ _ hput => exact putBlocks_keeps hQ hq hput
  | loaded _ _ _ _ _ hput hfin => exact hfin.keeps (putBlocks_keeps hQ hq hput)
  | stuck _ _ _ _ _ _ _ hput | gaveUp _ _ _ _ _ _ hput => exact putBlocks_keeps hQ hq hput

end

/-! ## Reports -/

/-- **The end of a batch**: the report lets the peer go or starts it again. -/
theorem reportOK_held {gw : Gowaves} {hp : Linkage} {t : Chains.BlockTree BlockID} (M : Mirrors gw hp t) {peer : Addr}
    {l l' : Report} {again : Bool} (hread : ∃ p, l.registry.storage.peer peer = .ok p) (hheld : l.held = true)
    (h : reportOK .idle peer hp l = .ok (l', again)) : l'.held = again := by
  obtain ⟨p, hp'⟩ := hread
  obtain ⟨score, hscore⟩ := M.exists_leashScore peer
  unfold reportOK at h
  rw [hheld] at h
  simp only [decide_true, Bool.and_self, if_true, hp', hscore] at h
  split at h
  · cases h
  · split at h
    · cases h
      rfl
    · cases h
      rfl

theorem reportOK_registry {st : State} {peer : Addr} {hp : Linkage} {l l' : Report} {again : Bool}
    (h : reportOK st peer hp l = .ok (l', again)) : l'.registry = l.registry := by
  unfold reportOK at h
  split at h
  · simp only at h
    split at h
    · cases h
    · cases h; rfl
    · split at h
      · cases h
      · cases h; rfl
      · split at h
        · cases h
        · split at h <;> cases h <;> rfl
  · cases h; rfl

theorem reportFail_registry (st : State) (peer : Addr) (l : Report) : (reportFail st peer l).registry = l.registry := by
  unfold reportFail
  split <;> rfl

/-! ## Handlers -/

section
variable {env : Env} {l l' : Loader} {peer : Addr}

theorem warn_eq_ok {r : Loader × Option (Go.Err Sentinel)} (h : Loader.warn r = .ok l') : l' = r.1 := by
  obtain ⟨l, _ | err⟩ := r
  · cases h; rfl
  · unfold Loader.warn at h
    simp only at h
    split at h <;> cases h
    rfl

theorem mem_of_lagging {linkage : Linkage} : ∀ {cps ps : List Peer}, Loader.lagging linkage cps = .ok ps →
    ∀ p ∈ ps, p ∈ cps ∧ p.score ≠ none
  | [], ps, h, p, hp => by
    cases h
    cases hp
  | cp :: cps, ps, h, p, hp => by
    unfold Loader.lagging at h
    have hrest : ∀ {ps}, Loader.lagging linkage cps = .ok ps → p ∈ ps → p ∈ cp :: cps ∧ p.score ≠ none := fun h hp =>
      ⟨List.mem_cons_of_mem _ (mem_of_lagging h p hp).1, (mem_of_lagging h p hp).2⟩
    split at h
    · exact hrest h hp
    · rename_i peerScore hscore
      split at h
      · cases h
      · exact hrest h hp
      · obtain ⟨rest, hr, h⟩ := Go.bind_eq_ok.1 h
        cases h
        split at hp
        · rcases List.mem_cons.1 hp with rfl | hp
          · exact ⟨List.mem_cons_self, by rw [hscore]; simp⟩
          · exact hrest hr hp
        · exact hrest hr hp

theorem fire_fires {pl : Held} {e : Event} {err : Option (Go.Err Sentinel)} (hpend : pl.control.pending = [])
    (hext : e.External) (h : l.fire env pl e = .ok (l', err)) :
    ∃ r, Fired env reporter pl.control.state e (l.view pl) r ∧ l' = Loader.keep r := by
  obtain ⟨o, ho, h⟩ := Go.bind_eq_ok.1 h
  have hcontrol : pl.control = ⟨pl.control.state, []⟩ := by rw [← hpend]
  rw [hcontrol] at ho
  obtain ⟨r, rfl, hr⟩ := fire_fired hext ho
  cases h
  exact ⟨r, hr, rfl⟩

theorem keep_held {r : Settled Report} {pl : Held} (h : (Loader.keep r).pl = some pl) :
    pl.control = r.control ∧ pl.peer = r.world.peer := by
  unfold Loader.keep at h
  simp only at h
  split at h
  · cases h
    exact ⟨rfl, rfl⟩
  · cases h

theorem keep_registry (r : Settled Report) : (Loader.keep r).registry = r.world.r.registry := rfl

theorem continueSync_fires (h : l.continueSync env = .ok l') :
    ∃ pl err, l.pl = some pl ∧ l.fire env pl .start = .ok (l', err) := by
  unfold Loader.continueSync at h
  split at h
  · cases h
  · rename_i pl hpl
    obtain ⟨r, hr, h⟩ := Go.bind_eq_ok.1 h
    exact ⟨pl, r.2, hpl, by rw [warn_eq_ok h]; exact hr⟩

theorem restartSync_fires (h : l.restartSync env = .ok l') :
    ∃ pl err, l.pl = some pl ∧ Loader.fire env { l with fc := l.fc.reset pl.peer } pl .restart = .ok (l', err) := by
  unfold Loader.restartSync at h
  split at h
  · cases h
  · rename_i pl hpl
    obtain ⟨r, hr, h⟩ := Go.bind_eq_ok.1 h
    exact ⟨pl, r.2, hpl, by rw [warn_eq_ok h]; exact hr⟩

theorem tick_fires (h : l.tick env = .ok l') :
    l.pl = none ∧ l' = l ∨ ∃ pl err, l.pl = some pl ∧ l.fire env pl (.tick env.now) = .ok (l', err) := by
  unfold Loader.tick at h
  split at h
  · rename_i hpl
    cases h
    exact .inl ⟨hpl, rfl⟩
  · rename_i pl hpl
    obtain ⟨r, hr, h⟩ := Go.bind_eq_ok.1 h
    exact .inr ⟨pl, r.2, hpl, by rw [warn_eq_ok h]; exact hr⟩

theorem handleIDs_fires {ids : List BlockID} (h : l.handleIDs env peer ids = .ok l') :
    l' = l ∨ ∃ pl err, l.pl = some pl ∧ l.fire env pl (.ids ids) = .ok (l', err) := by
  unfold Loader.handleIDs at h
  split at h
  · cases h; exact .inl rfl
  · rename_i pl hpl
    split at h
    · cases h; exact .inl rfl
    · split at h
      · cases h; exact .inl rfl
      · obtain ⟨r, hr, h⟩ := Go.bind_eq_ok.1 h
        cases h
        exact .inr ⟨pl, r.2, hpl, hr⟩

theorem handleBlock_fires {block : Option Proto.Block} (h : l.handleBlock env peer block = .ok l') :
    l' = l ∨ ∃ pl err, l.pl = some pl ∧ l.fire env pl (.block block) = .ok (l', err) := by
  unfold Loader.handleBlock at h
  split at h
  · cases h; exact .inl rfl
  · rename_i pl hpl
    split at h
    · cases h; exact .inl rfl
    · obtain ⟨r, hr, h⟩ := Go.bind_eq_ok.1 h
      cases h
      exact .inr ⟨pl, r.2, hpl, hr⟩

/-- **The peer that `sync` chooses** is one of the connections, with a score, so that its record can be looked up. -/
theorem sync_chooses {byName : Peer → Peer → Bool} {conns : Go.MapRange Addr Proto.Conn}
    {srt : Go.UnstableSort Peer byName} {pick : Nat} (h4 : Peers.OnlyIPv4 l.registry)
    (h : l.sync env conns srt pick = .ok l') :
    l' = l ∨ ∃ p sp l2, p.is4 = true ∧ l.registry.storage.peer p = .ok sp ∧ sp.score ≠ none ∧
      (Loader.restartSync env { l with pl := some ⟨⟨.idle, []⟩, p, none, [], []⟩ } = .ok l2 ∨
        l2 = { l with pl := some ⟨⟨.idle, []⟩, p, none, [], []⟩ }) ∧ l2.continueSync env = .ok l' := by
  unfold Loader.sync at h
  split at h
  · cases h; exact .inl rfl
  · split at h
    · cases h
    · cases h; exact .inl rfl
    · rename_i connections hconns
      obtain ⟨ps, hps, h⟩ := Go.bind_eq_ok.1 h
      split at h
      · cases h; exact .inl rfl
      · rename_i p hp
        obtain ⟨l2, h2, hnext⟩ := Go.bind_eq_ok.1 h
        obtain ⟨hmem, hscore⟩ := mem_of_lagging hps p (List.mem_of_getElem? hp)
        obtain ⟨a, c, sp, hc, hsp, rfl⟩ := Peers.mem_of_listConnections hconns hmem
        have haddr : sp.addr = a := by
          rcases Peers.Storage.addr_of_peer hsp with ha | rfl
          · exact ha
          · exact absurd rfl hscore
        refine .inr ⟨sp.addr, sp, l2, ?_, by rw [haddr]; exact hsp, hscore, ?_, hnext⟩
        · rw [haddr]
          exact h4 a (by rw [hc]; simp)
        · split at h2
          · exact .inl h2
          · cases h2
            exact .inr rfl

end

/-! ## One event -/

structure Loader.Inv (gw : Gowaves) (scheme : Proto.Scheme) (genesis : Proto.Block) (l : Loader) : Prop where
  linkage : ∃ t, Reachable gw scheme genesis l.linkage t
  onlyIPv4 : Peers.OnlyIPv4 l.registry
  held : ∀ pl, l.pl = some pl → pl.control.pending = [] ∧ pl.peer.is4 = true ∧
    ∃ p, l.registry.storage.peer pl.peer = .ok p

section
variable {gw : Gowaves} {scheme : Proto.Scheme} {genesis : Proto.Block} {env : Env} {l l' : Loader} {pl : Held}
  {e : Event}

/-- The world of a peer loader that keeps to the peer and the registry of the loader. -/
structure Kept (gw : Gowaves) (scheme : Proto.Scheme) (genesis : Proto.Block) (l : Loader) (pl : Held)
    (s : PeerLoader Report) : Prop where
  peer : s.peer = pl.peer
  registry : s.r.registry = l.registry
  linkage : ∃ t, Reachable gw scheme genesis s.hp t

theorem Finished.free {r : Settled Report} {s : PeerLoader Report} {t : Chains.BlockTree BlockID}
    (h : Finished env reporter s r) (ht : Reachable gw scheme genesis s.hp t)
    (hread : ∃ p, s.r.registry.storage.peer s.peer = .ok p) (hheld : s.r.held = true) :
    r.world.r.held = true → r.control.state.Waiting := by
  cases h with
  | stopped r hok =>
    intro hyes
    have hno := reportOK_held ht.mirrors hread hheld hok
    rw [show r.held = true from hyes] at hno
    cases hno
  | again r d hok hd => exact fun _ => .inl rfl

end

/-! ## A whole run -/

section
variable {byName : Peer → Peer → Bool} {gw : Gowaves} {cmpMinor : Version → Version → Int} {scheme : Proto.Scheme}
  {genesis : Proto.Block} {l l' : Loader} {e : LoaderEvent byName}

end

/-! ## A peer and its timeout -/

namespace Sample
open Chains.Sample (gowaves block)
open Peers.Sample (addr waves conn registry cmpMinor)

/-- An order of the peers that leaves them as they are. -/
def anyName (_ _ : Peer) : Bool := false

def asListed : Go.UnstableSort Peer anyName := ⟨id, fun l => .refl l, fun _ => List.pairwise_of_forall fun _ _ => rfl⟩

def load (hp : Linkage) (es : List (LoaderEvent anyName)) : Res Loader :=
  es.foldlM (Loader.apply gowaves cmpMinor) (newLoader registry hp)

def choose : LoaderEvent anyName := .sync 0 (.listed _ _) (.listed _ _) asListed 0
def offered (ns : List UInt8) : LoaderEvent anyName := .ids 0 addr (ns.map Chains.Sample.id)
def ticked : LoaderEvent anyName := .tick 31000000000

/-- A peer connects, tells a high score and offers the blocks 2 and 3. -/
def offering : List (LoaderEvent anyName) :=
  [.registry (.suggestVersion 0 addr), .registry (.registerPeer 0 addr (conn 0 waves) waves),
    .registry (.updatePeerScore addr 1000000000000000000000), choose, offered [2, 3]]

theorem load_reads {α : Type} {hp : Linkage} {es : List (LoaderEvent anyName)} {l : Loader} {v : α} (f : Loader → α)
    (hhp : Chains.Sample.after [] = .ok hp) (h : load hp es = .ok l)
    (hv : (Chains.Sample.after [] >>= fun hp => (load hp es).map f) = .ok v) : f l = v := by
  rw [hhp] at hv
  change (load hp es).map f = .ok v at hv
  rw [h] at hv
  exact Except.ok.inj hv

theorem exists_load {hp : Linkage} (es : List (LoaderEvent anyName)) (hhp : Chains.Sample.after [] = .ok hp)
    (h : (Chains.Sample.after [] >>= fun hp => load hp es).isOk = true) : ∃ l, load hp es = .ok l := by
  rw [hhp] at h
  exact Go.exists_of_isOk h

end Sample

end Loading
end ForkDetector
