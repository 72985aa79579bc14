import ForkDetector.Loading.Carried
import ForkDetector.Loading.Rounds
/-!
# Syncing — loading the chain of a peer that answers

A peer that answers every request for IDs with the IDs that follow on its chain, and sends the blocks that it is asked
for, is loaded to the end of its chain: whatever else comes in between, the loader goes on as long as something is
missing, and lets the peer go with its leash on the last block (`chain_loaded`).
-/
namespace ForkDetector
namespace Loading

open Proto (BlockID Gowaves Version Conn)
open Chains (Linkage Reachable Batch BlockTree)
open Peers (Peer Registry)
open Run (Path Link)

/-! ## The triggers of a batch -/

section
variable {ρ : Type} {env : Env} {rep : Reporter ρ} {s : PeerLoader ρ} {hp : Linkage} {x : Settled ρ}

theorem drain_finished (h : Finished env rep s x) (n : Nat) :
    drain env rep (n + 2) ⟨.waitingForBlocks, [.queueReady]⟩ s = .ok (some x) := by
  have hone : ∀ {r again}, rep.OK .idle s.peer s.hp s.r = .ok (r, again) →
      Machine.fireOne config (PeerLoader.perform env rep) PeerLoader.unhandled ⟨.waitingForBlocks, []⟩ .queueReady s =
        .ok ⟨⟨.idle, if again then [.start] else []⟩, { s with r := r }, none⟩ := fun hok =>
    (Machine.fireOne_permit (d := State.idle) (a := Action.reportOK) rfl (by simp) rfl).2
      ⟨_, Go.bind_eq_ok.2 ⟨_, hok, rfl⟩, rfl⟩
  cases h with
  | stopped r hok => exact (Machine.drain_cons (hone hok)).trans Machine.drain_nil
  | again r d hok hd =>
    have htwo : Machine.fireOne config (PeerLoader.perform env rep) PeerLoader.unhandled ⟨.idle, []⟩ .start
        { s with r := r } = .ok ⟨⟨.waitingForIDs, d.fired⟩, d.world, d.err⟩ :=
      (Machine.fireOne_permit (d := State.waitingForIDs) (a := Action.requestIDs) rfl (by simp) rfl).2 ⟨d, hd, rfl⟩
    rw [requestIDsFrom_fired hd] at htwo
    refine (Machine.drain_cons (hone hok)).trans ((Machine.drain_cons htwo).trans ?_)
    show (if d.err.isSome then _ else _) = _
    cases d.err with
    | none => exact Machine.drain_nil
    | some e => rfl

theorem fire_known_finished {ids : List BlockID} (h : skipKnown s.peer s.hp ids = .ok (hp, .ok []))
    (hfin : Finished env rep { s with hp := hp } x) :
    PeerLoader.fire env rep ⟨.waitingForIDs, []⟩ (.ids ids) s = .ok (some x) := by
  have hd : s.requestBlocks env ids = .ok ⟨{ s with hp := hp }, [.queueReady], none⟩ := Go.bind_eq_ok.2 ⟨_, h, rfl⟩
  refine (Machine.drain_cons ((Machine.fireOne_permit (d := State.waitingForBlocks) (a := Action.requestBlocks) rfl
    (by simp) rfl).2 ⟨_, hd, rfl⟩)).trans ?_
  exact drain_finished hfin 0

theorem fire_loaded_finished {b : Option Proto.Block} (h : (s.queue.put b).ready = true)
    (hput : putBlocks env.gw s.peer s.hp (s.queue.put b).blocks = .ok (hp, none))
    (hfin : Finished env rep { s with queue := s.queue.put b, hp := hp } x) :
    PeerLoader.fire env rep ⟨.waitingForBlocks, []⟩ (.block b) s = .ok (some x) := by
  have hd : s.appendBlock env b = .ok ⟨{ s with queue := s.queue.put b, hp := hp }, [.queueReady], none⟩ := by
    unfold PeerLoader.appendBlock
    simp only [h, if_true]
    exact Go.bind_eq_ok.2 ⟨_, hput, rfl⟩
  refine (Machine.drain_cons ((Machine.fireOne_internal (a := Action.appendBlock) rfl).2 ⟨_, hd, rfl⟩)).trans ?_
  exact drain_finished hfin 0

theorem fire_ignore {st : State} {e : Event} (h : handler st e = some .ignore) :
    PeerLoader.fire env rep ⟨st, []⟩ e s = .ok (some (settled st s none)) :=
  (Machine.drain_cons (Machine.fireOne_ignore h)).trans Machine.drain_nil

theorem fire_tick_early {st : State} {tm : Int} (hst : st.Waiting) (h : timedOut s.timestamp tm = false) :
    PeerLoader.fire env rep ⟨st, []⟩ (.tick tm) s = .ok (some (settled st s none)) := by
  have hd : PeerLoader.perform env rep .onTick st (.tick tm) s = .ok ⟨s, [], none⟩ := by
    show Except.ok (s.onTick tm) = _
    unfold PeerLoader.onTick
    rw [h]
    rfl
  have hhandler : config.handler st (.tick tm) = some (.internal .onTick) := by
    rcases hst with rfl | rfl <;> rfl
  exact (Machine.drain_cons ((Machine.fireOne_internal hhandler).2 ⟨_, hd, rfl⟩)).trans Machine.drain_nil

end

/-! ## What comes in -/

/-- What reaches the loader: a message on its way through the distributor, or one of its own events. -/
inductive Incoming (byName : Peer → Peer → Bool) where
  | message (m : Message)
  | event (e : LoaderEvent byName)

def Loader.receive {byName : Peer → Peer → Bool} (gw : Gowaves) (cmpMinor : Version → Version → Int) (l : Loader) :
    Incoming byName → Res Loader
  | .message m => l.deliver gw m
  | .event e => l.apply gw cmpMinor e

/-- The IDs of the last request for IDs. -/
def Held.asked (pl : Held) : List BlockID :=
  match pl.sent.getLast? with
  | some (.blockIDs ids) => ids
  | _ => []

/-- The first ID of the request that is on the chain. -/
def Held.common (q : Batch) (pl : Held) : Option BlockID := pl.asked.find? (· ∈ q.trail)

/-- **An answer to the request**: from the first ID of it that is on the chain, at least one more. -/
def Held.Answered (q : Batch) (pl : Held) (ids : List BlockID) : Prop :=
  ∃ j count, j ≤ q.blocks.length ∧ pl.common q = some (q.upTo j) ∧ 2 ≤ count ∧ ids = (q.trail.drop j).take count

def Scored (r : Registry) (p : Addr) (score : Int) : Prop := ∃ sp, r.storage.peer p = .ok sp ∧ sp.score = some score

/-- **What may come in while a peer answers from its chain**: it answers before the time is out, with no other block
under an ID of the chain, and the score that it has told stays.  Blocks and calls come as messages. -/
def Honest {byName : Peer → Peer → Bool} (cmpMinor : Version → Version → Int) (q : Batch) (p : Addr) (score : Int)
    (l : Loader) : Incoming byName → Prop
  | .message m => m.Fair q ∧ m.Fits q l.linkage
  | .event (.sync _ _ _ _ _) => True
  | .event (.tick now) => ∀ pl, l.pl = some pl → timedOut pl.timestamp now = false
  | .event (.ids _ peer ids) =>
    peer = p → ∀ pl, l.pl = some pl → pl.control.state = .waitingForIDs → pl.Answered q ids
  | .event (.block _ _ _) => False
  | .event (.linkage _) => False
  | .event (.registry op) => ∃ r', l.registry.apply cmpMinor op = .ok r' ∧ Scored r' p score

/-- Whether the loader of the peer takes a list of IDs. -/
def Loader.takes {byName : Peer → Peer → Bool} (l : Loader) : Incoming byName → Bool
  | .event (.ids _ peer ids) => l.pl.any fun pl =>
    decide (ids ≠ []) && decide (peer = pl.peer) && decide (pl.control.state = .waitingForIDs)
  | _ => false

/-- A step of a session with an honest peer. -/
def Answers {byName : Peer → Peer → Bool} (gw : Gowaves) (cmpMinor : Version → Version → Int) (q : Batch) (p : Addr)
    (score : Int) (l : Loader) (i : Incoming byName) (l' : Loader) : Prop :=
  l.pl.isSome = true ∧ Honest cmpMinor q p score l i ∧ l.receive gw cmpMinor i = .ok l'

/-! ## The stages of a session -/

/-- The loader asks for the IDs that follow the first `m` blocks. -/
structure Asks (q : Batch) (p : Addr) (w : Int) (t : BlockTree BlockID) (m : Nat) (l : Loader) : Prop where
  held : ∃ pl, l.pl = some pl ∧ pl.control = ⟨.waitingForIDs, []⟩ ∧ pl.peer = p ∧ pl.common q = some (q.upTo m)
  missing : m < q.blocks.length
  stored : t.Stored (q.upTo m)
  lag : ∀ d, l.prevDiff = some d → weight q w q.blocks.length - weight q w m ≤ d

/-- How many blocks from the `m`-th on, before the `k`-th, have not come. -/
def lacking (q : Batch) (m k : Nat) (got : List BlockID) : Nat :=
  ((q.blocks.take k).drop m).countP fun b => decide (b.blockID ∉ got)

/-- The loader waits for the blocks from the `m`-th on, before the `k`-th; `got` have come. -/
structure Fills (q : Batch) (p : Addr) (w : Int) (t : BlockTree BlockID) (m k : Nat) (got : List BlockID)
    (l : Loader) : Prop where
  held : ∃ pl, l.pl = some pl ∧ pl.control = ⟨.waitingForBlocks, []⟩ ∧ pl.peer = p ∧
    pl.queue = Queue.holding ((q.blocks.take k).drop m) got
  missing : 0 < lacking q m k got
  within : k ≤ q.blocks.length
  stored : t.Stored (q.upTo m)
  lag : ∀ d, l.prevDiff = some d → weight q w q.blocks.length - weight q w k < d

/-- The session of the peer, when the lists have come to the `r`-th block and `c` blocks are missing. -/
structure Underway (gw : Gowaves) (scheme : Proto.Scheme) (genesis : Proto.Block) (q : Batch) (p : Addr) (h : Nat)
    (w : Int) (r c : Nat) (l : Loader) : Prop where
  stage : ∃ t, Carried gw scheme genesis q h w l.linkage t ∧
    (c = 0 ∧ Asks q p w t r l ∨ ∃ m got, c = lacking q m r got ∧ Fills q p w t m r got l)
  scored : Scored l.registry p (weight q w q.blocks.length)

/-- The session is over, and the chain is there. -/
structure Synced (q : Batch) (p : Addr) (h : Nat) (l : Loader) : Prop where
  ended : l.pl = none
  forgotten : l.prevDiff = none
  loaded : Loaded q p h l.linkage

section
variable {byName : Peer → Peer → Bool} {gw : Gowaves} {cmpMinor : Version → Version → Int} {scheme : Proto.Scheme}
  {genesis : Proto.Block} {q : Batch} {p : Addr} {h : Nat} {w : Int} {l : Loader} {t : BlockTree BlockID}

/-! ## The end of a batch -/

theorem Asks.held_common {pl : Held} {m : Nat} (ha : Asks q p w t m l) (hpl : l.pl = some pl) :
    pl.control = ⟨.waitingForIDs, []⟩ ∧ pl.peer = p ∧ pl.common q = some (q.upTo m) := by
  obtain ⟨pl', hpl', hrest⟩ := ha.held
  obtain rfl := Option.some.inj (hpl.symm.trans hpl')
  exact hrest

theorem Carried.loaded (hc : Carried gw scheme genesis q h w l.linkage t) (hs : t.Stored q.last)
    (hleash : l.linkage.leash p = .ok q.last) : Loaded q p h l.linkage := by
  refine ⟨fun i b hi => ?_, hleash⟩
  have hlt : i < q.blocks.length := (List.getElem?_eq_some_iff.1 hi).1
  have hsb : t.Stored (q.upTo (i + 1)) := hc.stored_of_le hlt (Nat.le_refl _) (by rwa [Batch.upTo_length])
  have hh := hc.height_upTo hlt hsb
  rw [Batch.upTo_succ hi] at hsb hh
  obtain ⟨r, hrb, hrh, -⟩ := hc.reachable.mirrors.getBlock_of_stored hsb
  exact ⟨r, hrb, by omega⟩

/-- **The end of a batch**, with the leash on the last of the first `k` blocks: the loader asks on from there, or the
chain is there. -/
theorem exists_finished (env : Env) {s : PeerLoader Report} {k : Nat} (hc : Carried gw scheme genesis q h w s.hp t)
    (hbt : ∀ b ∈ q.blocks, b.baseTarget ≠ 0) (hk : k ≤ q.blocks.length) (hs : t.Stored (q.upTo k))
    (hleash : s.hp.leash s.peer = .ok (q.upTo k)) (hheld : s.r.held = true)
    (hscored : Scored s.r.registry s.peer (weight q w q.blocks.length))
    (hlag : ∀ d, s.r.prevDiff = some d → weight q w q.blocks.length - weight q w k < d) :
    ∃ x, Finished env reporter s x ∧
      (Underway gw scheme genesis q s.peer h w k 0 (Loader.keep x) ∨
        k = q.blocks.length ∧ Synced q s.peer h (Loader.keep x)) := by
  have M := hc.reachable.mirrors
  obtain ⟨sp, hsp, hscore⟩ := hscored
  obtain ⟨r, again, hok⟩ := exists_reportOK M ⟨sp, hsp, by rw [hscore]; simp⟩
  obtain ⟨ls, hls⟩ := M.exists_leashScore s.peer
  obtain rfl : ls = weight q w k := by rw [leashScore_of_leash hleash hls, hc.score_upTo hk hs]
  obtain ⟨hagain, hheld', hprev⟩ := reportOK_decides hsp hscore hls hheld hok
  have hregistry := reportOK_registry hok
  cases again with
  | false =>
    have hall : k = q.blocks.length := by
      by_contra hne
      have hlt := weight_lt (w := w) hbt (by omega : k < q.blocks.length) (Nat.le_refl _)
      refine Bool.false_ne_true (hagain.2 ⟨hlt, fun hd => ?_⟩)
      exact absurd (hlag _ hd) (Int.lt_irrefl _)
    subst hall
    rw [Batch.upTo_length] at hs hleash
    refine ⟨_, .stopped r hok, .inr ⟨rfl, ?_, ?_, ?_⟩⟩
    · unfold Loader.keep settled
      simp [hheld']
    · exact hprev
    · exact hc.loaded (l := Loader.keep (settled .idle { s with r := r } none)) hs hleash
  | true =>
    have hlt : k < q.blocks.length := by
      by_contra hge
      obtain rfl : k = q.blocks.length := by omega
      exact absurd (hagain.1 rfl).1 (Int.lt_irrefl _)
    have hlast : s.hp.lastIDs (q.upTo k) idsBatchSize = .ok (Ancestry.path t.parent idsBatchSize (q.upTo k)) :=
      M.refines.getAncestors_eq hs idsBatchSize
    have hd : PeerLoader.requestIDs env { s with r := r } = .ok ⟨{ s with
        r := r, sent := s.sent ++ [.blockIDs (Ancestry.path t.parent idsBatchSize (q.upTo k))],
        timestamp := some env.now }, [], none⟩ := by
      unfold PeerLoader.requestIDs PeerLoader.requestIDsFrom
      simp only [hleash]
      show Go.attempt (s.hp.lastIDs (q.upTo k) idsBatchSize) >>= _ = _
      rw [hlast]
      rfl
    have hmem : q.upTo k ∈ q.trail := List.mem_of_getElem? (Batch.getElem?_trail hk)
    refine ⟨_, .again r _ hok hd, .inl ⟨⟨t, hc, .inl ⟨rfl, ⟨_, if_pos hheld', rfl, rfl, ?_⟩, hlt, hs, ?_⟩⟩, ?_⟩⟩
    · show ((match (s.sent ++ [Request.blockIDs _]).getLast? with | some (.blockIDs ids) => ids | _ => []).find? _) = _
      rw [List.getLast?_concat]
      exact List.find?_cons_of_pos (by simpa using hmem)
    · intro d hd
      have hd' : r.prevDiff = some d := hd
      rw [hprev, if_pos rfl] at hd'
      exact (Option.some.inj hd').le
    · refine ⟨sp, ?_, hscore⟩
      show r.registry.storage.peer s.peer = _
      rw [hregistry]
      exact hsp

/-! ## The handlers -/

namespace Loader
variable {env : Env} {pl : Held} {x : Settled Report}

theorem handleIDs_of_fire (hpl : l.pl = some pl) {ids : List BlockID} (hne : ids ≠ [])
    (hx : PeerLoader.fire env reporter pl.control (.ids ids) (l.view pl) = .ok (some x)) :
    l.handleIDs env pl.peer ids = .ok (keep x) := by
  unfold handleIDs fire
  simp only [hpl, if_neg hne, ne_eq, not_true_eq_false, if_false, hx]
  rfl

theorem handleBlock_of_fires (hpl : l.pl = some pl) {b : Option Proto.Block}
    (hx : PeerLoader.fire env reporter pl.control (.block b) (l.view pl) = .ok (some x)) :
    l.handleBlock env pl.peer b = .ok (keep x) := by
  unfold handleBlock fire
  simp only [hpl, ne_eq, not_true_eq_false, if_false, hx]
  rfl

/-- An event that the machine ignores changes nothing. -/
theorem keep_view (hpl : l.pl = some pl) {st : State} (hcontrol : pl.control = ⟨st, []⟩) :
    keep (settled st (l.view pl) none) = l := by
  obtain ⟨pl', prevDiff, fc, registry, linkage⟩ := l
  obtain ⟨control, peer, timestamp, queue, sent⟩ := pl
  simp only at hpl hcontrol
  subst hpl hcontrol
  rfl

theorem handleIDs_ignored (hpl : l.pl = some pl) {st : State} (hcontrol : pl.control = ⟨st, []⟩) {ids : List BlockID}
    (hi : handler st (.ids ids) = some .ignore) : l.handleIDs env pl.peer ids = .ok l := by
  by_cases hne : ids = []
  · unfold handleIDs
    simp only [hpl, if_pos hne]
  · rw [handleIDs_of_fire hpl hne (hcontrol ▸ fire_ignore hi), keep_view hpl hcontrol]

theorem handleBlock_ignored (hpl : l.pl = some pl) {st : State} (hcontrol : pl.control = ⟨st, []⟩)
    {b : Option Proto.Block} (hi : handler st (.block b) = some .ignore) : l.handleBlock env pl.peer b = .ok l := by
  rw [handleBlock_of_fires hpl (hcontrol ▸ fire_ignore hi), keep_view hpl hcontrol]

theorem handleIDs_of_ne {peer : Addr} (hpl : l.pl = some pl) (hne : peer ≠ pl.peer) (ids : List BlockID) :
    l.handleIDs env peer ids = .ok l := by
  unfold handleIDs
  simp only [hpl, if_pos hne, ite_self]

theorem tick_early (hpl : l.pl = some pl) {st : State} (hcontrol : pl.control = ⟨st, []⟩) (hst : st.Waiting)
    (hto : timedOut pl.timestamp env.now = false) : l.tick env = .ok l := by
  have hx : PeerLoader.fire env reporter pl.control (.tick env.now) (l.view pl) =
      .ok (some (settled st (l.view pl) none)) := hcontrol ▸ fire_tick_early hst hto
  unfold tick fire
  simp only [hpl, hx]
  show Loader.warn (keep (settled st (l.view pl) none), none) = _
  rw [keep_view hpl hcontrol]
  rfl

end Loader

/-! ## An answer -/

/-- The IDs of an answer, by the last block that it names. -/
theorem answer_eq {m count : Nat} (hm : m < q.blocks.length) (hcount : 2 ≤ count) :
    ∃ k, m < k ∧ k ≤ q.blocks.length ∧ (q.trail.drop m).take count = (q.trail.take (k + 1)).drop m := by
  have hlen : q.trail.length = q.blocks.length + 1 := by rw [Batch.trail, List.length_cons, Batch.length_ids]
  by_cases hle : m + count - 1 ≤ q.blocks.length
  · refine ⟨m + count - 1, by omega, hle, ?_⟩
    rw [List.drop_take]
    congr 1
    omega
  · refine ⟨q.blocks.length, hm, Nat.le_refl _, ?_⟩
    rw [List.drop_take, List.take_of_length_le (by rw [List.length_drop, hlen]; omega),
      List.take_of_length_le (by rw [List.length_drop, hlen])]

theorem getElem?_answer {m k i : Nat} (hk : k ≤ q.blocks.length) (hi : m + i ≤ k) :
    ((q.trail.take (k + 1)).drop m)[i]? = some (q.upTo (m + i)) := by
  rw [List.getElem?_drop, List.getElem?_take_of_lt (by omega), Batch.getElem?_trail (by omega)]

theorem length_answer {m k : Nat} (hk : k ≤ q.blocks.length) : ((q.trail.take (k + 1)).drop m).length = k + 1 - m := by
  rw [List.length_drop, List.length_take, Batch.trail, List.length_cons, Batch.length_ids]
  omega

/-- What an answer has after its first `i` IDs are the IDs of blocks. -/
theorem drop_answer (m k i : Nat) : ((q.trail.take (k + 1)).drop m).drop (i + 1) =
    ((q.blocks.take k).drop (m + i)).map Proto.Block.blockID := by
  rw [List.drop_drop, Batch.trail, List.take_succ_cons, ← Nat.add_assoc, List.drop_succ_cons, Batch.ids,
    ← List.map_take, ← List.map_drop]

/-- The two names of a stored block of the chain. -/
theorem Carried.upTo_inj {hp : Linkage} (hc : Carried gw scheme genesis q h w hp t) {i j : Nat}
    (hi : i ≤ q.blocks.length) (hj : j ≤ q.blocks.length) (hs : t.Stored (q.upTo i)) (he : q.upTo i = q.upTo j) :
    i = j := by
  have h1 := hc.height_upTo hi hs
  have h2 := hc.height_upTo hj (he ▸ hs)
  rw [he] at h1
  omega

/-- **An answer while the loader asks**: it waits for the blocks that are not there, or goes on to the next request. -/
theorem Asks.handleIDs (env : Env) {m : Nat} (ha : Asks q p w t m l)
    (hc : Carried gw scheme genesis q h w l.linkage t) (hscored : Scored l.registry p (weight q w q.blocks.length))
    (hbt : ∀ b ∈ q.blocks, b.baseTarget ≠ 0) {pl : Held} (hpl : l.pl = some pl) {ids : List BlockID}
    (hanswer : pl.Answered q ids) : ∃ l', l.handleIDs env p ids = .ok l' ∧ ∃ r, m < r ∧
      ((∃ c, Underway gw scheme genesis q p h w r c l') ∨ r = q.blocks.length ∧ Synced q p h l') := by
  obtain ⟨hcontrol, rfl, hcommon⟩ := ha.held_common hpl
  obtain ⟨j, count, hj, hcommon', hcount, rfl⟩ := hanswer
  have hsame : q.upTo m = q.upTo j := Option.some.inj (hcommon.symm.trans hcommon')
  obtain rfl : m = j := hc.upTo_inj (Nat.le_of_lt ha.missing) hj ha.stored hsame
  obtain ⟨k, hmk, hk, hids⟩ := answer_eq (q := q) ha.missing hcount
  rw [hids]
  clear hids hcommon' hcount hsame
  have hlen := length_answer (q := q) (m := m) hk
  have hget := fun i => getElem?_answer (q := q) (m := m) (i := i) hk
  have hdrop := drop_answer (q := q) m k
  generalize (q.trail.take (k + 1)).drop m = ids at hlen hget hdrop
  have hne : ids ≠ [] := fun hn => by
    rw [hn, List.length_nil] at hlen
    omega
  have R := hc.reachable.mirrors.refines
  have hknown := knownPrefix_knownLength l.linkage ids
  obtain ⟨hp, hskip, hfollow⟩ : ∃ hp, skipKnown pl.peer l.linkage ids = _ ∧ _ := skipKnown_spec hknown
  generalize knownLength l.linkage ids = n at hknown hskip hfollow
  have hc' := hc.skipKnown hskip
  -- the block that the list starts with is there
  obtain ⟨i, rfl⟩ : ∃ i, n = i + 1 := by
    cases n with
    | zero => exact absurd (R.stored_iff.1 ha.stored) (hknown.longest _ (hget 0 (by omega)))
    | succ i => exact ⟨i, rfl⟩
  have hle := hknown.le
  have hstored : t.Stored (q.upTo (m + i)) := by
    refine R.stored_iff.2 (hknown.known _ (List.mem_of_getElem? (i := i) ?_))
    rw [List.getElem?_take_of_lt (by omega), hget i (by omega)]
  have hlag : ∀ d, l.prevDiff = some d → weight q w q.blocks.length - weight q w k < d := fun d hd => by
    have hrise := weight_lt (w := w) hbt hmk hk
    have := ha.lag d hd
    omega
  rw [hdrop] at hskip
  cases hrest : ((q.blocks.take k).drop (m + i)).map Proto.Block.blockID with
  | nil =>
    have hall : m + i = k := by
      have := congrArg List.length hrest
      rw [List.length_map, List.length_drop, List.length_take_of_le hk, List.length_nil] at this
      omega
    subst hall
    rw [hrest] at hskip
    have hleash : hp.leash pl.peer = .ok (q.upTo (m + i)) := by
      refine leash_skipKnown hskip ?_
      rw [List.getLast?_eq_getElem?, hlen, ← hget i (Nat.le_refl _)]
      congr 1
      omega
    obtain ⟨x, hfin, hnext⟩ := exists_finished env (s := { l.view pl with hp := hp }) hc' hbt hk hstored hleash
      rfl hscored hlag
    exact ⟨_, Loader.handleIDs_of_fire hpl hne (hcontrol ▸ fire_known_finished hskip hfin), m + i, hmk,
      hnext.imp_left fun hu => ⟨0, hu⟩⟩
  | cons id req =>
    rw [hrest] at hskip
    have hx : PeerLoader.fire env reporter pl.control (.ids ids) (l.view pl) = _ := hcontrol ▸ fire_requested hskip
    refine ⟨_, Loader.handleIDs_of_fire hpl hne hx, k, hmk, .inl ⟨_, ⟨t, hc', .inr ⟨m + i, [], rfl,
      ⟨_, rfl, rfl, rfl, ?_⟩, ?_, hk, hstored, hlag⟩⟩, hscored⟩⟩
    · rw [Queue.holding_nil, hrest]
      rfl
    · obtain ⟨b, hb, -⟩ := List.mem_map.1 (hrest ▸ List.mem_cons_self : id ∈ _)
      exact List.countP_pos_iff.2 ⟨b, hb, by simp⟩

/-! ## A block -/

theorem lacking_eq_zero {m k : Nat} {got : List BlockID} :
    lacking q m k got = 0 ↔ ∀ b ∈ (q.blocks.take k).drop m, b.blockID ∈ got := by
  rw [lacking, List.countP_eq_zero]
  refine forall_congr' fun b => forall_congr' fun _ => ?_
  rw [decide_eq_true_eq, not_not]

theorem countP_lt_of_mem {α : Type} {f g : α → Bool} (hfg : ∀ x, f x = true → g x = true) : ∀ {as : List α} {a : α},
    a ∈ as → g a = true → f a = false → as.countP f < as.countP g
  | b :: as, a, ha, hg, hf => by
    have hrest : as.countP f ≤ as.countP g := List.countP_mono_left fun x _ => hfg x
    rcases List.mem_cons.1 ha with rfl | ha
    · rw [List.countP_cons_of_neg (by simp [hf]), List.countP_cons_of_pos hg]
      omega
    · have ih := countP_lt_of_mem hfg ha hg hf
      rw [List.countP_cons, List.countP_cons]
      have hone : (if f b = true then 1 else 0) ≤ if g b = true then 1 else 0 := by
        split
        · rename_i hb
          rw [if_pos (hfg b hb)]
        · omega
      omega

theorem lacking_lt {m k : Nat} {got : List BlockID} {b : Proto.Block} (hb : b ∈ (q.blocks.take k).drop m)
    (hn : b.blockID ∉ got) : lacking q m k (got ++ [b.blockID]) < lacking q m k got := by
  refine countP_lt_of_mem (fun x hx => ?_) hb (by simpa using hn) (by simp)
  simp only [List.mem_append, not_or, decide_eq_true_eq] at hx ⊢
  exact hx.1

/-- **A block of the peer while blocks are missing**: the loader waits on, or the batch ends with it. -/
theorem Fills.handleBlock (env : Env) {m k : Nat} {got : List BlockID} (hf : Fills q p w t m k got l)
    (hgw : env.gw.Addresses) (hc : Carried env.gw scheme genesis q h w l.linkage t)
    (hscored : Scored l.registry p (weight q w q.blocks.length)) (hbt : ∀ b ∈ q.blocks, b.baseTarget ≠ 0)
    (hrange : ∀ b ∈ q.blocks, b.baseTarget.toNat ≤ 9223372036854775807) (hfit : h + q.blocks.length < 2 ^ 32)
    {b : Proto.Block} (hown : b.blockID ∈ q.ids → b ∈ q.blocks) : ∃ l', l.handleBlock env p (some b) = .ok l' ∧
      (0 < lacking q m k (got ++ [b.blockID]) ∧
          Underway env.gw scheme genesis q p h w k (lacking q m k (got ++ [b.blockID])) l' ∨
        lacking q m k (got ++ [b.blockID]) = 0 ∧
          (Underway env.gw scheme genesis q p h w k 0 l' ∨ k = q.blocks.length ∧ Synced q p h l')) := by
  obtain ⟨⟨control, peer, timestamp, queue, sent⟩, hpl, rfl, rfl, rfl⟩ := hf.held
  have hmem : ∀ c ∈ (q.blocks.take k).drop m, c ∈ q.blocks := fun c hc =>
    List.mem_of_mem_take (List.mem_of_mem_drop hc)
  have hnd : (((q.blocks.take k).drop m).map Proto.Block.blockID).Nodup :=
    q.distinct.sublist (((List.drop_sublist _ _).trans (List.take_sublist _ _)).map _)
  have hput : Queue.put (Queue.holding ((q.blocks.take k).drop m) got) (some b) =
      Queue.holding ((q.blocks.take k).drop m) (got ++ [b.blockID]) := by
    refine Queue.putBlock_holding hnd fun hb => ?_
    obtain ⟨c, hc, hcb⟩ := List.mem_map.1 hb
    have hbq : b ∈ q.blocks := hown (hcb ▸ List.mem_map_of_mem (hmem c hc))
    exact Batch.eq_of_blockID (hmem c hc) hbq hcb ▸ hc
  have hready : (Queue.put (Queue.holding ((q.blocks.take k).drop m) got) (some b)).ready = true ↔
      lacking q m k (got ++ [b.blockID]) = 0 := by
    rw [hput, Queue.ready_holding, lacking_eq_zero]
  rcases Nat.eq_zero_or_pos (lacking q m k (got ++ [b.blockID])) with hall | hmissing
  · have hgot := lacking_eq_zero.1 hall
    have hmk : m < k := by
      obtain ⟨c, hc, -⟩ := List.countP_pos_iff.1 hf.missing
      have := List.length_pos_of_mem hc
      rw [List.length_drop, List.length_take] at this
      omega
    obtain ⟨hp, t', hputs, hc', hs'⟩ := hc.exists_putBlocks hgw peer hmk hf.within hf.stored hfit hrange
    rw [← Queue.blocks_holding hgot, ← hput] at hputs
    have hlast : ((Queue.put (Queue.holding ((q.blocks.take k).drop m) got) (some b)).map
        Item.requested).getLast? = some (q.upTo k) := by
      have hreq : Item.requested ∘ (fun c : Proto.Block => (⟨c.blockID, if c.blockID ∈ got ++ [b.blockID] then some c
          else none⟩ : Item)) = Proto.Block.blockID := rfl
      rw [hput, Queue.holding, List.map_map, hreq, ← Nat.add_zero m, ← drop_answer m k 0, List.getLast?_drop,
        if_neg (by rw [length_answer hf.within]; omega), List.getLast?_eq_getElem?, length_answer hf.within,
        getElem?_answer hf.within (by omega)]
      congr 2
      omega
    obtain ⟨x, hfin, hnext⟩ := exists_finished env (s := { l.view ⟨⟨.waitingForBlocks, []⟩, peer, timestamp,
      Queue.holding ((q.blocks.take k).drop m) got, sent⟩ with
        queue := Queue.put (Queue.holding ((q.blocks.take k).drop m) got) (some b), hp := hp }) hc' hbt hf.within hs'
      (leash_ready (hready.2 hall) hputs hlast) rfl hscored hf.lag
    exact ⟨_, Loader.handleBlock_of_fires hpl (fire_loaded_finished (hready.2 hall) hputs hfin), .inr ⟨hall, hnext⟩⟩
  · have hnot : (Queue.put (Queue.holding ((q.blocks.take k).drop m) got) (some b)).ready = false := by
      rw [← Bool.not_eq_true, hready]
      omega
    have hx : PeerLoader.fire env reporter ⟨.waitingForBlocks, []⟩ (.block (some b)) (l.view ⟨⟨.waitingForBlocks, []⟩,
      peer, timestamp, Queue.holding ((q.blocks.take k).drop m) got, sent⟩) = _ := fire_received hnot
    refine ⟨_, Loader.handleBlock_of_fires hpl hx, .inl ⟨hmissing, ⟨t, hc, .inr ⟨m, got ++ [b.blockID], rfl,
      ⟨_, rfl, rfl, rfl, hput⟩, hmissing, hf.within, hf.stored, hf.lag⟩⟩, hscored⟩⟩

/-! ## Everything that comes in -/

namespace Underway
variable {r c : Nat}

/-- The loader of the peer, whatever it waits for. -/
theorem held (hu : Underway gw scheme genesis q p h w r c l) : ∃ pl st, l.pl = some pl ∧ pl.control = ⟨st, []⟩ ∧
    st.Waiting ∧ pl.peer = p := by
  obtain ⟨t, -, ⟨-, ha⟩ | ⟨m, got, -, hf⟩⟩ := hu.stage
  · obtain ⟨pl, hpl, hcontrol, hpeer, -⟩ := ha.held
    exact ⟨pl, _, hpl, hcontrol, .inl rfl, hpeer⟩
  · obtain ⟨pl, hpl, hcontrol, hpeer, -⟩ := hf.held
    exact ⟨pl, _, hpl, hcontrol, .inr rfl, hpeer⟩

theorem le (hu : Underway gw scheme genesis q p h w r c l) : r ≤ q.blocks.length := by
  obtain ⟨t, -, ⟨-, ha⟩ | ⟨m, got, -, hf⟩⟩ := hu.stage
  · exact Nat.le_of_lt ha.missing
  · exact hf.within

/-- Another linkage with all that there was, and other records in which the peer has the same score. -/
theorem grow {l' : Loader} {t' : BlockTree BlockID}
    (hstage : c = 0 ∧ Asks q p w t r l ∨ ∃ m got, c = lacking q m r got ∧ Fills q p w t m r got l)
    (hpl : l'.pl = l.pl) (hprev : l'.prevDiff = l.prevDiff)
    (hscored : Scored l'.registry p (weight q w q.blocks.length))
    (hc : Carried gw scheme genesis q h w l'.linkage t') (hmono : ∀ x, t.Stored x → t'.Stored x) :
    Underway gw scheme genesis q p h w r c l' := by
  refine ⟨⟨t', hc, ?_⟩, hscored⟩
  rcases hstage with ⟨h0, ha⟩ | ⟨m, got, hlack, hf⟩
  · exact .inl ⟨h0, hpl ▸ ha.held, ha.missing, hmono _ ha.stored, hprev ▸ ha.lag⟩
  · exact .inr ⟨m, got, hlack, hpl ▸ hf.held, hf.missing, hf.within, hmono _ hf.stored, hprev ▸ hf.lag⟩

variable (hgw : gw.Addresses) (hbt : ∀ b ∈ q.blocks, b.baseTarget ≠ 0)
  (hrange : ∀ b ∈ q.blocks, b.baseTarget.toNat ≤ 9223372036854775807) (hfit : h + q.blocks.length < 2 ^ 32)
include hgw hbt hrange hfit

/-- **A message** of the peer or of another one. -/
theorem deliver (hu : Underway gw scheme genesis q p h w r c l) {m : Message} (hfair : m.Fair q)
    (hfits : m.Fits q l.linkage) : ∃ l', l.deliver gw m = .ok l' ∧
      ((∃ c', Underway gw scheme genesis q p h w r c' l') ∨ r = q.blocks.length ∧ Synced q p h l') := by
  obtain ⟨t, hc, hstage⟩ := hu.stage
  cases m with
  | microBlockInv addr inv =>
    obtain ⟨hp, t', hhp, hc', hmono⟩ := hc.handleMicroBlockInvMessage addr hfair
    exact ⟨_, Go.bind_eq_ok.2 ⟨hp, hhp, rfl⟩, .inl ⟨c, grow hstage rfl rfl hu.scored hc' hmono⟩⟩
  | block now addr b =>
    cases addr with
    | none => exact ⟨l, rfl, .inl ⟨c, hu⟩⟩
    | some ap =>
      obtain ⟨hp, t', hhp, hc', hmono⟩ := hc.handleBlock hgw ap hfair.1 hfair.2 hfit hfits
      have hu' : Underway gw scheme genesis q p h w r c { l with linkage := hp } :=
        grow hstage rfl rfl hu.scored hc' hmono
      rw [(Loader.deliver_block now hhp).1]
      by_cases hap : ap.addr = p
      · obtain ⟨t'', hc'', ⟨-, ha⟩ | ⟨m, got, -, hf⟩⟩ := hu'.stage
        · obtain ⟨pl, hpl, hcontrol, hpeer, -⟩ := ha.held
          refine ⟨_, ?_, .inl ⟨c, hu'⟩⟩
          show Loader.handleBlock _ _ ap.addr _ = _
          rw [hap, ← hpeer]
          exact Loader.handleBlock_ignored hpl hcontrol rfl
        · obtain ⟨l', hl', hnext⟩ := hf.handleBlock (.at gw now) hgw hc'' hu'.scored hbt hrange hfit hfair.2
          refine ⟨l', hap ▸ hl', ?_⟩
          rcases hnext with ⟨-, hu''⟩ | ⟨-, hu'' | hdone⟩
          · exact .inl ⟨_, hu''⟩
          · exact .inl ⟨_, hu''⟩
          · exact .inr hdone
      · obtain ⟨pl, -, hpl, -, -, hpeer⟩ := hu'.held
        exact ⟨_, (Loader.handleBlock_of_ne hpl (hpeer.symm ▸ hap)).1, .inl ⟨c, hu'⟩⟩

/-- **Whatever comes in while the peer is honest is handled**, and a list of IDs that is taken brings the session
further. -/
theorem receive (hu : Underway gw scheme genesis q p h w r c l) {i : Incoming byName}
    (hi : Honest cmpMinor q p (weight q w q.blocks.length) l i) : ∃ l', l.receive gw cmpMinor i = .ok l' ∧
      ∃ r', r + (l.takes i).toNat ≤ r' ∧
        ((∃ c', Underway gw scheme genesis q p h w r' c' l') ∨ r' = q.blocks.length ∧ Synced q p h l') := by
  cases i with
  | message m =>
    obtain ⟨l', hl', hnext⟩ := hu.deliver hgw hbt hrange hfit hi.1 hi.2
    exact ⟨l', hl', r, Nat.le_refl _, hnext⟩
  | event e =>
    obtain ⟨pl, st, hpl, hcontrol, hst, rfl⟩ := hu.held
    have hsame : ∀ e : LoaderEvent byName, l.apply gw cmpMinor e = .ok l → l.takes (.event e) = false →
        ∃ l', l.apply gw cmpMinor e = .ok l' ∧ ∃ r', r + (l.takes (.event e)).toNat ≤ r' ∧
          ((∃ c', Underway gw scheme genesis q pl.peer h w r' c' l') ∨
            r' = q.blocks.length ∧ Synced q pl.peer h l') := fun e happly htakes =>
      ⟨l, happly, r, by rw [htakes]; exact Nat.le_refl _, .inl ⟨c, hu⟩⟩
    cases e with
    | sync now rng conns srt pick =>
      refine hsame (.sync now rng conns srt pick) ?_ rfl
      show Loader.sync _ _ _ _ _ = _
      unfold Loader.sync
      simp only [hpl]
    | tick now => exact hsame (.tick now) (Loader.tick_early hpl hcontrol hst (hi pl hpl)) rfl
    | ids now peer ids =>
      by_cases hpeer : peer = pl.peer
      · subst hpeer
        obtain ⟨t, hc, ⟨-, ha⟩ | ⟨m, got, -, hf⟩⟩ := hu.stage
        · have hcontrol' := (ha.held_common hpl).1
          obtain ⟨l', hl', r', hlt, hnext⟩ := ha.handleIDs (.at gw now) hc hu.scored hbt hpl
            (hi rfl pl hpl (by rw [hcontrol']))
          have hone := Bool.toNat_le (l.takes (.event (.ids now pl.peer ids : LoaderEvent byName)))
          exact ⟨l', hl', r', by omega, hnext⟩
        · obtain ⟨pl', hpl', hcontrol', -, -⟩ := hf.held
          obtain rfl := Option.some.inj (hpl.symm.trans hpl')
          refine hsame (.ids now _ ids) (Loader.handleIDs_ignored hpl hcontrol' rfl) ?_
          simp [Loader.takes, hpl, hcontrol']
      · refine hsame (.ids now _ ids) (Loader.handleIDs_of_ne hpl hpeer ids) ?_
        simp [Loader.takes, hpl, hpeer]
    | block now peer block => exact hi.elim
    | linkage call => exact hi.elim
    | registry op =>
      obtain ⟨r', hr', hscored⟩ := hi
      obtain ⟨t, hc, hstage⟩ := hu.stage
      exact ⟨_, Go.bind_eq_ok.2 ⟨r', hr', rfl⟩, r, Nat.le_refl _,
        .inl ⟨c, grow hstage rfl rfl hscored hc fun _ hx => hx⟩⟩

/-- **Something that the peer can send** brings the session further. -/
theorem advance (byName : Peer → Peer → Bool) (cmpMinor : Version → Version → Int)
    (hu : Underway gw scheme genesis q p h w r c l) :
    ∃ (i : Incoming byName) (l' : Loader), Honest cmpMinor q p (weight q w q.blocks.length) l i ∧
      l.receive gw cmpMinor i = .ok l' ∧ ((∃ r' c', Underway gw scheme genesis q p h w r' c' l' ∧
        (r < r' ∨ r = r' ∧ c' < c)) ∨ Synced q p h l') := by
  obtain ⟨t, hc, ⟨rfl, ha⟩ | ⟨m, got, rfl, hf⟩⟩ := hu.stage
  · obtain ⟨pl, hpl, hcontrol, hpeer, hcommon⟩ := ha.held
    have hanswer : pl.Answered q ((q.trail.drop r).take 2) :=
      ⟨r, 2, Nat.le_of_lt ha.missing, hcommon, Nat.le_refl 2, rfl⟩
    obtain ⟨l', hl', r', hlt, hnext⟩ := ha.handleIDs (.at gw 0) hc hu.scored hbt hpl hanswer
    refine ⟨.event (.ids 0 p ((q.trail.drop r).take 2)), l', fun _ pl' hpl' _ => ?_, hl', ?_⟩
    · obtain rfl := Option.some.inj (hpl.symm.trans hpl')
      exact hanswer
    · exact hnext.imp (fun ⟨c', hu'⟩ => ⟨r', c', hu', .inl hlt⟩) And.right
  · obtain ⟨b, hb, hn⟩ := List.countP_pos_iff.1 hf.missing
    have hbq : b ∈ q.blocks := List.mem_of_mem_take (List.mem_of_mem_drop hb)
    have hown : b.blockID ∈ q.ids → b ∈ q.blocks := fun _ => hbq
    have hin : b.blockID ∈ q.ids := List.mem_map_of_mem hbq
    obtain ⟨hp, t', hhp, hc', hmono⟩ := hc.handleBlock hgw ⟨p, 0⟩ (hrange b hbq) hown hfit (fun hno => absurd hin hno)
    have hf' : Fills q p w t' m r got { l with linkage := hp } :=
      ⟨hf.held, hf.missing, hf.within, hmono _ hf.stored, hf.lag⟩
    obtain ⟨l', hl', hnext⟩ := hf'.handleBlock (.at gw 0) hgw hc' hu.scored hbt hrange hfit hown
    refine ⟨.message (.block 0 (some ⟨p, 0⟩) b), l', ⟨⟨hrange b hbq, hown⟩, fun hno => absurd hin hno⟩,
      (Loader.deliver_block 0 hhp).1.trans hl', ?_⟩
    rcases hnext with ⟨-, hu'⟩ | ⟨-, hu' | ⟨-, hdone⟩⟩
    · exact .inl ⟨r, _, hu', .inr ⟨rfl, lacking_lt hb (by simpa using hn)⟩⟩
    · exact .inl ⟨r, 0, hu', .inr ⟨rfl, hf.missing⟩⟩
    · exact .inr hdone

/-- **The session can always be brought to its end.** -/
theorem exists_synced (byName : Peer → Peer → Bool) (cmpMinor : Version → Version → Int) {r c : Nat} {l : Loader}
    (hu : Underway gw scheme genesis q p h w r c l) : ∃ (tr : List (Link Loader (Incoming byName))) (l' : Loader),
      Path (Answers gw cmpMinor q p (weight q w q.blocks.length)) l tr l' ∧ Synced q p h l' := by
  obtain ⟨i, l1, hi, hl1, ⟨r', c', hu', hless⟩ | hdone⟩ := hu.advance hgw hbt hrange hfit byName cmpMinor
  · have hle := hu'.le
    obtain ⟨tr, l', htr, hdone⟩ := exists_synced byName cmpMinor hu'
    obtain ⟨pl, -, hpl, -⟩ := hu.held
    exact ⟨_, l', .cons ⟨by rw [hpl]; rfl, hi, hl1⟩ htr, hdone⟩
  · obtain ⟨pl, -, hpl, -⟩ := hu.held
    exact ⟨_, l1, .cons ⟨by rw [hpl]; rfl, hi, hl1⟩ (.nil l1), hdone⟩
termination_by (q.blocks.length - r, c)
decreasing_by
  rcases hless with hlt | ⟨rfl, hlt⟩
  · exact Prod.Lex.left _ _ (by omega)
  · exact Prod.Lex.right _ hlt

end Underway

/-- **What the loader waits for** in a session: IDs, or a block of the chain that has not come. -/
def Loader.Pursues (l : Loader) (q : Batch) (p : Addr) : Prop := ∀ pl, l.pl = some pl → pl.peer = p ∧
  (pl.control.state = .waitingForIDs ∨
    pl.control.state = .waitingForBlocks ∧ ∃ b ∈ q.blocks, ⟨b.blockID, none⟩ ∈ pl.queue)

theorem Underway.pursues {r c : Nat} (hu : Underway gw scheme genesis q p h w r c l) : l.Pursues q p := by
  intro pl hpl
  obtain ⟨t, -, ⟨-, ha⟩ | ⟨m, got, -, hf⟩⟩ := hu.stage
  · obtain ⟨hcontrol, hpeer, -⟩ := ha.held_common hpl
    exact ⟨hpeer, .inl (by rw [hcontrol])⟩
  · obtain ⟨pl', hpl', hcontrol, hpeer, hqueue⟩ := hf.held
    obtain rfl := Option.some.inj (hpl.symm.trans hpl')
    obtain ⟨b, hb, hn⟩ := List.countP_pos_iff.1 hf.missing
    refine ⟨hpeer, .inr ⟨by rw [hcontrol], b, List.mem_of_mem_take (List.mem_of_mem_drop hb), ?_⟩⟩
    rw [hqueue]
    exact List.mem_map.2 ⟨b, hb, by rw [if_neg (by simpa using hn)]⟩

/-- **The chain of a peer that answers is loaded.**  In every run of the session the loader handles whatever comes in,
waits for something that the peer has, and takes no more lists than the chain has blocks; the session ends with the
whole chain, and at every point of it what the peer can send leads to that end. -/
theorem chain_loaded (hgw : gw.Addresses) (hbt : ∀ b ∈ q.blocks, b.baseTarget ≠ 0)
    (hrange : ∀ b ∈ q.blocks, b.baseTarget.toNat ≤ 9223372036854775807) (hfit : h + q.blocks.length < 2 ^ 32)
    (hc : Carried gw scheme genesis q h w l.linkage t) (ha : Asks q p w t 0 l)
    (hscored : Scored l.registry p (weight q w q.blocks.length)) {tr : List (Link Loader (Incoming byName))}
    {l' : Loader} (hrun : Path (Answers gw cmpMinor q p (weight q w q.blocks.length)) l tr l') :
    l'.Pursues q p ∧ (l'.pl = none → Synced q p h l') ∧
      (tr.countP fun x => x.pre.takes x.input) ≤ q.blocks.length ∧
      (l'.pl ≠ none → ∀ i : Incoming byName, Honest cmpMinor q p (weight q w q.blocks.length) l' i →
        ∃ l'', l'.receive gw cmpMinor i = .ok l'') ∧
      ∃ (tr' : List (Link Loader (Incoming byName))) (l'' : Loader),
        Path (Answers gw cmpMinor q p (weight q w q.blocks.length)) l' tr' l'' ∧ Synced q p h l'' := by
  have hstart : Underway gw scheme genesis q p h w 0 0 l := ⟨⟨t, hc, .inl ⟨rfl, ha⟩⟩, hscored⟩
  obtain ⟨r, hcount, hr, hend⟩ : ∃ r, (tr.countP fun x => x.pre.takes x.input) ≤ r ∧ r ≤ q.blocks.length ∧
      ((∃ c, Underway gw scheme genesis q p h w r c l') ∨ Synced q p h l') := by
    refine Path.history (P := fun tr l => ∃ r, (tr.countP fun x => x.pre.takes x.input) ≤ r ∧ r ≤ q.blocks.length ∧
      ((∃ c, Underway gw scheme genesis q p h w r c l) ∨ Synced q p h l)) ?_
      ⟨0, Nat.le_refl 0, Nat.zero_le _, .inl ⟨0, hstart⟩⟩ hrun
    rintro tr l1 i l2 ⟨r, hcount, hr, ⟨c, hu⟩ | hdone⟩ ⟨hpl, hi, hstep⟩
    · obtain ⟨l2', hl2, r', hr', hnext⟩ := hu.receive hgw hbt hrange hfit hi
      obtain rfl := Except.ok.inj (hl2.symm.trans hstep)
      refine ⟨r', ?_, ?_, hnext.imp_right And.right⟩
      · have hone : (if l1.takes i = true then 1 else 0) = (l1.takes i).toNat := by cases l1.takes i <;> rfl
        rw [List.countP_append, List.countP_singleton]
        show _ + (if l1.takes i = true then 1 else 0) ≤ r'
        omega
      · rcases hnext with ⟨c', hu'⟩ | ⟨rfl, -⟩
        · exact hu'.le
        · exact Nat.le_refl _
    · rw [hdone.ended] at hpl
      cases hpl
  rcases hend with ⟨c, hu⟩ | hdone
  · obtain ⟨pl, -, hpl, -⟩ := hu.held
    refine ⟨hu.pursues, fun hn => absurd (hn.symm.trans hpl) (by simp), by omega, fun _ i hi => ?_,
      hu.exists_synced hgw hbt hrange hfit byName cmpMinor⟩
    obtain ⟨l'', hl'', -⟩ := hu.receive hgw hbt hrange hfit hi
    exact ⟨l'', hl''⟩
  · exact ⟨fun pl hpl => absurd (hdone.ended.symm.trans hpl) (by simp), fun _ => hdone, by omega,
      fun hpl => absurd hdone.ended hpl, [], l', .nil l', hdone⟩

end

namespace Sample
open Chains.Sample (block)
open Peers.Sample (addr waves conn registry cmpMinor)

/-- A loader that has asked a peer for the IDs after the genesis block; the peer has told the score of the block 3. -/
def asking : Res Loader := do
  let hp ← Chains.newLinkage hashes 87 (block 1 0)
  [.registry (.suggestVersion 0 addr), .registry (.registerPeer 0 addr (conn 0 waves) waves),
    .registry (.updatePeerScore addr 553402322211286548), choose].foldlM (Loader.apply hashes cmpMinor)
    (newLoader registry hp)

theorem asking_reads {α : Type} {l : Loader} {v : α} (f : Loader → α) (h : asking = .ok l)
    (hv : asking.map f = .ok v) : f l = v := by
  rw [h] at hv
  exact Except.ok.inj hv

theorem asking_carried {l : Loader} (h : asking = .ok l) :
    Carried hashes 87 (block 1 0) batch 1 184467440737095516 l.linkage
      (.single (Chains.Sample.id 1)) := by
  have hlink : asking.map Loader.linkage = Chains.newLinkage hashes 87 (block 1 0) := by decide +kernel
  rw [h] at hlink
  have hnew : ∀ b ∈ batch.blocks, ¬ (BlockTree.single (Chains.Sample.id 1)).Stored b.blockID := fun b hb hs => by
    have hne : b.blockID ≠ Chains.Sample.id 1 := (by decide : ∀ b ∈ batch.blocks, b.blockID ≠ Chains.Sample.id 1) b hb
    simp [BlockTree.Stored, BlockTree.single, hne] at hs
  exact ⟨.start hlink.symm, (BlockTree.isRooted _).root_node, (BlockTree.isRooted _).height_root,
    asking_reads (fun l => l.linkage.scoreOf (Chains.Sample.id 1)) h (by decide +kernel),
    fun b hb hs => absurd hs (hnew b hb), fun b hb hs => absurd hs (hnew b hb)⟩

theorem asking_asks {l : Loader} (h : asking = .ok l) :
    Asks batch addr 184467440737095516 (.single (Chains.Sample.id 1)) 0 l := by
  have hheld : l.pl.map (fun pl => (pl.control.state, pl.control.pending.length, pl.peer, pl.common batch)) =
      some (State.waitingForIDs, 0, addr, some (Chains.Sample.id 1)) :=
    asking_reads (fun l => l.pl.map fun pl => (pl.control.state, pl.control.pending.length, pl.peer, pl.common batch))
      h (by decide +kernel)
  have hprev : l.prevDiff = none := asking_reads Loader.prevDiff h (by decide +kernel)
  obtain ⟨⟨⟨st, ts⟩, peer, timestamp, queue, sent⟩, hpl, heq⟩ := Option.map_eq_some_iff.1 hheld
  simp only [Prod.mk.injEq, List.length_eq_zero_iff] at heq
  obtain ⟨rfl, rfl, rfl, hcommon⟩ := heq
  exact ⟨⟨_, hpl, rfl, rfl, hcommon⟩, by decide, (BlockTree.isRooted _).root_node,
    fun d hd => by rw [hprev] at hd; cases hd⟩

theorem asking_scored {l : Loader} (h : asking = .ok l) :
    Scored l.registry addr (weight batch 184467440737095516 batch.blocks.length) := by
  have hscore : (l.registry.storage.peer addr).map Peer.score = .ok (some 553402322211286548) :=
    asking_reads (fun l => (l.registry.storage.peer addr).map Peer.score) h (by decide +kernel)
  cases hp : l.registry.storage.peer addr with
  | error f => rw [hp] at hscore; cases hscore
  | ok sp =>
    rw [hp] at hscore
    exact ⟨sp, hp, (Except.ok.inj hscore : sp.score = _)⟩

/-- The genesis block and the block after it. -/
def answer : Incoming anyName := .event (.ids 0 addr [Chains.Sample.id 1, Chains.Sample.id 2])

abbrev Serves : Loader → Incoming anyName → Loader → Prop := Answers hashes cmpMinor batch addr 553402322211286548

end Sample

/-- A peer that answers with one new ID at first. -/
theorem chain_loaded_sample : ∃ l l1 tr l', Sample.asking = .ok l ∧
    Path Sample.Serves l [⟨l, Sample.answer, l1⟩] l1 ∧ l1.Pursues Sample.batch Peers.Sample.addr ∧
    Path Sample.Serves l1 tr l' ∧ Synced Sample.batch Peers.Sample.addr 1 l' := by
  obtain ⟨l, h⟩ := Go.exists_of_isOk (x := Sample.asking) (by decide +kernel)
  obtain ⟨pl, hpl, -, -, hcommon⟩ := (Sample.asking_asks h).held
  have hhonest : Honest Peers.Sample.cmpMinor Sample.batch Peers.Sample.addr 553402322211286548 l Sample.answer := by
    rintro - pl' hpl' -
    obtain rfl := Option.some.inj (hpl.symm.trans hpl')
    exact ⟨0, 2, by decide, hcommon, by decide, by decide⟩
  have hstart : Path Sample.Serves l [] l := .nil l
  obtain ⟨-, -, -, hhandled, -⟩ := chain_loaded Sample.hashes_addresses (by decide) (by decide) (by decide)
    (Sample.asking_carried h) (Sample.asking_asks h) (Sample.asking_scored h) hstart
  obtain ⟨l1, h1⟩ := hhandled (by rw [hpl]; simp) Sample.answer hhonest
  have hrun : Path Sample.Serves l [⟨l, Sample.answer, l1⟩] l1 := .cons ⟨by rw [hpl]; rfl, hhonest, h1⟩ (.nil l1)
  obtain ⟨hpursues, -, -, -, tr, l', htr, hdone⟩ := chain_loaded Sample.hashes_addresses (by decide) (by decide)
    (by decide) (Sample.asking_carried h) (Sample.asking_asks h) (Sample.asking_scored h) hrun
  exact ⟨l, l1, tr, l', h, hrun, hpursues, htr, hdone⟩

end Loading
end ForkDetector
