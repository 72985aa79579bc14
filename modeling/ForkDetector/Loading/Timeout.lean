import ForkDetector.Lib.Run
import ForkDetector.Chains.Links
import ForkDetector.Loading.Firing
/-!
# Timeout — where a timeout leaves the leash

Beside the loader of a peer runs a record of the block request that is outstanding and of the blocks that have arrived
since.  The queue follows that record while the loader waits for blocks, but it is kept when a batch is done: a timeout
while waiting for IDs puts its blocks once more.
-/
namespace ForkDetector
namespace Loading

open Proto (BlockID Gowaves)
open Chains (Linkage)
open Machine (Control)
open Run (Path Link)

/-- The loader of a peer, the IDs of the block request last sent, and the IDs of the blocks that have arrived since. -/
structure Watched (ρ : Type) where
  control : Control State Event
  pl : PeerLoader ρ
  asked : List BlockID
  got : List BlockID

inductive Input where
  | event (now : Int) (rng : Go.MapRange BlockID (List Addr)) (e : Event)
  | call (c : Chains.Call)

def blockRequests (rs : List Request) : List BlockID := rs.filterMap fun r =>
  match r with
  | .blockIDs _ => none
  | .block id => some id

namespace Watched
variable {ρ : Type}

def start (peer : Addr) (hp : Linkage) (r : ρ) : Watched ρ :=
  ⟨(newPeerLoader peer hp r).1, (newPeerLoader peer hp r).2, [], []⟩

/-- The record after an event: a request is what taking up a package of IDs has sent. -/
def after (s : Watched ρ) (e : Event) (r : Settled ρ) : Watched ρ :=
  match s.control.state, e with
  | .waitingForIDs, .ids _ => ⟨r.control, r.world, blockRequests (r.world.sent.drop s.pl.sent.length), []⟩
  | _, .block (some b) => ⟨r.control, r.world, s.asked, s.got ++ [b.blockID]⟩
  | _, _ => ⟨r.control, r.world, s.asked, s.got⟩

def apply (gw : Gowaves) (rep : Reporter ρ) (s : Watched ρ) : Input → Res (Watched ρ)
  | .event now rng e => do
    match ← PeerLoader.fire ⟨gw, now, rng⟩ rep s.control e s.pl with
    | some r => .ok (s.after e r)
    -- never comes to this: `fire_fired`
    | none => Go.panic "too many triggers"
  | .call c => do
    let hp ← s.pl.hp.call gw c
    .ok { s with pl := { s.pl with hp := hp } }

def TimesOut (s : Watched ρ) : Input → Prop
  | .event _ _ (.tick tm) => s.control.state.Waiting ∧ timedOut s.pl.timestamp tm = true
  | _ => False

def PutsSucceed (gw : Gowaves) (s : Watched ρ) : Prop :=
  ∃ hp, putBlocks gw s.pl.peer s.pl.hp s.pl.queue.received = .ok (hp, none)

/-- The longest part of the outstanding request, from its start, that has arrived. -/
def arrived (s : Watched ρ) : List BlockID := s.asked.takeWhile (· ∈ s.got)

/-- **Where a timeout should leave the leash**: on the last block that has arrived of the outstanding request, and
where it is when there is none. -/
def expectedLeash (s : Watched ρ) : Res BlockID :=
  if s.control.state = .waitingForBlocks then
    match s.arrived.getLast? with
    | some id => .ok id
    | none => s.pl.hp.leash s.pl.peer
  else s.pl.hp.leash s.pl.peer

/-- The blocks that a timeout puts end where the leash should be left: while waiting for blocks, the part that has
arrived ends as it does up to its first repeated ID; while waiting for IDs, the leash is on the last block of the
queue, if there is one. -/
def Settles (s : Watched ρ) : Prop :=
  if s.control.state = .waitingForBlocks then (untilRepeat [] s.arrived).getLast? = s.arrived.getLast?
  else ∀ b, s.pl.queue.lastReceived = some b → s.pl.hp.leash s.pl.peer = .ok b.blockID

structure Inv (s : Watched ρ) : Prop where
  pending : s.control.pending = []
  tracks : s.control.state = .waitingForBlocks → Tracks s.got [] s.asked s.pl.queue

end Watched

def Input.External : Input → Prop
  | .event _ _ e => e.External
  | .call _ => True

def WatchedStep {ρ : Type} (gw : Gowaves) (rep : Reporter ρ) (s : Watched ρ) (i : Input) (s' : Watched ρ) : Prop :=
  s.apply gw rep i = .ok s' ∧ i.External

/-- **A timeout leaves the leash where it should.** -/
def LeavesLeash {ρ : Type} (gw : Gowaves) (x : Link (Watched ρ) Input) : Prop :=
  x.pre.TimesOut x.input → x.pre.PutsSucceed gw → x.post.pl.hp.leash x.pre.pl.peer = x.pre.expectedLeash

/-! ## The leash -/

theorem leash_moveLeash (hp : Linkage) (id : BlockID) (addr : Addr) : (hp.moveLeash id addr).leash addr = .ok id := by
  unfold Linkage.leash Linkage.moveLeash Chains.Storage.updateLeash Chains.Storage.write
  simp [Chains.Storage.getLeash_eq, Chains.Storage.apply]

theorem leash_putBlock {gw : Gowaves} {hp hp' : Linkage} {b : Proto.Block} {addr : Addr}
    (h : hp.putBlock gw b addr = .ok hp') : hp'.leash addr = .ok b.blockID := by
  rcases Linkage.putBlock_eq_ok h with ⟨-, rfl⟩ | ⟨-, -, st, -, rfl⟩ <;> exact leash_moveLeash _ _ _

theorem leash_putBlocks {gw : Gowaves} {peer : Addr} : ∀ {bs : List Proto.Block} {hp hp' : Linkage},
    putBlocks gw peer hp bs = .ok (hp', none) → hp'.leash peer = match bs.getLast? with
      | some b => .ok b.blockID
      | none => hp.leash peer
  | [], hp, hp', h => by
    cases h
    rfl
  | b :: bs, hp, hp', h => by
    unfold putBlocks at h
    split at h
    · cases h
    · cases h
    · rename_i hp1 hput
      rw [leash_putBlocks h, List.getLast?_cons]
      cases bs.getLast? with
      | none => exact leash_putBlock hput
      | some b' => rfl

theorem exists_leash (hp : Linkage) (addr : Addr) : ∃ id, hp.leash addr = .ok id := by
  unfold Linkage.leash
  rw [Chains.Storage.getLeash_eq]
  cases hp.st.leashRecords[Chains.addrKeyBytes addr]? with
  | none => exact ⟨_, rfl⟩
  | some id => exact ⟨_, rfl⟩

theorem skipKnown_ok {peer : Addr} : ∀ {ids : List BlockID} {hp : Linkage}
    {r : Linkage × Except (Go.Err Sentinel) (List BlockID)}, skipKnown peer hp ids = .ok r → ∃ req, r.2 = .ok req
  | [], hp, r, h => by
    cases h
    exact ⟨[], rfl⟩
  | id :: ids, hp, r, h => by
    obtain ⟨lsh, hlsh⟩ := exists_leash hp peer
    have hb : hp.hasBlock id = .ok hp.st.nums[id]?.isSome := Chains.Storage.hasBlock_eq _ _
    unfold skipKnown at h
    rw [hb, hlsh] at h
    cases hk : hp.st.nums[id]?.isSome with
    | false =>
      rw [hk] at h
      cases h
      exact ⟨_, rfl⟩
    | true =>
      rw [hk] at h
      exact skipKnown_ok h

/-! ## One event -/

theorem blockRequests_block (ids : List BlockID) : blockRequests (ids.map .block) = ids := by
  unfold blockRequests
  rw [List.filterMap_map]
  exact List.filterMap_some

section
variable {ρ : Type} {gw : Gowaves} {rep : Reporter ρ} {s s' : Watched ρ}

theorem step_cases {i : Input} (h : WatchedStep gw rep s i s') (hp : s.control.pending = []) :
    (∃ now rng e r, i = .event now rng e ∧ Fired ⟨gw, now, rng⟩ rep s.control.state e s.pl r ∧ s' = s.after e r) ∨
    ∃ c hp, i = .call c ∧ s.pl.hp.call gw c = .ok hp ∧ s' = { s with pl := { s.pl with hp := hp } } := by
  obtain ⟨h, hext⟩ := h
  cases i with
  | event now rng e =>
    obtain ⟨o, ho, h⟩ := Go.bind_eq_ok.1 h
    have hcontrol : s.control = ⟨s.control.state, []⟩ := by rw [← hp]
    rw [hcontrol] at ho
    obtain ⟨r, rfl, hr⟩ := fire_fired hext ho
    cases h
    exact .inl ⟨now, rng, e, r, rfl, hr, rfl⟩
  | call c =>
    obtain ⟨hp, hhp, h⟩ := Go.bind_eq_ok.1 h
    cases h
    exact .inr ⟨c, hp, rfl, hhp, rfl⟩

@[simp] theorem Watched.after_control (e : Event) (r : Settled ρ) : (s.after e r).control = r.control := by
  unfold after; split <;> rfl

@[simp] theorem Watched.after_pl (e : Event) (r : Settled ρ) : (s.after e r).pl = r.world := by
  unfold after; split <;> rfl

theorem Watched.inv_of_not_waiting (hp : s.control.pending = []) (h : s.control.state ≠ .waitingForBlocks) : s.Inv :=
  ⟨hp, fun hs => absurd hs h⟩

theorem Finished.state {env : Env} {pl : PeerLoader ρ} {r : Settled ρ} (h : Finished env rep pl r) :
    r.control.pending = [] ∧ r.control.state ≠ .waitingForBlocks := by
  cases h <;> exact ⟨rfl, by simp [settled]⟩

/-- **The queue follows the record.** -/
theorem Watched.Inv.step {i : Input} (hinv : s.Inv) (h : WatchedStep gw rep s i s') : s'.Inv := by
  rcases step_cases h hinv.pending with ⟨now, rng, e, r, -, hr, rfl⟩ | ⟨c, hp, -, -, rfl⟩
  · have hdone : r.control.pending = [] ∧ r.control.state ≠ .waitingForBlocks → (s.after e r).Inv := fun hd =>
      Watched.inv_of_not_waiting (by simpa using hd.1) (by simpa using hd.2)
    obtain ⟨⟨st, ts⟩, pl, asked, got⟩ := s
    obtain ⟨rfl, htracks⟩ : ts = [] ∧ (st = .waitingForBlocks → Tracks got [] asked pl.queue) :=
      ⟨hinv.pending, hinv.tracks⟩
    cases hr with
    | ignored st e pl hi =>
      refine ⟨by simp [settled], fun hst => ?_⟩
      have hst' : st = .waitingForBlocks := by simpa [settled] using hst
      subst hst'
      cases e with
      | block b => cases hi
      | _ => exact htracks rfl
    | started pl d hd => exact hdone ⟨rfl, by simp [settled]⟩
    | restarted pl d hd => exact hdone ⟨rfl, by simp [settled]⟩
    | refused ids pl hp err hskip =>
      obtain ⟨req, hreq⟩ := skipKnown_ok hskip
      cases hreq
    | requested ids pl hp id req hskip =>
      refine ⟨rfl, fun _ => ?_⟩
      have hsent : (pl.sent ++ (id :: req).map Request.block).drop pl.sent.length = (id :: req).map .block :=
        List.drop_left
      show Tracks [] [] (blockRequests ((pl.sent ++ (id :: req).map Request.block).drop pl.sent.length)) _
      rw [hsent, blockRequests_block]
      exact tracks_newQueue [] (id :: req)
    | known ids pl hp r hskip hfin => exact hdone hfin.state
    | received b pl hready =>
      refine ⟨by simp [settled], fun _ => ?_⟩
      cases b with
      | none => exact htracks rfl
      | some b => exact (htracks rfl).putBlock List.not_mem_nil
    | rejected b pl hp err hready hput =>
      refine ⟨by simp [settled], fun _ => ?_⟩
      cases b with
      | none => exact htracks rfl
      | some b => exact (htracks rfl).putBlock List.not_mem_nil
    | loaded b pl hp r hready hput hfin => exact hdone hfin.state
    | ticked st tm pl hst ht =>
      refine ⟨by simp [settled], fun hst' => ?_⟩
      have hst'' : st = .waitingForBlocks := by simpa [settled] using hst'
      subst hst''
      exact htracks rfl
    | stuck st tm pl hp err hst ht hput => exact hdone ⟨rfl, by simp [settled]⟩
    | gaveUp st tm pl hp hst ht hput => exact hdone ⟨rfl, by simp [settled]⟩
  · exact ⟨hinv.pending, hinv.tracks⟩

theorem Watched.Inv.lastReceived (hinv : s.Inv) (hst : s.control.state = .waitingForBlocks) :
    s.pl.queue.lastReceived.map Proto.Block.blockID = (untilRepeat [] s.arrived).getLast? := by
  unfold Queue.lastReceived arrived
  rw [← (hinv.tracks hst).received_ids, List.getLast?_map]

/-- A timeout whose blocks are accepted leaves the leash on the last of them. -/
theorem leash_of_timeout {i : Input} (hinv : s.Inv) (h : WatchedStep gw rep s i s') (ht : s.TimesOut i)
    (hputs : s.PutsSucceed gw) : s'.pl.hp.leash s.pl.peer = match s.pl.queue.lastReceived with
      | some b => .ok b.blockID
      | none => s.pl.hp.leash s.pl.peer := by
  obtain ⟨hp, hhp⟩ := hputs
  rcases step_cases h hinv.pending with ⟨now, rng, e, r, rfl, hr, rfl⟩ | ⟨c, hp, rfl, -, -⟩
  · cases e with
    | tick tm =>
      obtain ⟨hst, hto⟩ := ht
      rw [Watched.after_pl]
      obtain ⟨⟨st, ts⟩, pl, asked, got⟩ := s
      cases hr with
      | ignored st e pl hi =>
        rcases hst with rfl | rfl <;> cases hi
      | ticked st tm pl _ hno =>
        rw [hto] at hno
        cases hno
      | stuck st tm pl hp' err _ _ hput =>
        rw [hhp] at hput
        cases hput
      | gaveUp st tm pl hp' _ _ hput => exact leash_putBlocks hput
    | _ => cases ht
  · cases ht

/-- **When one timeout leaves the leash where it should.** -/
theorem leavesLeash_iff {i : Input} (hinv : s.Inv) (h : WatchedStep gw rep s i s') :
    LeavesLeash gw ⟨s, i, s'⟩ ↔ (s.TimesOut i → s.PutsSucceed gw → s.Settles) := by
  unfold LeavesLeash
  refine forall_congr' fun ht => forall_congr' fun hputs => ?_
  rw [leash_of_timeout hinv h ht hputs]
  unfold Watched.expectedLeash Watched.Settles
  by_cases hst : s.control.state = .waitingForBlocks
  · rw [if_pos hst, if_pos hst]
    have hlast := hinv.lastReceived hst
    cases hq : s.pl.queue.lastReceived with
    | none =>
      rw [hq, Option.map_none] at hlast
      rw [← hlast]
      -- nothing was put, so nothing has arrived
      cases hids : s.arrived with
      | nil => simp
      | cons id ids =>
        rw [hids] at hlast
        simp [untilRepeat, List.getLast?_cons] at hlast
    | some b =>
      rw [hq, Option.map_some] at hlast
      rw [← hlast]
      cases hids : s.arrived with
      | nil =>
        rw [hids] at hlast
        cases hlast
      | cons id ids => simp [List.getLast?_cons]
  · rw [if_neg hst, if_neg hst]
    cases s.pl.queue.lastReceived with
    | none => simp
    | some b => simp [eq_comm]

end

/-! ## A whole run -/

/-- **When timeouts leave the leash where they should**, for every run of the loader of a peer from its creation. -/
theorem timeouts_leave_leash_iff {ρ : Type} {gw : Gowaves} {rep : Reporter ρ} {peer : Addr} {hp : Linkage} {r : ρ}
    {s' : Watched ρ} {tr : List (Link (Watched ρ) Input)}
    (h : Path (WatchedStep gw rep) (Watched.start peer hp r) tr s') :
    (∀ x ∈ tr, LeavesLeash gw x) ↔ ∀ x ∈ tr, x.pre.TimesOut x.input → x.pre.PutsSucceed gw → x.pre.Settles := by
  have hstart : (Watched.start peer hp r).Inv := Watched.inv_of_not_waiting rfl (by simp [Watched.start, newPeerLoader])
  obtain ⟨hinv, -⟩ := Path.invariant (fun s i s' (hs : s.Inv) hstep => hs.step hstep) hstart h
  exact forall_congr' fun x => forall_congr' fun hx => leavesLeash_iff (hinv x hx).1 (h.step_of_mem hx)

namespace Sample
open Chains.Sample (gowaves block peer)

def reporter : Reporter Unit := ⟨fun _ _ _ _ => .ok ((), true), fun _ _ _ => ()⟩

def watch (hp : Linkage) (is : List Input) : Res (Watched Unit) :=
  is.foldlM (Watched.apply gowaves reporter) (.start (peer 2) hp ())

def event (e : Event) : Input := .event 0 (.listed _ _) e

def begin : Input := event .start
def offer (ns : List UInt8) : Input := event (.ids (ns.map Chains.Sample.id))
def deliver (n p : UInt8) : Input := event (.block (some (block n p)))

def late : Input := event (.tick 31000000000)

/-- The same peer sends a block by itself. -/
def push (n p : UInt8) : Input := .call (.putBlock (block n p) (peer 2))

theorem watch_reads {α : Type} {hp : Linkage} {is : List Input} {s : Watched Unit} {v : α} (f : Watched Unit → α)
    (hhp : Chains.Sample.after [] = .ok hp) (h : watch hp is = .ok s)
    (hv : (Chains.Sample.after [] >>= fun hp => (watch hp is).map f) = .ok v) : f s = v := by
  rw [hhp] at hv
  change (watch hp is).map f = .ok v at hv
  rw [h] at hv
  exact Except.ok.inj hv

theorem watch_path {hp : Linkage} {is : List Input} {s : Watched Unit} (hext : ∀ i ∈ is, i.External)
    (h : watch hp is = .ok s) : ∃ tr, Path (WatchedStep gowaves reporter) (.start (peer 2) hp ()) tr s := by
  obtain ⟨tr, htr, his⟩ := Path.of_foldlM h
  exact ⟨tr, htr.restrict fun x hx => hext _ (his ▸ List.mem_map_of_mem hx)⟩

theorem exists_watch {hp : Linkage} (is : List Input) (hhp : Chains.Sample.after [] = .ok hp)
    (h : (Chains.Sample.after [] >>= fun hp => watch hp is).isOk = true) : ∃ s, watch hp is = .ok s := by
  rw [hhp] at h
  exact Go.exists_of_isOk h

end Sample

/-- Two blocks are requested, one arrives, and the loader times out. -/
theorem timeouts_leave_leash_iff_sample : ∃ hp s3 s4 tr, Chains.Sample.after [] = .ok hp ∧
    Path (WatchedStep Chains.Sample.gowaves Sample.reporter) (.start (Chains.Sample.peer 2) hp ()) tr s4 ∧
    (⟨s3, Sample.late, s4⟩ : Link (Watched Unit) Input) ∈ tr ∧ s3.TimesOut Sample.late ∧
    ∀ x ∈ tr, LeavesLeash Chains.Sample.gowaves x := by
  obtain ⟨hp, hhp⟩ := Go.exists_of_isOk (x := Chains.Sample.after []) (by decide +kernel)
  let is : List Input := [Sample.begin]
  obtain ⟨s1, h1⟩ := Sample.exists_watch is hhp (by decide +kernel)
  obtain ⟨s2, h2⟩ := Sample.exists_watch (is ++ [Sample.offer [2, 3]]) hhp (by decide +kernel)
  obtain ⟨s3, h3⟩ := Sample.exists_watch (is ++ [Sample.offer [2, 3]] ++ [Sample.deliver 2 1]) hhp
    (by decide +kernel)
  obtain ⟨s4, h4⟩ := Sample.exists_watch
    (is ++ [Sample.offer [2, 3]] ++ [Sample.deliver 2 1] ++ [Sample.late]) hhp (by decide +kernel)
  have hpath : Path (WatchedStep Chains.Sample.gowaves Sample.reporter) (.start (Chains.Sample.peer 2) hp ()) _ s4 :=
    .cons (i := Sample.begin) ⟨Path.first_of_foldlM h1, trivial⟩
      (.cons (i := Sample.offer [2, 3]) ⟨Path.step_of_foldlM h1 h2, trivial⟩
        (.cons (i := Sample.deliver 2 1) ⟨Path.step_of_foldlM h2 h3, trivial⟩
          (.cons (i := Sample.late) ⟨Path.step_of_foldlM h3 h4, trivial⟩ (.nil s4))))
  have hstate : s3.control.state = .waitingForBlocks :=
    Sample.watch_reads (fun s => s.control.state) hhp h3 (by decide +kernel)
  have htime : timedOut s3.pl.timestamp 31000000000 = true :=
    Sample.watch_reads (fun s => timedOut s.pl.timestamp 31000000000) hhp h3 (by decide +kernel)
  have harrived : s3.arrived = [Chains.Sample.id 2] :=
    Sample.watch_reads Watched.arrived hhp h3 (by decide +kernel)
  refine ⟨hp, s3, s4, _, hhp, hpath, by simp, ⟨.inr hstate, htime⟩,
    (timeouts_leave_leash_iff hpath).2 fun x hx ht _ => ?_⟩
  simp only [List.mem_cons, List.not_mem_nil, or_false] at hx
  rcases hx with rfl | rfl | rfl | rfl
  · cases ht
  · cases ht
  · cases ht
  · unfold Watched.Settles
    rw [if_pos hstate, harrived]
    rfl

/-- **A finished batch is put once more**: a block is loaded, the peer sends the next one by itself, and the timeout
while waiting for IDs moves the leash back. -/
theorem timeout_moves_leash_back : ∃ hp, Chains.Sample.after [] = .ok hp ∧ ¬ ∀ tr s',
    Path (WatchedStep Chains.Sample.gowaves Sample.reporter) (.start (Chains.Sample.peer 2) hp ()) tr s' →
    ∀ x ∈ tr, LeavesLeash Chains.Sample.gowaves x := by
  obtain ⟨hp, hhp⟩ := Go.exists_of_isOk (x := Chains.Sample.after []) (by decide +kernel)
  refine ⟨hp, hhp, fun hall => ?_⟩
  let is : List Input := [Sample.begin, Sample.offer [1, 2], Sample.deliver 2 1, Sample.push 3 2]
  obtain ⟨s, h⟩ := Sample.exists_watch is hhp (by decide +kernel)
  obtain ⟨s', h'⟩ := Sample.exists_watch (is ++ [Sample.late]) hhp (by decide +kernel)
  have hext : ∀ i ∈ is, i.External := by
    simp [is, Sample.begin, Sample.offer, Sample.deliver, Sample.push, Sample.event, Input.External, Event.External]
  obtain ⟨tr, htr⟩ := Sample.watch_path hext h
  have hstate : s.control.state = .waitingForIDs :=
    Sample.watch_reads (fun s => s.control.state) hhp h (by decide +kernel)
  have htime : timedOut s.pl.timestamp 31000000000 = true :=
    Sample.watch_reads (fun s => timedOut s.pl.timestamp 31000000000) hhp h (by decide +kernel)
  have hpeer : s.pl.peer = Chains.Sample.peer 2 := Sample.watch_reads (fun s => s.pl.peer) hhp h (by decide +kernel)
  have hexpected : s.expectedLeash = .ok (Chains.Sample.id 3) :=
    Sample.watch_reads Watched.expectedLeash hhp h (by decide +kernel)
  have hleash : s'.pl.hp.leash (Chains.Sample.peer 2) = .ok (Chains.Sample.id 2) :=
    Sample.watch_reads (fun s => s.pl.hp.leash (Chains.Sample.peer 2)) hhp h' (by decide +kernel)
  have hputs : (putBlocks Chains.Sample.gowaves s.pl.peer s.pl.hp s.pl.queue.received).map Prod.snd = .ok none :=
    Sample.watch_reads (fun s => (putBlocks Chains.Sample.gowaves s.pl.peer s.pl.hp s.pl.queue.received).map Prod.snd)
      hhp h (by decide +kernel)
  obtain ⟨⟨hp', err⟩, hput, herr⟩ : ∃ r, putBlocks Chains.Sample.gowaves s.pl.peer s.pl.hp s.pl.queue.received = .ok r ∧
      r.2 = none := by
    cases hr : putBlocks Chains.Sample.gowaves s.pl.peer s.pl.hp s.pl.queue.received with
    | error f => rw [hr] at hputs; cases hputs
    | ok r => exact ⟨r, rfl, by rw [hr] at hputs; exact Except.ok.inj hputs⟩
  have hlaw := hall _ _ (htr.append (.cons (i := Sample.late) ⟨Path.step_of_foldlM h h', trivial⟩ (.nil s')))
    ⟨s, Sample.late, s'⟩ (by simp) ⟨.inl hstate, htime⟩ ⟨hp', by rw [hput, ← herr]⟩
  simp only at hlaw
  rw [hpeer, hleash, hexpected] at hlaw
  exact absurd hlaw (by decide +kernel)

end Loading
end ForkDetector
