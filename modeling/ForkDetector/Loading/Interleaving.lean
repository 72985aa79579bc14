import ForkDetector.Lib.Interleave
import ForkDetector.Chains.Reads
import ForkDetector.Loading.PeerLoader
/-!
# Interleaving — the linkage between its callers

Each call of a `Linkage` method is atomic, and the loops of a loader make several: `requestBlocks` looks a block up,
reads the leash, and only then moves the leash to the block, and the distributor puts blocks in between.  Here a loader
is where it stands between two calls (`Cursor`).  What it has found stored is still stored when it moves the leash, as
blocks are never removed, so that no leash ever dangles (`leashes_stored`).
-/
namespace ForkDetector
namespace Loading

open Chains (Linkage Storage Put Mirrors Listed)
open Interleave (World Act System Guarantee)
open Proto (BlockID Gowaves MicroBlockInv)

/-- Where a loader stands between two calls on the linkage. -/
inductive Cursor where
  | free
  /-- in `requestBlocks`, at the top of the loop over the IDs -/
  | check (ids : List BlockID)
  /-- `HasBlock` has found the first ID -/
  | found (id : BlockID) (ids : List BlockID)
  /-- `Leash` has returned another block -/
  | move (id : BlockID) (ids : List BlockID)
  /-- in `appendBlock` or `handleFailure`, with these blocks to put -/
  | put (blocks : List Proto.Block)

/-- A loader begins with the IDs of a message, begins to put blocks, or makes its next call. -/
inductive Move where
  | request (ids : List BlockID)
  | append (blocks : List Proto.Block)
  | next

/-- The next call of the loader of a peer. -/
def next (gw : Gowaves) (peer : Addr) (hp : Linkage) : Cursor → Linkage × Cursor
  | .free => (hp, .free)
  | .check [] => (hp, .free)
  | .check (id :: ids) =>
    match hp.hasBlock id with
    | .ok true => (hp, .found id ids)
    | _ => (hp, .free)
  | .found id ids =>
    match hp.leash peer with
    | .ok leash => (hp, if id ≠ leash then .move id ids else .check ids)
    | .error _ => (hp, .free)
  | .move id ids => (hp.moveLeash id peer, .check ids)
  | .put [] => (hp, .free)
  | .put (b :: bs) =>
    match hp.putBlock gw b peer with
    | .ok hp => (hp, .put bs)
    | .error _ => (hp, .free)

/-- A loader that is in a loop begins nothing else. -/
def advance (gw : Gowaves) (peer : Addr) : Move → Linkage → Cursor → Linkage × Cursor
  | .request ids, hp, .free => (hp, .check ids)
  | .append blocks, hp, .free => (hp, .put blocks)
  | .next, hp, c => next gw peer hp c
  | _, hp, c => (hp, c)

/-- Loaders of the peers `peer i`, and a distributor that puts blocks and micro-blocks. -/
def callers {I : Type} (gw : Gowaves) (peer : I → Addr) : System Linkage Cursor I Put Move :=
  ⟨fun p hp => hp.left gw p.call, fun i => advance gw (peer i)⟩

/-! ## A loader on its own -/

theorem iterate_check (gw : Gowaves) (peer : Addr) : ∀ (ids : List BlockID) {hp hp' : Linkage}
    {r : Except (Go.Err Sentinel) (List BlockID)}, skipKnown peer hp ids = .ok (hp', r) →
    ∃ n, (fun x : Linkage × Cursor => next gw peer x.1 x.2)^[n] (hp, .check ids) = (hp', .free)
  | [], hp, _, _, h => by
    cases h
    exact ⟨1, rfl⟩
  | id :: ids, hp, hp', r, h => by
    unfold skipKnown at h
    have hhas : hp.hasBlock id = .ok hp.st.nums[id]?.isSome := Storage.hasBlock_eq hp.st id
    cases hb : hp.st.nums[id]?.isSome with
    | false =>
      rw [hhas, hb] at h
      cases h
      refine ⟨1, ?_⟩
      simp only [Function.iterate_one, next, hhas, hb]
    | true =>
      have h1 : next gw peer hp (.check (id :: ids)) = (hp, .found id ids) := by simp only [next, hhas, hb]
      rw [hhas, hb] at h
      simp only at h
      cases hl : hp.leash peer with
      | error f =>
        have h2 : next gw peer hp (.found id ids) = (hp, .free) := by simp only [next, hl]
        rw [hl] at h
        cases f with
        | err e =>
          cases h
          exact ⟨2, by simp only [Function.iterate_succ, Function.iterate_zero, Function.comp_apply, id_eq, h1, h2]⟩
        | panic m => cases h
      | ok leash =>
        rw [hl] at h
        by_cases hne : id ≠ leash
        · have h2 : next gw peer hp (.found id ids) = (hp, .move id ids) := by simp only [next, hl, if_pos hne]
          simp only [if_pos hne] at h
          obtain ⟨n, hn⟩ := iterate_check gw peer ids h
          refine ⟨n + 3, ?_⟩
          simp only [Function.iterate_succ, Function.comp_apply, h1, h2]
          exact hn
        · have h2 : next gw peer hp (.found id ids) = (hp, .check ids) := by simp only [next, hl, if_neg hne]
          simp only [if_neg hne] at h
          obtain ⟨n, hn⟩ := iterate_check gw peer ids h
          refine ⟨n + 2, ?_⟩
          simp only [Function.iterate_succ, Function.comp_apply, h1, h2]
          exact hn

theorem iterate_put (gw : Gowaves) (peer : Addr) : ∀ (bs : List Proto.Block) {hp hp' : Linkage}
    {r : Option (Go.Err Sentinel)}, putBlocks gw peer hp bs = .ok (hp', r) →
    ∃ n, (fun x : Linkage × Cursor => next gw peer x.1 x.2)^[n] (hp, .put bs) = (hp', .free)
  | [], hp, _, _, h => by
    cases h
    exact ⟨1, rfl⟩
  | b :: bs, hp, hp', r, h => by
    unfold putBlocks at h
    cases hb : hp.putBlock gw b peer with
    | error f =>
      rw [hb] at h
      cases f with
      | err e =>
        cases h
        refine ⟨1, ?_⟩
        simp only [Function.iterate_one, next, hb]
      | panic m => cases h
    | ok hp1 =>
      rw [hb] at h
      have h1 : next gw peer hp (.put (b :: bs)) = (hp1, .put bs) := by simp only [next, hb]
      obtain ⟨n, hn⟩ := iterate_put gw peer bs h
      refine ⟨n + 1, ?_⟩
      simp only [Function.iterate_succ, Function.comp_apply, h1]
      exact hn

/-! ## Loaders among others -/

/-- What a loader has found stored, and has yet to move the leash to. -/
def Cursor.Knows (hp : Linkage) : Cursor → Prop
  | .found id _ => hp.Has id
  | .move id _ => hp.Has id
  | _ => True

section
variable {gw : Gowaves} {scheme : Proto.Scheme} {genesis : Proto.Block} {hp hp' : Linkage}

theorem reachable_call {t : Chains.BlockTree BlockID} (h : Chains.Reachable gw scheme genesis hp t) {c : Chains.Call}
    (hc : hp.call gw c = .ok hp') :
    (∃ t, Chains.Reachable gw scheme genesis hp' t) ∧ ∀ id, hp.Has id → hp'.Has id := by
  refine ⟨⟨_, .call c h hc⟩, fun id hid => ?_⟩
  obtain ⟨n, hn⟩ := Option.isSome_iff_exists.1 hid
  unfold Linkage.Has
  rw [(h.kept_call hc).num id n hn]
  rfl

theorem reachable_left {t : Chains.BlockTree BlockID} (h : Chains.Reachable gw scheme genesis hp t) (p : Put) :
    (∃ t, Chains.Reachable gw scheme genesis (hp.left gw p.call) t) ∧
      ∀ id, hp.Has id → (hp.left gw p.call).Has id := by
  unfold Linkage.left
  cases hc : hp.exec gw p.call with
  | error f => exact ⟨⟨t, h⟩, fun id hid => hid⟩
  | ok hp' =>
    have hcall : hp.call gw p.call = .ok hp' := by cases p <;> exact hc
    exact reachable_call h hcall

/-- **What one call of a loader does.**  The leash is moved to a block that it knows is stored. -/
theorem next_spec {t : Chains.BlockTree BlockID} (h : Chains.Reachable gw scheme genesis hp t) (peer : Addr)
    {c : Cursor} (hc : c.Knows hp) : (∃ t, Chains.Reachable gw scheme genesis (next gw peer hp c).1 t) ∧
      (∀ id, hp.Has id → (next gw peer hp c).1.Has id) ∧ (next gw peer hp c).2.Knows (next gw peer hp c).1 := by
  have hsame : ∀ c' : Cursor, c'.Knows hp → (∃ t, Chains.Reachable gw scheme genesis hp t) ∧
      (∀ id, hp.Has id → hp.Has id) ∧ c'.Knows hp := fun c' hc' => ⟨⟨t, h⟩, fun _ h => h, hc'⟩
  unfold next
  split
  · exact hsame .free trivial
  · exact hsame .free trivial
  · rename_i id ids
    split
    · rename_i hhas
      refine hsame (.found id ids) ?_
      rw [Linkage.hasBlock, Storage.hasBlock_eq] at hhas
      exact Except.ok.inj hhas
    · exact hsame .free trivial
  · rename_i id ids
    split
    · rename_i leash _
      by_cases hne : id ≠ leash
      · rw [if_pos hne]
        exact hsame (.move id ids) hc
      · rw [if_neg hne]
        exact hsame (.check ids) trivial
    · exact hsame .free trivial
  · rename_i id ids
    have hmove : hp.call gw (.moveLeash id peer) = .ok (hp.moveLeash id peer) := by
      have hhas : hp.hasBlock id = .ok true := by rw [Linkage.hasBlock, Storage.hasBlock_eq, show _ = true from hc]
      show (do let ok ← hp.hasBlock id; _) = _
      rw [hhas]
      rfl
    obtain ⟨hr, hle⟩ := reachable_call h hmove
    exact ⟨hr, hle, trivial⟩
  · exact hsame .free trivial
  · rename_i b bs
    cases hput : hp.putBlock gw b peer with
    | ok hp1 =>
      obtain ⟨hr, hle⟩ := reachable_call h (c := .putBlock b peer) hput
      exact ⟨hr, hle, trivial⟩
    | error f => exact hsame .free trivial

theorem callers_guarantee {I : Type} [DecidableEq I] (gw : Gowaves) (scheme : Proto.Scheme) (genesis : Proto.Block)
    (peer : I → Addr) : Guarantee (callers gw peer) (fun hp => ∃ t, Chains.Reachable gw scheme genesis hp t)
      (fun hp hp' => ∀ id, hp.Has id → hp'.Has id) (fun _ hp c => c.Knows hp) where
  refl _ _ h := h
  trans _ _ _ h h' id hid := h' id (h id hid)
  stable _ hp hp' c h hc := by
    cases c with
    | found id ids => exact h id hc
    | move id ids => exact h id hc
    | _ => trivial
  env p hp h := by
    obtain ⟨t, h⟩ := h
    exact reachable_left h p
  proc i a hp c h hc := by
    obtain ⟨t, h⟩ := h
    show _ ∧ _ ∧ Cursor.Knows _ _
    unfold callers advance
    simp only
    split
    · exact ⟨⟨t, h⟩, fun _ h => h, trivial⟩
    · exact ⟨⟨t, h⟩, fun _ h => h, trivial⟩
    · exact next_spec h (peer i) hc
    · exact ⟨⟨t, h⟩, fun _ h => h, hc⟩

end

/-! ## What is read at any moment -/

/-- **Nothing that a leash leads to is missing.**  `Fork` is asked for a leashed peer that the scan of the leashes
lists, and `LCB` for any peer without a leash, or while some leash is in the scan. -/
structure Found (gw : Gowaves) (hp : Linkage) : Prop where
  forks : ∀ rng srt P, Go.NoError (hp.forks gw rng srt P)
  fork : ∀ rng p k, Listed p → hp.st.leash p = .ok k → Go.NoError (hp.fork gw rng p)
  lcb : ∀ rng p, (∀ k, hp.st.leash p = .ok k → ∃ q k', hp.st.leash q = .ok k' ∧
    Storage.inLeashRange (Chains.addrKeyBytes q) = true) → Go.NoError (hp.lcb gw rng p)
  leashScore : ∀ p, Go.NoError (hp.leashScore p)
  lastIDs : ∀ p n, Go.NoError (hp.leash p >>= fun k => hp.lastIDs k n)

theorem found {gw : Gowaves} (hgw : gw.RoundTrips) {hp : Linkage} {t : Chains.BlockTree BlockID}
    (M : Mirrors gw hp t) : Found gw hp := by
  refine ⟨M.forks_noError hgw, fun rng p k hp hk => M.fork_noError hgw rng hp hk, fun rng p hq => ?_, fun p => ?_,
    fun p n => ?_⟩
  · refine M.lcb_noError hgw rng p fun k hk hls => ?_
    obtain ⟨q, k', hk', hr⟩ := hq k hk
    obtain ⟨b, hb⟩ := Chains.exists_mem_leashes hls hr hk'
    cases hb
  · obtain ⟨score, hs⟩ := M.exists_leashScore p
    exact .of_ok hs
  · obtain ⟨k, hk, hstored⟩ := M.leash_stored p
    exact .bind (.of_ok hk) fun k' hk' => by
      rw [hk] at hk'
      cases hk'
      exact M.lastIDs_noError hstored n

/-- Also between the two writes of a put every leash points to a stored block. -/
theorem stopped_leashes {gw : Gowaves} {scheme : Proto.Scheme} {genesis : Proto.Block} {hp : Linkage}
    {t : Chains.BlockTree BlockID} (h : Chains.Reachable gw scheme genesis hp t) (p : Put) (k : Nat) {key : Bytes}
    {id : BlockID} (hk : (p.stopped gw hp k).leashRecords[key]? = some id) :
    (p.stopped gw hp k).nums[id]?.isSome = true := by
  have hbefore : ∀ {key : Bytes} {id : BlockID}, hp.st.leashRecords[key]? = some id → hp.Has id := fun hk =>
    h.mirrors.refines.stored_iff.1 (h.mirrors.leashes _ _ hk).1
  rcases p.stopped_cases gw hp with ⟨-, hsame⟩ | ⟨l1, hexec, -, hleash, hstop⟩
  · rw [hsame k] at hk ⊢
    exact hbefore hk
  · obtain ⟨⟨t', h'⟩, hkept⟩ := reachable_left h p
    rw [Linkage.left_of_ok hexec] at h' hkept
    rcases hstop k with hs | hs | hs
    · rw [hs] at hk ⊢
      exact hbefore hk
    · rw [hs] at hk ⊢
      rw [hleash] at hk
      exact hkept id (hbefore hk)
    · rw [hs] at hk ⊢
      exact h'.mirrors.refines.stored_iff.1 (h'.mirrors.leashes _ _ hk).1

/-- **No leash ever dangles**, for every interleaving of a distributor and any loaders: not between two calls, not
between the two writes of a put, and what a leash led to is found by every later call. -/
theorem leashes_stored {gw : Gowaves} (hgw : gw.RoundTrips) {scheme : Proto.Scheme} {genesis : Proto.Block}
    {l : Linkage} (h : Chains.newLinkage gw scheme genesis = .ok l) {I : Type} [DecidableEq I] (peer : I → Addr)
    (acts : List (Act I Put Move)) {w : World Linkage Cursor I}
    (hw : (callers gw peer).run ⟨l, fun _ => .free⟩ acts = w) :
    (∀ (key : Bytes) (id : BlockID), w.shared.st.leashRecords[key]? = some id → w.shared.hasBlock id = .ok true) ∧
    (∀ (p : Put) (k : Nat) (key : Bytes) (id : BlockID), (p.stopped gw w.shared k).leashRecords[key]? = some id →
      (p.stopped gw w.shared k).hasBlock id = .ok true) ∧
    Found gw w.shared ∧
    ∀ p k n acts', w.shared.leash p = .ok k → Go.NoError (((callers gw peer).run w acts').shared.lastIDs k n) := by
  have G := callers_guarantee gw scheme genesis peer
  obtain ⟨⟨t, hr⟩, -, hknows⟩ := G.run (w := ⟨l, fun _ => .free⟩) ⟨_, .start h⟩ (fun _ => trivial) acts
  rw [hw] at hr hknows
  refine ⟨fun key id hk => hr.mirrors.refines.hasBlock_iff.2 (hr.mirrors.leashes key id hk).1, fun p k key id hk => ?_,
    found hgw hr.mirrors, fun p k n acts' hk => ?_⟩
  · rw [Storage.hasBlock_eq, stopped_leashes hr p k hk]
  · obtain ⟨⟨t', hr'⟩, hle, -⟩ := G.run (w := w) ⟨t, hr⟩ hknows acts'
    obtain ⟨k', hk', hstored⟩ := hr.mirrors.leash_stored p
    obtain rfl : k' = k := Except.ok.inj (hk'.symm.trans hk)
    exact hr'.mirrors.lastIDs_noError
      (hr'.mirrors.refines.stored_iff.2 (hle k' (hr.mirrors.refines.stored_iff.1 hstored))) n

namespace Sample

/-- An IPv6 address of a local link. -/
def linkLocal : Addr := ⟨254 :: 128 :: List.replicate 13 0 ++ [1], "eth0", .inr (.inr rfl), fun _ => rfl⟩

def fresh : Res Linkage := Chains.newLinkage Chains.Sample.gowaves 87 (Chains.Sample.block 1 0)

/-- One loader, of an IPv4 peer. -/
def run (l : Linkage) (acts : List (Act Unit Put Move)) : World Linkage Cursor Unit :=
  (callers Chains.Sample.gowaves fun _ => Chains.Sample.peer 9).run ⟨l, fun _ => .free⟩ acts

/-- A loader finds a block, and moves the leash after the distributor has put another one. -/
def between : List (Act Unit Put Move) :=
  [.env (Chains.Sample.putKey 2 1), .proc () (.request [Chains.Sample.id 2]), .proc () .next,
    .env (Chains.Sample.putKey 3 2), .proc () .next, .proc () .next]

def notFound : Res Chains.Fork → Bool
  | .error (.err e) => e.is .notFound
  | _ => false

end Sample

/-- The leash that a loader moves while the distributor puts blocks. -/
theorem leashes_stored_sample : ∃ l, Sample.fresh = .ok l ∧
    Found Chains.Sample.gowaves (Sample.run l Sample.between).shared := by
  obtain ⟨l, h⟩ := Go.exists_of_isOk (x := Sample.fresh) (by decide +kernel)
  exact ⟨l, h, (leashes_stored Chains.Sample.gowaves_roundTrips h _ _ rfl).2.2.1⟩

/-- **The fork of a peer whose address has a zone is not found**: the key of its leash leaves the zone out, so that no
listed leash is its own, and `Fork` compares the zero block with the longest chain. -/
theorem fork_not_found : ∃ l w e, Sample.fresh = .ok l ∧
    Sample.run l [.env (.block (Chains.Sample.block 2 1) Sample.linkLocal)] = w ∧
    w.shared.st.leash Sample.linkLocal = .ok (Chains.Sample.id 2) ∧
    w.shared.fork Chains.Sample.gowaves (.listed _ _) Sample.linkLocal = .error (.err e) ∧
    e.is .notFound = true := by
  obtain ⟨l, h⟩ := Go.exists_of_isOk (x := Sample.fresh) (by decide +kernel)
  have hleash : (Sample.fresh >>= fun l => (Sample.run l
      [.env (.block (Chains.Sample.block 2 1) Sample.linkLocal)]).shared.st.leash Sample.linkLocal) =
      .ok (Chains.Sample.id 2) := by decide +kernel
  have hfork : (Sample.fresh.map fun l => Sample.notFound ((Sample.run l
      [.env (.block (Chains.Sample.block 2 1) Sample.linkLocal)]).shared.fork Chains.Sample.gowaves (.listed _ _)
        Sample.linkLocal)) = .ok true := by decide +kernel
  rw [h] at hleash hfork
  have hmissing : Sample.notFound _ = true := Except.ok.inj hfork
  unfold Sample.notFound at hmissing
  split at hmissing
  · rename_i e he
    exact ⟨l, _, e, h, rfl, hleash, he, hmissing⟩
  · cases hmissing

end Loading
end ForkDetector
