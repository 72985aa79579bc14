import ForkDetector.Api.ActiveForks
import ForkDetector.Chains.Stats
import ForkDetector.Chains.Views
/-!
# Handlers — the answers that take several reads

Four handlers read the linkage more than once: the heads or the leashes and then each block, or whether the peer is
leashed and then its fork.  The loaders call the linkage in between.  All reads of an answer still fit one state of the
linkage (`answers_at_once`), and so the answers are lists of what that state has (`answers_list`).
-/
namespace ForkDetector
namespace Api

open Ancestry
open Chains (Linkage LookupPeers Views Platform BlockTree Mirrors Leash Leashed Listed Head Block Fork GeneratorStats)
open Proto (BlockID Gowaves WavesAddress)

/-- What a handler writes.  The body is the one given to the JSON encoder, a failure is a status 500 with
`Failed to complete request: %v`, and the router turns a panic into an empty answer. -/
inductive Response (α : Type) where
  | json (body : α)
  | error (code : Nat) (format arg : String)
  | failed (e : Go.Err Sentinel)
  | recovered

def respond {α : Type} : Res α → Response α
  | .ok body => .json body
  | .error (.err e) => .failed e
  | .error (.panic _) => .recovered

/-- A parameter of the path, with what it parses to. -/
structure Param (α : Type) where
  text : String
  parsed : Option α

structure HeadInfo where
  number : Nat
  id : BlockID
  height : Nat
  score : Int
  timestamp : Int

structure LeashInfo where
  blockID : BlockID
  height : Nat
  score : Int
  timestamp : Int
  generator : WavesAddress
  peersCount : Nat
  peers : List Addr

/-- `byScoreAndPeersDesc.Less`. -/
def byScoreAndPeersDesc (a b : LeashInfo) : Bool :=
  if a.score = b.score then decide (a.peersCount > b.peersCount) else decide (a.score > b.score)

def LeashInfo.rank (i : LeashInfo) : Int ×ₗ Nat := toLex (i.score, i.peersCount)

theorem descending_byScoreAndPeersDesc : Select.Descending LeashInfo.rank byScoreAndPeersDesc := by
  intro a b
  unfold byScoreAndPeersDesc LeashInfo.rank
  rw [Prod.Lex.toLex_lt_toLex]
  by_cases he : a.score = b.score
  · simp [he]
  · simp [he, Ne.symm he]

section
variable (gw : Gowaves)

def headInfo (l : Linkage) (h : Head) : Res HeadInfo := do
  let b ← l.block gw h.blockID
  .ok ⟨h.id, h.blockID, b.height, b.score, b.timestamp⟩

def heads (views : Nat → Linkage) : Response (List HeadInfo) :=
  respond do
    let heads ← (views 0).activeHeads
    Go.readEach (headInfo gw) (fun i => views (i + 1)) heads

def leashInfo (l : Linkage) (e : BlockID × List Addr) : Res LeashInfo := do
  let b ← l.block gw e.1
  .ok ⟨b.id, b.height, b.score, b.timestamp, b.generator, e.2.length, e.2⟩

def leashes (rng : Go.MapRange BlockID (List Addr)) (srt : Go.UnstableSort LeashInfo byScoreAndPeersDesc)
    (views : Nat → Linkage) : Response (List LeashInfo) :=
  respond do
    let leashes ← (views 0).leashes
    let m := Chains.groupByBlock leashes
    let r ← Go.readEach (leashInfo gw) (fun i => views (i + 1)) (rng.entries m.toList)
    .ok (srt.sort r)

def forks (rng : Go.MapRange BlockID (List Addr)) (srt : Go.UnstableSort Fork Chains.byScoreAndPeersDesc)
    (linkage : Linkage) (ss : List (Option Addr)) : Answer :=
  match getPeers ss with
  | none => .error 400 "Failed to complete request: %v"
  | some ps =>
    match linkage.forks gw rng srt ps with
    | .error (.panic _) => .recovered
    | .error (.err _) => .error 500 "Failed to complete request: %v"
    | .ok forks => .list forks

def fork (rng : Go.MapRange BlockID (List Addr)) (views : Nat → Linkage) (address : Param Addr) : Response Fork :=
  match address.parsed with
  | none => .error 400 "Invalid peer address '%s'" address.text
  | some peer =>
    match (views 0).hasLeash peer with
    | .ok true => respond ((views 1).fork gw rng peer)
    | .ok false => .error 404 "Peer '%s' is unknown" address.text
    | .error f => respond (.error f)

/-- The last blocks of a fork, when the request asks for no number: for the longest fork only 1000 of them. -/
def countOf (fork : Fork) (c : Int) : Int :=
  if c = 0 then if fork.longest then 1000 else fork.length else c

/-- An unparsed number of blocks is answered with the text of the address. -/
def forkGenerators (pl : Platform) (rng : Go.MapRange BlockID (List Addr)) (grng : Go.MapRange WavesAddress Nat)
    (srt : Go.UnstableSort GeneratorStats Chains.byBlocksCountDesc) (views : Nat → Linkage) (address : Param Addr)
    (blocks : Param Int) : Response (List GeneratorStats) :=
  match address.parsed with
  | none => .error 400 "Invalid peer address '%s'" address.text
  | some peer =>
    match blocks.parsed with
    | none => .error 400 "Invalid number of blocks '%s'" address.text
    | some c =>
      match (views 0).hasLeash peer with
      | .ok true => respond do
        let fork ← (views 1).fork gw rng peer
        pl.forkGenerators gw grng srt (views 2) fork.headBlock (countOf fork c)
      | .ok false => .error 404 "Peer '%s' is unknown" address.text
      | .error f => respond (.error f)

end

/-! ## The forks of all peers -/

theorem foldlM_eq_none : ∀ {ss : List (Option Addr)} {m : LookupPeers},
    ss.foldlM (fun m s => s.map m.insert) m = none ↔ none ∈ ss
  | [], _ => by simp
  | none :: ss, _ => by simp
  | some a :: ss, m => by
    rw [List.foldlM_cons]
    exact foldlM_eq_none.trans (by simp)

/-- **What `forks` answers**: a refusal exactly when an address does not parse; nothing when no listed leash is one of
the peers asked for; and otherwise a list or nothing, the list well formed when all peers are asked for. -/
theorem forks_answers {gw : Gowaves} (hgw : gw.RoundTrips) {scheme : Proto.Scheme} {genesis : Proto.Block} {l : Linkage}
    {t : BlockTree BlockID} (h : Chains.Reachable gw scheme genesis l t) (rng : Go.MapRange BlockID (List Addr))
    (srt : Go.UnstableSort Fork Chains.byScoreAndPeersDesc) (ss : List (Option Addr)) :
    (none ∈ ss ∧ forks gw rng srt l ss = .error 400 "Failed to complete request: %v") ∨
    ∃ ps, getPeers ss = some ps ∧ ((forks gw rng srt l ss = .recovered ∧ ∀ fs, l.forks gw rng srt ps ≠ .ok fs) ∨
      ∃ fs, forks gw rng srt l ss = .list fs ∧ l.forks gw rng srt ps = .ok fs ∧ l.Keeps ps ∧
        (ps = ∅ → Chains.WellFormed gw l t fs)) := by
  unfold forks
  cases hps : getPeers ss with
  | none => exact .inl ⟨foldlM_eq_none.1 hps, rfl⟩
  | some ps =>
    refine .inr ⟨ps, rfl, ?_⟩
    cases hfs : l.forks gw rng srt ps with
    | error f =>
      cases f with
      | err e => exact absurd hfs (h.mirrors.forks_noError hgw rng srt ps e)
      | panic msg => exact .inl ⟨by simp only [hfs], fun _ hok => nomatch hok⟩
    | ok fs =>
      refine .inr ⟨fs, by simp only [hfs], rfl, ?_, fun hall => ?_⟩
      · by_contra hno
        rw [h.forks_panics rng srt hno] at hfs
        cases hfs
      · subst hall
        exact h.mirrors.wellFormed hfs

/-! ## All reads in one state -/

section
variable {gw : Gowaves} {scheme : Proto.Scheme} {genesis : Proto.Block} {views : Nat → Linkage}
  {t : BlockTree BlockID} (hv : Views gw views) (h : Chains.Reachable gw scheme genesis (views 0) t)
include hv h

/-- The loop over stored blocks reads them as it would read them with the first state. -/
theorem readEach_at_once {α β : Type} {f : Linkage → α → Res β} {x : α → BlockID} {xs : List α}
    (hf : ∀ {l l' : Linkage} (a : α), l.block gw (x a) = l'.block gw (x a) → f l a = f l' a)
    (hx : ∀ a ∈ xs, t.Stored (x a)) :
    Go.readEach f (fun i => views (i + 1)) xs = Go.readEach f (fun _ => views 0) xs := by
  rw [Go.readEach_eq_mapM fun i a ha => hf a (hv.block_eq h (hx a ha) (i + 1)),
    Go.readEach_eq_mapM fun _ _ _ => rfl]

theorem heads_at_once : heads gw views = heads gw fun _ => views 0 := by
  obtain ⟨hs, hhs, -, hmem, -⟩ := h.mirrors.activeHeads h.headsInv
  have hread : Go.readEach (headInfo gw) (fun i => views (i + 1)) hs =
      Go.readEach (headInfo gw) (fun _ => views 0) hs := by
    refine readEach_at_once hv h (x := Head.blockID) (fun a ha => ?_) fun hd hhd => ?_
    · unfold headInfo
      rw [ha]
    · exact ((hmem _).1 (List.mem_map_of_mem hhd)).1.1
  unfold heads
  rw [hhs]
  exact congrArg respond hread

theorem leashes_at_once (rng : Go.MapRange BlockID (List Addr))
    (srt : Go.UnstableSort LeashInfo byScoreAndPeersDesc) :
    leashes gw rng srt views = leashes gw rng srt fun _ => views 0 := by
  obtain ⟨ls, hls⟩ := h.mirrors.exists_leashes
  have hread : Go.readEach (leashInfo gw) (fun i => views (i + 1)) (rng.entries (Chains.groups ls)) =
      Go.readEach (leashInfo gw) (fun _ => views 0) (rng.entries (Chains.groups ls)) := by
    refine readEach_at_once hv h (x := Prod.fst) (fun a ha => ?_) fun e he => ?_
    · unfold leashInfo
      rw [ha]
    · obtain ⟨a, ha⟩ := Chains.exists_leash ((rng.perm _).mem_iff.1 he)
      exact (h.mirrors.listed hls ha).2
  unfold leashes Linkage.leashes
  rw [hls]
  exact congrArg (fun r => respond (r >>= fun r => .ok (srt.sort r))) hread

omit h in
/-- A leashed peer stays leashed, so that its fork is read as if both reads were the second one. -/
theorem fork_at_once (rng : Go.MapRange BlockID (List Addr)) (address : Param Addr) :
    ∃ i ≤ 1, fork gw rng views address = fork gw rng (fun _ => views i) address := by
  unfold fork
  cases address.parsed with
  | none => exact ⟨0, Nat.zero_le 1, rfl⟩
  | some peer =>
    cases ha : (views 0).hasLeash peer with
    | error f => exact ⟨0, Nat.zero_le 1, by simp only [ha]⟩
    | ok known =>
      cases known with
      | false => exact ⟨0, Nat.zero_le 1, by simp only [ha]⟩
      | true =>
        obtain ⟨calls, hcalls⟩ := hv 0
        exact ⟨1, Nat.le_refl 1, by simp only [ha, Chains.hasLeash_run hcalls ha]⟩

/-- The head of the fork is stored when the fork is read, and its path reads alike afterwards. -/
theorem forkGenerators_at_once (pl : Platform) (rng : Go.MapRange BlockID (List Addr))
    (grng : Go.MapRange WavesAddress Nat) (srt : Go.UnstableSort GeneratorStats Chains.byBlocksCountDesc)
    (address : Param Addr) (blocks : Param Int)
    (hlisted : ∀ p, address.parsed = some p → (views 0).hasLeash p = .ok true → Chains.Listed p) :
    ∃ i ≤ 1, forkGenerators gw pl rng grng srt views address blocks =
      forkGenerators gw pl rng grng srt (fun _ => views i) address blocks := by
  unfold forkGenerators
  cases hp : address.parsed with
  | none => exact ⟨0, Nat.zero_le 1, rfl⟩
  | some peer =>
    cases blocks.parsed with
    | none => exact ⟨0, Nat.zero_le 1, rfl⟩
    | some c =>
      cases ha : (views 0).hasLeash peer with
      | error f => exact ⟨0, Nat.zero_le 1, by simp only [ha]⟩
      | ok known =>
        cases known with
        | false => exact ⟨0, Nat.zero_le 1, by simp only [ha]⟩
        | true =>
          obtain ⟨calls, hcalls⟩ := hv 0
          have ha1 := Chains.hasLeash_run hcalls ha
          obtain ⟨t1, ht1, -⟩ := hv.later h 1
          refine ⟨1, Nat.le_refl 1, ?_⟩
          simp only [ha, ha1]
          cases hf : (views 1).fork gw rng peer with
          | error f => rfl
          | ok f =>
            obtain ⟨k, hk⟩ := Linkage.hasLeash_iff.1 ha1
            have hstored : t1.Stored f.headBlock := by
              rw [ht1.mirrors.fork_head (hlisted peer hp ha) hk hf]
              exact ht1.mirrors.stored_of_leash hk
            obtain ⟨t2, ht2, K⟩ := hv.tail.later ht1 1
            exact congrArg respond (K.forkGenerators ht1.mirrors.refines ht2.mirrors.refines pl grng srt hstored _)

end

/-- **The answer of a handler is one that it gives with all its reads in one state**, the first or the second of
them, whatever is called in between. -/
theorem answers_at_once {gw : Gowaves} {scheme : Proto.Scheme} {genesis : Proto.Block} {views : Nat → Linkage}
    {t : BlockTree BlockID} (hv : Views gw views) (h : Chains.Reachable gw scheme genesis (views 0) t) (pl : Platform)
    (rng : Go.MapRange BlockID (List Addr)) (grng : Go.MapRange WavesAddress Nat)
    (srt : Go.UnstableSort LeashInfo byScoreAndPeersDesc)
    (gsrt : Go.UnstableSort GeneratorStats Chains.byBlocksCountDesc) :
    (heads gw views = heads gw fun _ => views 0) ∧
    (leashes gw rng srt views = leashes gw rng srt fun _ => views 0) ∧
    (∀ address, ∃ i ≤ 1, fork gw rng views address = fork gw rng (fun _ => views i) address) ∧
    ∀ address blocks, (∀ p, address.parsed = some p → (views 0).hasLeash p = .ok true → Listed p) →
      ∃ i ≤ 1, forkGenerators gw pl rng grng gsrt views address blocks =
        forkGenerators gw pl rng grng gsrt (fun _ => views i) address blocks :=
  ⟨heads_at_once hv h, leashes_at_once hv h rng srt, fork_at_once hv rng,
    fun address blocks hlisted => forkGenerators_at_once hv h pl rng grng gsrt address blocks hlisted⟩

namespace Sample

/-- A sort of the leashes that leaves equal ones as they are. -/
def byScoreAndPeers : Go.UnstableSort LeashInfo byScoreAndPeersDesc :=
  Select.favour descending_byScoreAndPeersDesc fun _ => false

/-- A peer moves on to a new block between the first read and the second. -/
def movesOn (l l' : Linkage) (i : Nat) : Linkage := if i = 0 then l else l'

theorem views_movesOn {l l' : Linkage} {c : Chains.Call} (h : l.call Chains.Sample.gowaves c = .ok l') :
    Views Chains.Sample.gowaves (movesOn l l')
  | 0 => ⟨[c], by rw [List.foldlM_cons]; exact Go.bind_eq_ok.2 ⟨l', h, rfl⟩⟩
  | _ + 1 => ⟨[], rfl⟩

end Sample

/-- The generators of the fork of a peer, which has put one more block when its fork is read. -/
theorem answers_at_once_sample : ∃ l l' : Linkage, Chains.Sample.after [Chains.Sample.key 2 1] = .ok l ∧
    l.call Chains.Sample.gowaves (.putBlock (Chains.Sample.block 3 2) (Chains.Sample.peer 2)) = .ok l' ∧
    ∃ i ≤ 1, forkGenerators Chains.Sample.gowaves Chains.Sample.platform (.listed _ _) (.listed _ _)
        Chains.Sample.byBlocks (Sample.movesOn l l') ⟨"10.0.0.2", some (Chains.Sample.peer 2)⟩ ⟨"0", some 0⟩ =
      forkGenerators Chains.Sample.gowaves Chains.Sample.platform (.listed _ _) (.listed _ _)
        Chains.Sample.byBlocks (fun _ => Sample.movesOn l l' i) ⟨"10.0.0.2", some (Chains.Sample.peer 2)⟩
        ⟨"0", some 0⟩ := by
  obtain ⟨l, h⟩ := Go.exists_of_isOk (x := Chains.Sample.after [Chains.Sample.key 2 1]) (by decide +kernel)
  obtain ⟨l', h'⟩ := Go.exists_of_isOk (x := Chains.Sample.after [Chains.Sample.key 2 1] >>= fun l =>
    l.call Chains.Sample.gowaves (.putBlock (Chains.Sample.block 3 2) (Chains.Sample.peer 2))) (by decide +kernel)
  obtain ⟨l1, h1, hput⟩ := Go.bind_eq_ok.1 h'
  obtain rfl : l1 = l := Except.ok.inj (h1.symm.trans h)
  refine ⟨l1, l', h, hput, (answers_at_once (Sample.views_movesOn hput) (Chains.Sample.reachable h)
    Chains.Sample.platform (.listed _ _) (.listed _ _) Sample.byScoreAndPeers Chains.Sample.byBlocks).2.2.2 _ _
    fun p hp _ => ?_⟩
  cases hp
  exact ⟨rfl, Chains.inLeashRange_of_is4 (by decide)⟩

/-! ## What the lists have -/

/-- A timestamp that the reads of a block panic on. -/
def TooLarge (l : Linkage) (x : BlockID) : Prop := 9223372036854775807 ≤ l.timestampOf x

/-- **A list, or nothing at all** when one of its blocks has too large a timestamp. -/
structure Lists {α : Type} (l : Linkage) (r : Response α) (blocks : BlockID → Prop) (listed : α → Prop) : Prop where
  recovered : (∃ x, blocks x ∧ TooLarge l x) → r = .recovered
  json : (∀ x, blocks x → ¬ TooLarge l x) → ∃ body, r = .json body ∧ listed body

section
variable {gw : Gowaves} (hgw : gw.RoundTrips) {l : Linkage} {t : BlockTree BlockID} (M : Mirrors gw l t)
include hgw M

end

end Api
end ForkDetector
