import ForkDetector.Lib.Tally
import ForkDetector.Chains.Paths
/-!
# Generators — who generated the last blocks of a fork

`ForkGenerators` counts the generators of the blocks down from a block.  For a count in range it returns each of them
once with the number of its blocks, the largest first; the count comes from the address of a request, and one below
zero makes the slice of blocks panic (`generators_counted_iff`).
-/
namespace ForkDetector
namespace Chains

open Ancestry
open Proto (BlockID WavesAddress Gowaves)

structure GeneratorStats where
  generator : WavesAddress
  blocks : Nat
deriving DecidableEq

/-- `byBlocksCountDesc.Less`. -/
def byBlocksCountDesc (a b : GeneratorStats) : Bool := decide (a.blocks > b.blocks)

/-- `Linkage.ForkGenerators`.  The slice of statistics is never longer than the slice of blocks, which was made. -/
def Platform.forkGenerators (pl : Platform) (gw : Gowaves) (rng : Go.MapRange WavesAddress Nat)
    (srt : Go.UnstableSort GeneratorStats byBlocksCountDesc) (l : Linkage) (blockID : BlockID) (count : Int) :
    Res (List GeneratorStats) := do
  let bs ← Go.wrap "failed to get generators" (pl.getBlocks gw l.st blockID count)
  let m := bs.foldl (fun m b => Tally.bump m b.generator) ∅
  .ok (srt.sort ((rng.entries m.toList).map fun e => ⟨e.1, e.2⟩))

/-- Who generated a block, as it is read. -/
def Linkage.generatorOf (gw : Gowaves) (l : Linkage) (x : BlockID) : Option WavesAddress :=
  match l.block gw x with
  | .ok b => some b.generator
  | .error _ => none

/-- **The generators of the last blocks**: each once, with the number of blocks it generated among the first `count` of
the path from `x` on, the largest number first. -/
structure Counted (gw : Gowaves) (l : Linkage) (t : BlockTree BlockID) (x : BlockID) (count : Int)
    (stats : List GeneratorStats) : Prop where
  nodup : (stats.map GeneratorStats.generator).Nodup
  blocks : ∀ g ∈ stats, g.blocks = ((path t.parent count.toNat x).map (l.generatorOf gw)).count (some g.generator)
  sum : ((stats.map GeneratorStats.blocks).sum : Int) = min (max count 0) (t.height x)
  sorted : stats.Pairwise fun a b => b.blocks ≤ a.blocks

/-- The counts of the generators of some blocks, in any order of the map and of the sort. -/
theorem sort_tally_spec (rng : Go.MapRange WavesAddress Nat) (srt : Go.UnstableSort GeneratorStats byBlocksCountDesc)
    (gs : List WavesAddress) {stats : List GeneratorStats}
    (h : stats = srt.sort ((rng.entries (Tally.tally gs).toList).map fun e => ⟨e.1, e.2⟩)) :
    (stats.map GeneratorStats.generator).Nodup ∧ (∀ g ∈ stats, g.blocks = gs.count g.generator) ∧
      (stats.map GeneratorStats.blocks).sum = gs.length ∧ stats.Pairwise fun a b => b.blocks ≤ a.blocks := by
  have hperm : stats.Perm ((Tally.tally gs).toList.map fun e => (⟨e.1, e.2⟩ : GeneratorStats)) := by
    rw [h]
    exact (srt.perm _).trans ((rng.perm _).map _)
  refine ⟨?_, fun g hg => ?_, ?_, ?_⟩
  · rw [(hperm.map GeneratorStats.generator).nodup_iff, List.map_map]
    exact Tally.nodup_tally gs
  · obtain ⟨e, he, rfl⟩ := List.mem_map.1 (hperm.mem_iff.1 hg)
    exact (Tally.mem_toList_tally.1 (show (e.1, e.2) ∈ _ from he)).1
  · rw [(hperm.map GeneratorStats.blocks).sum_eq, List.map_map]
    exact Tally.sum_tally gs
  · rw [h]
    refine (srt.sorted _).imp fun hless => ?_
    have hlt := of_decide_eq_false hless
    omega

theorem forkGenerators_eq_ok {pl : Platform} {gw : Gowaves} {rng : Go.MapRange WavesAddress Nat}
    {srt : Go.UnstableSort GeneratorStats byBlocksCountDesc} {l : Linkage} {x : BlockID} {count : Int}
    {stats : List GeneratorStats} : pl.forkGenerators gw rng srt l x count = .ok stats ↔
      ∃ bs, pl.getBlocks gw l.st x count = .ok bs ∧
        stats = srt.sort ((rng.entries (Tally.tally (bs.map Block.generator)).toList).map fun e => ⟨e.1, e.2⟩) := by
  unfold Platform.forkGenerators Tally.tally
  rw [Go.bind_eq_ok]
  refine exists_congr fun bs => ?_
  rw [Go.wrap_eq_ok, List.foldl_map, Except.ok.injEq, eq_comm (a := stats)]

/-- **When `ForkGenerators` counts the generators** of a stored block whose path is in time, for any `int`. -/
theorem generators_counted_iff {gw : Gowaves} (hgw : gw.RoundTrips) {scheme : Proto.Scheme} {genesis : Proto.Block}
    {l : Linkage} {t : BlockTree BlockID} (h : Reachable gw scheme genesis l t) (pl : Platform)
    (rng : Go.MapRange WavesAddress Nat) (srt : Go.UnstableSort GeneratorStats byBlocksCountDesc) {x : BlockID}
    (hx : l.hasBlock x = .ok true) (hin : InTime l t x) (count : Int) :
    (∃ stats, pl.forkGenerators gw rng srt l x count = .ok stats ∧ Counted gw l t x count stats) ↔
      0 ≤ count ∧ count ≤ pl.maxBlocks := by
  have S := h.stands
  have hx := S.refines.hasBlock_iff.1 hx
  constructor
  · rintro ⟨stats, hstats, -⟩
    obtain ⟨bs, hbs, -⟩ := forkGenerators_eq_ok.1 hstats
    exact Platform.le_of_getBlocks hbs
  · rintro ⟨h0, hle⟩
    obtain ⟨bs, hbs, hmap⟩ := S.refines.exists_getBlocks hgw hx hin count.toNat
    rw [← Platform.getBlocks_of_le h0 hle] at hbs
    obtain ⟨hnodup, hblocks, hsum, hsorted⟩ := sort_tally_spec rng srt (bs.map Block.generator) rfl
    refine ⟨_, forkGenerators_eq_ok.2 ⟨bs, hbs, rfl⟩, hnodup, fun g hg => ?_, ?_, hsorted⟩
    · have hgen : (path t.parent count.toNat x).map (l.generatorOf gw) = (bs.map Block.generator).map some := by
        have hread : ∀ a b, l.block gw a = .ok b → (some ∘ Block.generator) b = l.generatorOf gw a := fun a b hb => by
          unfold Linkage.generatorOf
          rw [hb]
          rfl
        rw [List.map_map, Go.map_of_mapM hmap hread]
      rw [hblocks g hg, hgen, List.count_map_of_injective _ _ (Option.some_injective _)]
    · have hlen := (S.samePath hx h0 hmap).length
      rw [hsum, List.length_map, (Go.mapM_eq_ok.1 hmap).length_eq.symm, hlen, max_eq_left h0]

theorem descending_byBlocksCountDesc : Select.Descending GeneratorStats.blocks byBlocksCountDesc := fun a b => by
  unfold byBlocksCountDesc
  rw [decide_eq_true_eq]

namespace Sample

def byBlocks : Go.UnstableSort GeneratorStats byBlocksCountDesc :=
  Select.favour descending_byBlocksCountDesc fun _ => false

end Sample

/-- Five blocks asked for, of two. -/
theorem generators_counted_iff_sample : ∃ l, Sample.after [Sample.key 2 1] = .ok l ∧
    l.hasBlock (Sample.id 2) = .ok true ∧ InTime l (Sample.tree [Sample.key 2 1]) (Sample.id 2) ∧
    ∃ stats, Sample.platform.forkGenerators Sample.gowaves (.listed _ _) Sample.byBlocks l (Sample.id 2) 5 = .ok stats ∧
      Counted Sample.gowaves l (Sample.tree [Sample.key 2 1]) (Sample.id 2) 5 stats := by
  obtain ⟨l, h⟩ := Go.exists_of_isOk (x := Sample.after [Sample.key 2 1]) (by decide +kernel)
  have hhas : (Sample.after [Sample.key 2 1] >>= fun l => l.hasBlock (Sample.id 2)) = .ok true := by decide +kernel
  rw [h] at hhas
  have hin := Sample.inTime (Sample.id 2) [Sample.id 1] h (by decide +kernel) (by decide +kernel)
  exact ⟨l, h, hhas, hin, (generators_counted_iff Sample.gowaves_roundTrips (Sample.reachable h) Sample.platform
    (.listed _ _) Sample.byBlocks hhas hin 5).2 (by decide)⟩

/-- **A count below zero panics** on any stored block, as on the genesis block here. -/
theorem generators_negative : ∃ l, Reachable Sample.gowaves 87 (Sample.block 1 0) l (Sample.tree []) ∧
    l.hasBlock (Sample.id 1) = .ok true ∧ InTime l (Sample.tree []) (Sample.id 1) ∧
    Sample.platform.forkGenerators Sample.gowaves (.listed _ _) Sample.byBlocks l (Sample.id 1) (-1) =
      Go.panic "makeslice: cap out of range" ∧
    ¬ ∃ stats, Sample.platform.forkGenerators Sample.gowaves (.listed _ _) Sample.byBlocks l (Sample.id 1) (-1) =
      .ok stats ∧ Counted Sample.gowaves l (Sample.tree []) (Sample.id 1) (-1) stats := by
  obtain ⟨l, h⟩ := Go.exists_of_isOk (x := Sample.after []) (by decide +kernel)
  have hreads : (Sample.after []).map (fun l => (l.hasBlock (Sample.id 1),
      Sample.platform.forkGenerators Sample.gowaves (.listed _ _) Sample.byBlocks l (Sample.id 1) (-1))) =
      .ok (.ok true, Go.panic "makeslice: cap out of range") := by decide +kernel
  rw [h] at hreads
  obtain ⟨hhas, hpanic⟩ := Prod.mk.inj (Except.ok.inj hreads)
  refine ⟨l, Sample.reachable h, hhas, Sample.inTime _ [] h (by decide +kernel) (by decide +kernel), hpanic, ?_⟩
  rintro ⟨stats, hok, -⟩
  rw [hpanic] at hok
  cases hok

end Chains
end ForkDetector
