import ForkDetector.Chains.Ranges
/-!
# Paths — the two walks down the parent path

`getAncestors` walks over the links and stops at an empty list of parents, `getBlocks` walks over the blocks and stops
at an empty parent.  Both first make a slice of the capacity asked for.  On a stored block they describe the same path
exactly when the runtime can make both slices (`same_path_iff`).
-/
namespace ForkDetector
namespace Chains

open Ancestry
open Proto (BlockID WavesAddress Gowaves)

/-- The platform that the code runs on: the largest capacities of a slice of IDs and of a slice of blocks. -/
structure Platform where
  maxIDs : Nat
  maxBlocks : Nat

namespace Platform

/-- `storage.getAncestors`, for any `int`. -/
def getAncestors (pl : Platform) (s : Storage) (id : BlockID) (count : Int) : Res (List BlockID) := do
  let n ← Go.wrap "failed to get ancestors" (s.getNumOfBlockID id)
  Go.makeslice pl.maxIDs count
  s.ancestorsFrom count.toNat n

/-- `storage.getBlocks`, for any `int`. -/
def getBlocks (pl : Platform) (gw : Gowaves) (s : Storage) (id : BlockID) (count : Int) : Res (List Block) := do
  let n ← Go.wrap "failed to get blocks" (s.getNumOfBlockID id)
  Go.makeslice pl.maxBlocks count
  s.blocksFrom gw count.toNat n

variable {pl : Platform} {gw : Gowaves} {s : Storage} {id : BlockID} {n : Nat} {count : Int}

theorem getAncestors_of_le (h0 : 0 ≤ count) (hle : count ≤ pl.maxIDs) :
    pl.getAncestors s id count = s.getAncestors id count.toNat := by
  unfold getAncestors Storage.getAncestors
  rw [(Go.makeslice_eq_ok (u := ())).2 ⟨h0, hle⟩]
  rfl

theorem getBlocks_of_le (h0 : 0 ≤ count) (hle : count ≤ pl.maxBlocks) :
    pl.getBlocks gw s id count = s.getBlocks gw id count.toNat := by
  unfold getBlocks Storage.getBlocks
  rw [(Go.makeslice_eq_ok (u := ())).2 ⟨h0, hle⟩]
  rfl

theorem le_of_getAncestors {ids : List BlockID} (h : pl.getAncestors s id count = .ok ids) :
    0 ≤ count ∧ count ≤ pl.maxIDs := by
  obtain ⟨n, -, h⟩ := Go.bind_eq_ok.1 h
  obtain ⟨u, hu, -⟩ := Go.bind_eq_ok.1 h
  exact Go.makeslice_eq_ok.1 hu

theorem le_of_getBlocks {bs : List Block} (h : pl.getBlocks gw s id count = .ok bs) :
    0 ≤ count ∧ count ≤ pl.maxBlocks := by
  obtain ⟨n, -, h⟩ := Go.bind_eq_ok.1 h
  obtain ⟨u, hu, -⟩ := Go.bind_eq_ok.1 h
  exact Go.makeslice_eq_ok.1 hu

end Platform

/-! ## The blocks of a path -/

/-- The text around an error makes no difference to what is handed out. -/
theorem StoredBlock.toBlock_text {gw : Gowaves} {b : StoredBlock} {msg : String} {bb : Block}
    (h : b.toBlock gw msg = .ok bb) (msg' : String) : b.toBlock gw msg' = .ok bb := by
  unfold toBlock at *
  obtain ⟨bID, hID, h⟩ := Go.bind_eq_ok.1 h
  obtain ⟨pID, hpID, h⟩ := Go.bind_eq_ok.1 h
  obtain ⟨ga, hga, h⟩ := Go.bind_eq_ok.1 h
  rw [Go.wrap_eq_ok] at hID hga
  refine Go.bind_eq_ok.2 ⟨bID, Go.wrap_eq_ok.2 hID, Go.bind_eq_ok.2 ⟨pID, ?_, Go.bind_eq_ok.2
    ⟨ga, Go.wrap_eq_ok.2 hga, h⟩⟩⟩
  split at hpID
  · rw [if_pos ‹_›]
    rw [Go.wrap_eq_ok] at hpID ⊢
    exact hpID
  · rw [if_neg ‹_›]
    exact hpID

/-- What is handed out of a record, against the tree. -/
theorem Recorded.toBlock_eq_ok {gw : Gowaves} {s : Storage} {x : BlockID} {nd : Node BlockID} {n : Nat}
    {b : StoredBlock} {k : Link} (r : Recorded gw s x nd n b k) {msg : String} {bb : Block}
    (h : b.toBlock gw msg = .ok bb) : bb.id = x ∧ bb.parent = nd.parent.getD .zero ∧ bb.height = nd.height := by
  unfold StoredBlock.toBlock at h
  obtain ⟨bID, hID, h⟩ := Go.bind_eq_ok.1 h
  obtain ⟨pID, hpID, h⟩ := Go.bind_eq_ok.1 h
  obtain ⟨ga, -, h⟩ := Go.bind_eq_ok.1 h
  obtain ⟨ts, -, h⟩ := Go.bind_eq_ok.1 h
  cases h
  rw [Go.wrap_eq_ok, r.block_id, Proto.newBlockIDFromBytes_bytes] at hID
  cases hID
  refine ⟨rfl, ?_, r.block_height⟩
  rw [r.block_parent] at hpID
  cases hp : nd.parent with
  | none =>
    rw [hp] at hpID
    exact (Except.ok.inj hpID).symm
  | some p =>
    rw [hp, Option.elim_some, if_pos (List.length_pos_of_ne_nil p.bytes_ne_nil), Go.wrap_eq_ok,
      Proto.newBlockIDFromBytes_bytes] at hpID
    exact (Except.ok.inj hpID).symm

namespace Refines
variable {gw : Gowaves} {l : Linkage} {t : BlockTree BlockID} (R : Refines gw l.st t)
include R

theorem block_eq_ok {x : BlockID} {bb : Block} (h : l.block gw x = .ok bb) :
    bb.id = x ∧ bb.parent = (t.parent x).getD .zero ∧ bb.height = t.height x := by
  have hread := h
  unfold Linkage.block at h
  obtain ⟨b, hb, -⟩ := Go.bind_eq_ok.1 h
  obtain ⟨n, hn, hbn⟩ := Storage.getBlockByID_eq_ok.1 hb
  obtain ⟨nd, b', k, hnd, r⟩ := R.of_num hn
  obtain rfl : b' = b := Option.some.inj (r.block.symm.trans hbn)
  rw [Linkage.block_eq hb] at hread
  rw [BlockTree.parent_eq hnd, BlockTree.height_eq hnd]
  exact r.toBlock_eq_ok hread

/-- **The loop of `getBlocks` reads the blocks of the path**, one after the other. -/
theorem exists_blocksFrom (hgw : gw.RoundTrips) : ∀ (k : Nat) {x : BlockID} {n : Nat}, l.st.nums[x]? = some n →
    InTime l t x → ∃ bs, l.st.blocksFrom gw k n = .ok bs ∧ (path t.parent k x).mapM (l.block gw) = .ok bs
  | 0, _, _, _, _ => ⟨[], rfl, rfl⟩
  | k + 1, x, n, hx, hin => by
    obtain ⟨htime, hparent⟩ := inTime_iff.1 hin
    obtain ⟨nd, b, lk, hnd, r⟩ := R.of_num hx
    rw [r.timestampOf_eq] at htime
    obtain ⟨-, bb, hbb⟩ := (r.toBlock_cases hgw "failed to get blocks").resolve_right fun h => h.1 htime
    have hread : l.block gw x = .ok bb := by
      rw [Linkage.block_eq (Storage.getBlockByID_eq_ok.2 ⟨n, hx, r.block⟩)]
      exact StoredBlock.toBlock_text hbb _
    rw [Storage.blocksFrom, Storage.getBlock_eq_ok.2 r.block, path]
    simp only [Go.wrap_ok, bind, Except.bind, hbb]
    cases hp : t.parent x with
    | none =>
      have hlen : b.parent.length = 0 := by
        rw [r.block_parent, ← BlockTree.parent_eq hnd, hp]
        rfl
      rw [if_pos hlen]
      exact ⟨[bb], rfl, Go.mapM_eq_ok.2 (.cons hread .nil)⟩
    | some p =>
      have hlen : ¬ b.parent.length = 0 := by
        rw [r.block_parent, ← BlockTree.parent_eq hnd, hp]
        simp [p.bytes_ne_nil]
      obtain ⟨hps, -⟩ := t.isRooted.step x p (BlockTree.stored_of_node hnd) hp
      obtain ⟨m, hm⟩ := Option.isSome_iff_exists.1 (R.stored_iff.1 hps)
      have hidx : Go.index lk.parents 0 = (.ok m : Res Nat) := by
        rw [Go.index_eq_ok, r.link_parent, ← BlockTree.parent_eq hnd, hp]
        exact hm
      obtain ⟨bs, hbs, hmap⟩ := exists_blocksFrom hgw k hm (hparent p hp)
      rw [if_neg hlen, Storage.getLink_eq_ok.2 r.link]
      simp only [Go.wrap_ok, hidx, hbs]
      exact ⟨bb :: bs, rfl, Go.mapM_eq_ok.2 (.cons hread (Go.mapM_eq_ok.1 hmap))⟩

theorem exists_getBlocks (hgw : gw.RoundTrips) {x : BlockID} (hx : t.Stored x) (hin : InTime l t x) (k : Nat) :
    ∃ bs, l.st.getBlocks gw x k = .ok bs ∧ (path t.parent k x).mapM (l.block gw) = .ok bs := by
  obtain ⟨n, hn⟩ := Option.isSome_iff_exists.1 (R.stored_iff.1 hx)
  obtain ⟨bs, hbs, hmap⟩ := R.exists_blocksFrom hgw k hn hin
  refine ⟨bs, ?_, hmap⟩
  unfold Storage.getBlocks
  rw [Storage.getNumOfBlockID_eq_ok.2 hn]
  exact hbs

end Refines

/-! ## One path -/

/-- **The same path, by IDs and by blocks**: from `x` on, each block on its parent and one lower, for `count` blocks or
down to the genesis block. -/
structure SamePath (l : Linkage) (t : BlockTree BlockID) (x : BlockID) (count : Int) (ids : List BlockID)
    (bs : List Block) : Prop where
  ids_eq : bs.map Block.id = ids
  starts : 0 < count → ids.head? = some x
  steps : bs.IsChain fun a b => a.parent = b.id ∧ a.height = b.height + 1
  length : (ids.length : Int) = min count (t.height x)
  ends : (t.height x : Int) ≤ count → ids.getLast? = some l.genesis

/-- The blocks read along a path describe it. -/
theorem Stands.samePath {gw : Gowaves} {l : Linkage} {t : BlockTree BlockID} (S : Stands gw l t) {x : BlockID}
    (hx : t.Stored x) {count : Int} (h0 : 0 ≤ count) {bs : List Block}
    (hbs : (path t.parent count.toNat x).mapM (l.block gw) = .ok bs) :
    SamePath l t x count (path t.parent count.toNat x) bs := by
  have T := t.isRooted
  have hids : bs.map Block.id = path t.parent count.toNat x := by
    have hread : ∀ a bb, l.block gw a = .ok bb → bb.id = id a := fun a bb h => (S.refines.block_eq_ok h).1
    rw [Go.map_of_mapM hbs hread, List.map_id]
  refine ⟨hids, fun hpos => ?_, ?_, ?_, fun hle => ?_⟩
  · obtain ⟨k, hk⟩ : ∃ k, count.toNat = k + 1 := ⟨count.toNat - 1, by omega⟩
    rw [hk, path, List.head?_cons]
  · have hchain : (path t.parent count.toNat x).IsChain fun u v => t.parent u = some v :=
      path_isChain count.toNat x
    rw [← hids, List.isChain_map] at hchain
    refine hchain.imp_of_mem_imp fun a b ha hb hab => ?_
    obtain ⟨y, -, hy⟩ := (Go.mem_of_mapM hbs a).1 ha
    obtain ⟨z, -, hz⟩ := (Go.mem_of_mapM hbs b).1 hb
    obtain ⟨rfl, hap, hah⟩ := S.refines.block_eq_ok hy
    obtain ⟨rfl, -, hbh⟩ := S.refines.block_eq_ok hz
    rw [hab] at hap
    refine ⟨hap, ?_⟩
    rw [hah, hbh]
    exact (T.step a.id b.id (BlockTree.stored_of_parent hab) hab).2
  · rw [T.path_length hx]
    omega
  · rw [S.genesis_eq]
    exact T.path_getLast? hx (by omega)

/-- **When the two walks describe the same path** of a stored block whose path is in time. -/
theorem same_path_iff {gw : Gowaves} (hgw : gw.RoundTrips) {scheme : Proto.Scheme} {genesis : Proto.Block}
    {l : Linkage} {t : BlockTree BlockID} (h : Reachable gw scheme genesis l t) (pl : Platform) {x : BlockID}
    (hx : l.hasBlock x = .ok true) (hin : InTime l t x) {count : Int} (h0 : 0 ≤ count) :
    (∃ ids bs, pl.getAncestors l.st x count = .ok ids ∧ pl.getBlocks gw l.st x count = .ok bs ∧
      SamePath l t x count ids bs) ↔ count ≤ pl.maxIDs ∧ count ≤ pl.maxBlocks := by
  have S := h.stands
  have hx := S.refines.hasBlock_iff.1 hx
  constructor
  · rintro ⟨ids, bs, hids, hbs, -⟩
    exact ⟨(Platform.le_of_getAncestors hids).2, (Platform.le_of_getBlocks hbs).2⟩
  · rintro ⟨hle1, hle2⟩
    obtain ⟨bs, hbs, hmap⟩ := S.refines.exists_getBlocks hgw hx hin count.toNat
    refine ⟨_, bs, ?_, ?_, S.samePath hx h0 hmap⟩
    · rw [Platform.getAncestors_of_le h0 hle1]
      exact S.refines.getAncestors_eq hx count.toNat
    · rw [Platform.getBlocks_of_le h0 hle2]
      exact hbs

namespace Sample

/-- A platform that makes slices of at most `2^20` elements.  The memory they take is left out. -/
def platform : Platform := ⟨2 ^ 20, 2 ^ 20⟩

/-- The blocks `ps` lead from `x` to the root. -/
def Leads (t : BlockTree BlockID) : BlockID → List BlockID → Prop
  | x, [] => t.parent x = none
  | x, p :: ps => t.parent x = some p ∧ Leads t p ps

instance (t : BlockTree BlockID) : ∀ (x : BlockID) (ps : List BlockID), Decidable (Leads t x ps)
  | x, [] => inferInstanceAs (Decidable (t.parent x = none))
  | x, p :: ps =>
    have := instDecidableLeads t p ps
    inferInstanceAs (Decidable (t.parent x = some p ∧ Leads t p ps))

theorem inTime_of_leads {l : Linkage} {t : BlockTree BlockID} : ∀ {ps : List BlockID} {x : BlockID}, Leads t x ps →
    (∀ y ∈ x :: ps, l.timestampOf y < 9223372036854775807) → InTime l t x
  | [], x, hroot, hts => inTime_iff.2 ⟨hts x List.mem_cons_self, fun p hp => by rw [hroot] at hp; cases hp⟩
  | q :: ps, x, ⟨hq, hps⟩, hts => by
    refine inTime_iff.2 ⟨hts x List.mem_cons_self, fun p hp => ?_⟩
    obtain rfl := Option.some.inj (hq.symm.trans hp)
    exact inTime_of_leads hps fun y hy => hts y (List.mem_cons_of_mem _ hy)

/-- The sample blocks all have one timestamp. -/
theorem inTime {calls : List Call} {l : Linkage} (x : BlockID) (ps : List BlockID) (h : after calls = .ok l)
    (hp : Leads (tree calls) x ps)
    (hts : (after calls).map (fun l => (x :: ps).map l.timestampOf) =
      .ok ((x :: ps).map fun _ => 1700000000000)) : InTime l (tree calls) x := by
  rw [h] at hts
  refine inTime_of_leads hp fun y hy => ?_
  rw [List.map_inj_left.1 (Except.ok.inj hts) y hy]
  decide

end Sample

/-- Seven blocks asked for, of the path of a micro-block: the micro-block, the second block and the genesis block. -/
theorem same_path_iff_sample : ∃ l, Sample.after [Sample.key 2 1, Sample.key 3 2, Sample.micro 4 3] = .ok l ∧
    l.hasBlock (Sample.id 4) = .ok true ∧
    InTime l (Sample.tree [Sample.key 2 1, Sample.key 3 2, Sample.micro 4 3]) (Sample.id 4) ∧ (0 : Int) ≤ 7 ∧
    ∃ ids bs, Sample.platform.getAncestors l.st (Sample.id 4) 7 = .ok ids ∧
      Sample.platform.getBlocks Sample.gowaves l.st (Sample.id 4) 7 = .ok bs ∧
      SamePath l (Sample.tree [Sample.key 2 1, Sample.key 3 2, Sample.micro 4 3]) (Sample.id 4) 7 ids bs := by
  obtain ⟨l, h⟩ := Go.exists_of_isOk (x := Sample.after [Sample.key 2 1, Sample.key 3 2, Sample.micro 4 3])
    (by decide +kernel)
  have hhas : (Sample.after [Sample.key 2 1, Sample.key 3 2, Sample.micro 4 3] >>= fun l =>
      l.hasBlock (Sample.id 4)) = .ok true := by decide +kernel
  rw [h] at hhas
  have hin := Sample.inTime (Sample.id 4) [Sample.id 2, Sample.id 1] h (by decide +kernel)
    (by decide +kernel)
  exact ⟨l, h, hhas, hin, by decide, (same_path_iff Sample.gowaves_roundTrips (Sample.reachable h) Sample.platform hhas
    hin (by decide)).2 (by decide)⟩

/-- **A count that neither slice can be made for**: both calls panic before they read the path. -/
theorem same_path_too_many : ∃ l, Reachable Sample.gowaves 87 (Sample.block 1 0) l (Sample.tree []) ∧
    l.hasBlock (Sample.id 1) = .ok true ∧ InTime l (Sample.tree []) (Sample.id 1) ∧ (0 : Int) ≤ 2 ^ 63 - 1 ∧
    Sample.platform.getAncestors l.st (Sample.id 1) (2 ^ 63 - 1) = Go.panic "makeslice: cap out of range" ∧
    Sample.platform.getBlocks Sample.gowaves l.st (Sample.id 1) (2 ^ 63 - 1) = Go.panic "makeslice: cap out of range" ∧
    ¬ ∃ ids bs, Sample.platform.getAncestors l.st (Sample.id 1) (2 ^ 63 - 1) = .ok ids ∧
      Sample.platform.getBlocks Sample.gowaves l.st (Sample.id 1) (2 ^ 63 - 1) = .ok bs ∧
      SamePath l (Sample.tree []) (Sample.id 1) (2 ^ 63 - 1) ids bs := by
  obtain ⟨l, h⟩ := Go.exists_of_isOk (x := Sample.after []) (by decide +kernel)
  have hreads : (Sample.after []).map (fun l => (l.hasBlock (Sample.id 1),
      Sample.platform.getAncestors l.st (Sample.id 1) (2 ^ 63 - 1),
      Sample.platform.getBlocks Sample.gowaves l.st (Sample.id 1) (2 ^ 63 - 1))) =
      .ok (.ok true, Go.panic "makeslice: cap out of range", Go.panic "makeslice: cap out of range") := by
    decide +kernel
  rw [h] at hreads
  obtain ⟨hhas, hrest⟩ := Prod.mk.inj (Except.ok.inj hreads)
  obtain ⟨hids, hbs⟩ := Prod.mk.inj hrest
  refine ⟨l, Sample.reachable h, hhas, Sample.inTime _ [] h (by decide +kernel) (by decide +kernel), by decide, hids,
    hbs, ?_⟩
  rintro ⟨ids, bs, hok, -, -⟩
  exact absurd (Platform.le_of_getAncestors hok).2 (by decide)

end Chains
end ForkDetector
