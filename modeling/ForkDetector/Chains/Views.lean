import ForkDetector.Chains.Generators
import ForkDetector.Chains.Heads
import ForkDetector.Chains.Reads
/-!
# Views — a caller that reads the linkage several times

Every read takes the lock of the linkage by itself, so that other components may call it between two reads of one
caller.  What a read has found in one state all later states still have: the block, its path, and that the peer is
leashed.
-/
namespace ForkDetector
namespace Chains

open Ancestry
open Proto (BlockID Gowaves)

/-! ## More reads -/

namespace Linkage

def hasLeash (l : Linkage) (addr : Addr) : Res Bool :=
  match l.st.leash addr with
  | .error (.panic msg) => Go.panic msg
  | .error (.err e) => if e.is .notFound then .ok false else Go.fail e
  | .ok _ => .ok true

/-- The heads that a leash points to. -/
def activeHeads (l : Linkage) : Res (List Head) := do
  let heads ← Go.wrap "failed to get active leashes" l.st.heads
  let leashes ← Go.wrap "failed to get active leashes" l.st.leashes
  let leashed := Std.ExtTreeSet.ofList (leashes.map Leash.blockID)
  .ok (heads.filter fun h => leashed.contains h.blockID)

theorem activeHeads_eq_ok {l : Linkage} {hs : List Head} : l.activeHeads = .ok hs ↔ ∃ all ls, l.st.heads = .ok all ∧
    l.st.leashes = .ok ls ∧
    hs = all.filter fun h => (Std.ExtTreeSet.ofList (ls.map Leash.blockID)).contains h.blockID := by
  unfold activeHeads
  constructor
  · intro h
    obtain ⟨all, hall, h⟩ := Go.bind_eq_ok.1 h
    obtain ⟨ls, hls, h⟩ := Go.bind_eq_ok.1 h
    cases h
    exact ⟨all, ls, Go.wrap_eq_ok.1 hall, Go.wrap_eq_ok.1 hls, rfl⟩
  · rintro ⟨all, ls, hall, hls, rfl⟩
    exact Go.bind_eq_ok.2 ⟨all, Go.wrap_eq_ok.2 hall, Go.bind_eq_ok.2 ⟨ls, Go.wrap_eq_ok.2 hls, rfl⟩⟩

theorem hasLeash_eq (l : Linkage) (a : Addr) : l.hasLeash a = .ok l.st.leashRecords[addrKeyBytes a]?.isSome := by
  unfold hasLeash
  rw [Storage.getLeash_eq]
  cases l.st.leashRecords[addrKeyBytes a]? <;> rfl

theorem hasLeash_iff {l : Linkage} {a : Addr} : l.hasLeash a = .ok true ↔ ∃ k, l.st.leash a = .ok k := by
  rw [hasLeash_eq, Storage.getLeash_eq]
  cases l.st.leashRecords[addrKeyBytes a]? <;> simp [Go.fail]

end Linkage

/-- A block with a listed leash on it. -/
def Leashed (l : Linkage) (x : BlockID) : Prop := ∃ a, Listed a ∧ l.st.leash a = .ok x

theorem zone_of_addrKeyFromBytes {key : Bytes} {a : Addr} (h : addrKeyFromBytes key = .ok a) : a.zone = "" := by
  unfold addrKeyFromBytes at h
  split at h
  · cases h
  · split at h
    · cases h
    · split at h
      · cases h
      · split at h
        · rename_i addr hslice
          cases h
          unfold Addr.fromSlice at hslice
          split at hslice
          · cases hslice
            rfl
          · cases hslice
        · cases h

namespace Mirrors
variable {gw : Gowaves} {l : Linkage} {t : BlockTree BlockID} (M : Mirrors gw l t)
include M

theorem mem_leashes_iff {ls : List Leash} (hls : l.st.leashes = .ok ls) {a : Addr} {k : BlockID} :
    (⟨a, k⟩ : Leash) ∈ ls ↔ Listed a ∧ l.st.leash a = .ok k := by
  constructor
  · intro h
    obtain ⟨r, hr, hf⟩ := (Go.mem_of_mapM hls _).1 h
    obtain ⟨a', ha', hf⟩ := Go.bind_eq_ok.1 hf
    cases hf
    refine ⟨⟨zone_of_addrKeyFromBytes ha', ?_⟩, (M.listed hls h).1⟩
    rw [addrKeyBytes_of_addrKeyFromBytes ha']
    exact (List.mem_filter.1 hr).2
  · rintro ⟨⟨hz, hr⟩, hk⟩
    exact mem_leashes hls hz hr hk

theorem leashed_iff {ls : List Leash} (hls : l.st.leashes = .ok ls) {x : BlockID} :
    Leashed l x ↔ ∃ a, (⟨a, x⟩ : Leash) ∈ ls := exists_congr fun _ => (M.mem_leashes_iff hls).symm

/-- The head of the fork of a listed peer is its leash. -/
theorem fork_head {rng : Go.MapRange BlockID (List Addr)} {p : Addr} {k : BlockID} {f : Fork} (hp : Listed p)
    (hk : l.st.leash p = .ok k) (hf : l.fork gw rng p = .ok f) : f.headBlock = k := by
  obtain ⟨ls, hls⟩ := M.exists_leashes
  exact (M.entry_head ((M.fork_eq_ok hls ((M.mem_leashes_iff hls).2 ⟨hp, hk⟩)).1 hf).2).1

/-- **The active heads**: the leaves with a leash on them, each once. -/
theorem activeHeads (H : HeadsInv l.st t) : ∃ hs, l.activeHeads = .ok hs ∧ (hs.map Head.blockID).Nodup ∧
    (∀ x, x ∈ hs.map Head.blockID ↔ t.Leaf x ∧ Leashed l x) ∧
    ∀ h ∈ hs, ∃ n, l.st.headToBlock[h.id]? = some n ∧ l.st.nums[h.blockID]? = some n := by
  obtain ⟨all, hall, hnodup, hleaf⟩ := H.listsLeaves M.refines
  obtain ⟨ls, hls⟩ := M.exists_leashes
  refine ⟨_, Linkage.activeHeads_eq_ok.2 ⟨all, ls, hall, hls, rfl⟩, ?_, fun x => ?_, fun h hh => ?_⟩
  · exact hnodup.sublist (List.filter_sublist.map Head.blockID)
  · have hleashed : (Std.ExtTreeSet.ofList (ls.map Leash.blockID)).contains x = true ↔ Leashed l x := by
      rw [Std.ExtTreeSet.contains_ofList, List.contains_iff_mem, List.mem_map, M.leashed_iff hls]
      exact ⟨fun ⟨⟨a, _⟩, hmem, he⟩ => ⟨a, he ▸ hmem⟩, fun ⟨a, hmem⟩ => ⟨_, hmem, rfl⟩⟩
    rw [← hleaf, ← hleashed, List.mem_map, List.mem_map]
    constructor
    · rintro ⟨h, hh, rfl⟩
      exact ⟨⟨h, (List.mem_filter.1 hh).1, rfl⟩, (List.mem_filter.1 hh).2⟩
    · rintro ⟨⟨h, hh, rfl⟩, hx⟩
      exact ⟨h, List.mem_filter.2 ⟨hh, hx⟩, rfl⟩
  · obtain ⟨r, hr, hread⟩ := (Go.mem_of_mapM hall h).1 (List.mem_filter.1 hh).1
    obtain ⟨b, hb, hread⟩ := Go.bind_eq_ok.1 hread
    obtain ⟨id, hid, hread⟩ := Go.bind_eq_ok.1 hread
    cases hread
    have hrn := Std.ExtTreeMap.mem_toList_iff_getElem?_eq_some.1 hr
    obtain ⟨x, hx, -⟩ := (H.leaves r.2).1 (by rw [(H.inverse r.1 r.2).1 hrn]; rfl)
    obtain ⟨nd, b', k, -, rec⟩ := M.refines.of_num hx
    have hbb : b' = b := Option.some.inj (rec.block.symm.trans (Storage.getBlock_eq_ok.1 (Go.wrap_eq_ok.1 hb)))
    rw [← hbb, rec.block_id, Proto.newBlockIDFromBytes_bytes] at hid
    cases hid
    exact ⟨r.2, hrn, hx⟩

end Mirrors

/-! ## Later states -/

section
variable {gw : Gowaves} {l l' : Linkage} {t t' : BlockTree BlockID}

/-- **A path is read alike before and after**, also when a block of it panics. -/
theorem Kept.blocksFrom (K : Kept l l' t t') (R : Refines gw l.st t) (R' : Refines gw l'.st t') :
    ∀ (k : Nat) {x : BlockID} {n : Nat}, l.st.nums[x]? = some n →
      l'.st.blocksFrom gw k n = l.st.blocksFrom gw k n
  | 0, _, _, _ => rfl
  | k + 1, x, n, hx => by
    obtain ⟨nd, b, lk, hnd, r⟩ := R.of_num hx
    obtain ⟨nd', b', lk', hnd', r'⟩ := R'.of_num (K.num x n hx)
    obtain rfl : b' = b := Option.some.inj (r'.block.symm.trans (K.block n b r.block))
    obtain rfl : nd' = nd := by
      have hsame := K.node x (BlockTree.stored_of_node hnd)
      rw [hnd, hnd'] at hsame
      exact Option.some.inj hsame
    rw [Storage.blocksFrom, Storage.blocksFrom, Storage.getBlock_eq_ok.2 r.block, Storage.getBlock_eq_ok.2 r'.block,
      Storage.getLink_eq_ok.2 r.link, Storage.getLink_eq_ok.2 r'.link]
    cases hp : nd'.parent with
    | none =>
      have hlen : b'.parent.length = 0 := by rw [r.block_parent, hp]; rfl
      simp only [Go.wrap_ok, bind, Except.bind, hlen, if_true]
    | some p =>
      have hparent : t.parent x = some p := (BlockTree.parent_eq hnd).trans hp
      obtain ⟨hps, -⟩ := t.isRooted.step x p (BlockTree.stored_of_node hnd) hparent
      obtain ⟨m, hm⟩ := Option.isSome_iff_exists.1 (R.stored_iff.1 hps)
      have hidx : Go.index lk.parents 0 = (.ok m : Res Nat) := by
        rw [Go.index_eq_ok, r.link_parent, hp]
        exact hm
      have hidx' : Go.index lk'.parents 0 = (.ok m : Res Nat) := by
        rw [Go.index_eq_ok, r'.link_parent, hp]
        exact K.num p m hm
      simp only [Go.wrap_ok, bind, Except.bind, hidx, hidx', K.blocksFrom R R' k hm]

theorem Kept.getBlocks (K : Kept l l' t t') (R : Refines gw l.st t) (R' : Refines gw l'.st t') (pl : Platform)
    {x : BlockID} (hx : t.Stored x) (count : Int) :
    pl.getBlocks gw l'.st x count = pl.getBlocks gw l.st x count := by
  obtain ⟨n, hn⟩ := Option.isSome_iff_exists.1 (R.stored_iff.1 hx)
  unfold Platform.getBlocks
  rw [Storage.getNumOfBlockID_eq_ok.2 hn, Storage.getNumOfBlockID_eq_ok.2 (K.num x n hn)]
  simp only [Go.wrap_ok, bind, Except.bind, K.blocksFrom R R' count.toNat hn]

theorem Kept.forkGenerators (K : Kept l l' t t') (R : Refines gw l.st t) (R' : Refines gw l'.st t') (pl : Platform)
    (rng : Go.MapRange Proto.WavesAddress Nat) (srt : Go.UnstableSort GeneratorStats byBlocksCountDesc) {x : BlockID}
    (hx : t.Stored x) (count : Int) :
    pl.forkGenerators gw rng srt l' x count = pl.forkGenerators gw rng srt l x count := by
  unfold Platform.forkGenerators
  rw [K.getBlocks R R' pl hx]

end

/-- The states of the linkage at the reads of a caller: between two of them, calls of others. -/
def Views (gw : Gowaves) (views : Nat → Linkage) : Prop :=
  ∀ i, ∃ calls : List Call, calls.foldlM (Linkage.call gw) (views i) = .ok (views (i + 1))

theorem hasLeash_run {gw : Gowaves} {a : Addr} : ∀ {calls : List Call} {l l' : Linkage},
    calls.foldlM (Linkage.call gw) l = .ok l' → l.hasLeash a = .ok true → l'.hasLeash a = .ok true
  | [], l, l', h, ha => by
    cases h
    exact ha
  | c :: calls, l, l', h, ha => by
    rw [List.foldlM_cons] at h
    obtain ⟨l1, h1, h⟩ := Go.bind_eq_ok.1 h
    refine hasLeash_run h ?_
    rw [Linkage.hasLeash_eq, Except.ok.injEq] at ha ⊢
    rw [Linkage.leashRecords_exec (Linkage.exec_of_call h1), Go.getElem?_insert_eq]
    split
    · rfl
    · exact ha

namespace Views
variable {gw : Gowaves} {scheme : Proto.Scheme} {genesis : Proto.Block} {views : Nat → Linkage}
  {t : BlockTree BlockID}

theorem tail (h : Views gw views) : Views gw fun i => views (i + 1) := fun i => h (i + 1)

/-- **All later states are reachable**, and keep what the first one has. -/
theorem later (hv : Views gw views) (h : Reachable gw scheme genesis (views 0) t) :
    ∀ i, ∃ t', Reachable gw scheme genesis (views i) t' ∧ Kept (views 0) (views i) t t'
  | 0 => ⟨t, h, .refl _ t⟩
  | i + 1 => by
    obtain ⟨t', ht', K⟩ := later hv h i
    obtain ⟨calls, hcalls⟩ := hv i
    exact ⟨_, ht'.run hcalls, K.trans (ht'.kept_run hcalls)⟩

/-- **A stored block reads alike in all of them.** -/
theorem block_eq (hv : Views gw views) (h : Reachable gw scheme genesis (views 0) t) {x : BlockID} (hx : t.Stored x)
    (i : Nat) : (views i).block gw x = (views 0).block gw x := by
  obtain ⟨t', -, K⟩ := hv.later h i
  exact K.readBlock h.stands hx

end Views

end Chains
end ForkDetector
