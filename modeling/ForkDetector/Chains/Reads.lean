import ForkDetector.Chains.Output
import ForkDetector.Chains.Ranges
/-!
# Reads — what a database with no dangling leash answers

Where every leash points to a stored block, the reads that follow leashes fail on nothing but numbers out of range,
which panic.  One kind of leash is not found again: its key is outside of the scan, or its address has a zone, which
the key leaves out.
-/
namespace ForkDetector
namespace Chains

open Ancestry Lifting
open Go (NoError)
open Proto (BlockID Gowaves)

/-- An address whose leash the scan of the leashes lists under it. -/
def Listed (a : Addr) : Prop := a.zone = "" ∧ Storage.inLeashRange (addrKeyBytes a) = true

/-- The key of an address without its zone. -/
theorem exists_mem_leashes {s : Storage} {ls : List Leash} (hls : s.leashes = .ok ls) {a : Addr} {k : BlockID}
    (hr : Storage.inLeashRange (addrKeyBytes a) = true) (h : s.leash a = .ok k) : ∃ b, (⟨b, k⟩ : Leash) ∈ ls := by
  obtain ⟨b, hb⟩ := addrKeyFromBytes_addrKeyBytes hr
  have hrec : s.leashRecords[addrKeyBytes a]? = some k := by
    rw [Storage.getLeash_eq] at h
    cases hk : s.leashRecords[addrKeyBytes a]? with
    | none => rw [hk] at h; cases h
    | some k' => rw [hk] at h; cases h; rfl
  refine ⟨b, (Go.mem_of_mapM hls _).2 ⟨(addrKeyBytes a, k), List.mem_filter.2 ⟨?_, hr⟩, ?_⟩⟩
  · exact Std.ExtTreeMap.mem_toList_iff_getElem?_eq_some.2 hrec
  · exact Go.bind_eq_ok.2 ⟨b, hb, rfl⟩

namespace Mirrors
variable {gw : Gowaves} {l : Linkage} {t : BlockTree BlockID} (M : Mirrors gw l t)
include M

theorem stored_of_leash {a : Addr} {k : BlockID} (h : l.st.leash a = .ok k) : t.Stored k := by
  rw [Storage.getLeash_eq] at h
  cases hk : l.st.leashRecords[addrKeyBytes a]? with
  | none => rw [hk] at h; cases h
  | some k' =>
    rw [hk] at h
    cases h
    exact (M.leashes _ _ hk).1

theorem lca_noError {x y : BlockID} (hx : t.Stored x) (hy : t.Stored y) : NoError (l.st.lca x y) := by
  obtain ⟨c, hc⟩ := t.isRooted.exists_deepestCommon hy _ x hx rfl
  obtain ⟨h1, h2⟩ := M.refines.lca_spec hx hy hc
  by_cases hr : InRange (t.height c) (min (t.height x) (t.height y) - t.height c)
  · exact .of_ok (h1 hr)
  · rw [h2 hr]
    exact .panic _

/-- The common ancestor of two stored blocks is there to be read. -/
theorem lca_block_noError {x y : BlockID} (hx : t.Stored x) (hy : t.Stored y) {msg : String} {α : Type}
    {f : BlockID → StoredBlock → α} : NoError (do
      let c ← Go.wrap msg (l.st.lca x y)
      let b ← Go.wrap msg (l.st.block c)
      .ok (f c b) : Res α) := by
  refine .bind (M.lca_noError hx hy).wrap fun c hc => ?_
  obtain ⟨b, hb, -⟩ := M.getBlock_of_stored (M.lca_stored (Go.wrap_eq_ok.1 hc) hx hy)
  exact .bind (NoError.of_ok hb).wrap fun _ _ => .of_ok rfl

theorem lastIDs_noError {x : BlockID} (hx : t.Stored x) (n : Nat) : NoError (l.lastIDs x n) :=
  .of_ok (M.refines.getAncestors_eq hx n)

theorem stored_of_mem_groups {ls : List Leash} (hls : l.st.leashes = .ok ls) {q : Leash → Bool}
    {e : BlockID × List Addr} (he : e ∈ groups (ls.filter q)) : t.Stored e.1 := by
  obtain ⟨p, hp⟩ := exists_leash he
  exact (M.listed hls (List.mem_filter.1 hp).1).2

/-- `Leash` of an address, leashed or not, is a stored block. -/
theorem leash_stored (a : Addr) : ∃ k, l.leash a = .ok k ∧ t.Stored k := by
  unfold Linkage.leash
  cases h : l.st.leash a with
  | ok k => exact ⟨k, rfl, M.stored_of_leash h⟩
  | error f =>
    rw [Storage.getLeash_eq] at h
    split at h
    · cases h
    · cases h
      exact ⟨l.genesis, rfl, M.genesis_eq ▸ t.isRooted.root_node⟩

/-- `LCB` of an IPv4 address, leashed or not, is a stored block. -/
theorem lcb_stored {rng : Go.MapRange BlockID (List Addr)} {p : Addr} {c : BlockID} (hp : p.is4 = true)
    (h : l.lcb gw rng p = .ok c) : t.Stored c := by
  cases hk : l.st.leash p with
  | ok k =>
    obtain ⟨ls, hls⟩ := M.exists_leashes
    have hmem := mem_leashes_of_is4 hls hp hk
    have htop := M.top_chosen rng (List.ne_nil_of_mem (mem_groups_of_leash hmem))
    obtain ⟨q, hq⟩ := exists_leash htop.mem
    exact M.lca_stored ((M.lcb_eq_ok hls hmem).1 h).2 (M.listed hls hq).2 (M.stored_of_leash hk)
  | error f =>
    rw [Storage.getLeash_eq] at hk
    split at hk
    · cases hk
    · cases hk
      rename_i hnone
      unfold Linkage.lcb at h
      rw [Storage.getLeash_eq, hnone] at h
      cases h
      rw [M.genesis_eq]
      exact t.isRooted.root_node

section
variable (hgw : gw.RoundTrips)
include hgw

theorem block_noError {x : BlockID} (hx : t.Stored x) : NoError (l.block gw x) := by
  obtain ⟨nd, hnd⟩ := hx.node
  obtain ⟨n, b, k, r⟩ := M.refines.recorded x nd hnd
  have hb : l.st.block x = .ok b := Storage.getBlockByID_eq_ok.2 ⟨n, r.num, r.block⟩
  rw [Linkage.block_eq hb]
  rcases r.toBlock_cases hgw "failed to get block" with ⟨-, bb, hbb⟩ | ⟨-, hbb⟩
  · exact .of_ok hbb
  · rw [hbb]
    exact .panic _

/-- **`Forks` never returns an error**, whatever peers it is asked for. -/
theorem forks_noError (rng : Go.MapRange BlockID (List Addr)) (srt : Go.UnstableSort Fork byScoreAndPeersDesc)
    (P : LookupPeers) : NoError (l.forks gw rng srt P) := by
  obtain ⟨ls, hls⟩ := M.exists_leashes
  have hstored : ∀ e ∈ rng.entries (groups (ls.filter P.keeps)), t.Stored e.1 := fun e he =>
    M.stored_of_mem_groups hls ((rng.perm _).mem_iff.1 he)
  unfold Linkage.forks
  rw [hls]
  refine .bind (.of_ok rfl) fun ls' hls' => ?_
  cases hls'
  refine .bind (.mapM fun e he => ?_) fun r hr => ?_
  · exact .bind (M.block_noError hgw (hstored e he)).wrap fun _ _ => .of_ok rfl
  · cases hsort : srt.sort r with
    | nil => exact .panic _
    | cons longest rest =>
      have hhead : ∀ f ∈ srt.sort r, t.Stored f.headBlock := fun f hf => by
        obtain ⟨e, he, hfe⟩ := (Go.mem_of_mapM hr f).1 ((srt.perm r).mem_iff.1 hf)
        obtain ⟨-, -, -, hh, -⟩ := M.forkOf_eq_ok hfe
        rw [hh]
        exact hstored e he
      rw [hsort] at hhead
      refine .mapM fun f hf => M.lca_block_noError (hhead longest List.mem_cons_self) ?_
      rcases List.mem_cons.1 hf with rfl | hf
      · exact hhead longest List.mem_cons_self
      · exact hhead f (List.mem_cons_of_mem _ hf)

/-- **`Fork` of a listed peer never returns an error.** -/
theorem fork_noError (rng : Go.MapRange BlockID (List Addr)) {p : Addr} {k : BlockID} (hp : Listed p)
    (hk : l.st.leash p = .ok k) : NoError (l.fork gw rng p) := by
  obtain ⟨ls, hls⟩ := M.exists_leashes
  have hmem := mem_leashes hls hp.1 hp.2 hk
  have hperm := rng.perm (groups ls)
  have hstored : ∀ e ∈ groups ls, t.Stored e.1 := fun e he => by
    obtain ⟨q, hq⟩ := exists_leash he
    exact (M.listed hls hq).2
  unfold Linkage.fork
  rw [hls]
  refine .bind (.of_ok rfl) fun ls' hls' => ?_
  cases hls'
  refine .bind (.foldlM _ fun e he acc => ?_) fun acc hacc => ?_
  · exact .bind (M.block_noError hgw (hstored e (hperm.mem_iff.1 he))).wrap fun _ _ => .of_ok rfl
  · have hgroup := mem_groups_of_leash hmem
    obtain ⟨a, a', ha⟩ := Go.exists_of_foldlM hacc _ (hperm.mem_iff.2 hgroup)
    obtain ⟨b, hb, -⟩ := Go.bind_eq_ok.1 ha
    rw [Go.wrap_eq_ok] at hb
    obtain ⟨hfork, hchosen⟩ := M.fork_loop hls hmem hb hacc
    have hhead : acc.2.headBlock = k := by rw [hfork]; exact (M.block_eq_ok hb).2.1
    have htop := M.top_chosen rng (List.ne_nil_of_mem hgroup)
    unfold Linkage.finishFork
    split
    · exact .of_ok rfl
    · rw [hhead, hchosen]
      exact M.lca_block_noError (hstored _ htop.mem) (M.stored_of_leash hk)

/-- **`LCB` never returns an error** for an address that is not leashed, or when there is a leash in the scan. -/
theorem lcb_noError (rng : Go.MapRange BlockID (List Addr)) (p : Addr)
    (hp : ∀ k, l.st.leash p = .ok k → l.st.leashes ≠ .ok []) : NoError (l.lcb gw rng p) := by
  obtain ⟨ls, hls⟩ := M.exists_leashes
  unfold Linkage.lcb
  cases hk : l.st.leash p with
  | error f =>
    rw [Storage.getLeash_eq] at hk
    split at hk
    · cases hk
    · cases hk
      exact .of_ok rfl
  | ok k =>
    have hne : groups ls ≠ [] := by
      cases ls with
      | nil => exact absurd hls (hp k hk)
      | cons lsh ls =>
        exact List.ne_nil_of_mem (mem_groups_of_leash (a := lsh.addr) (k := lsh.blockID) List.mem_cons_self)
    have hperm := rng.perm (groups ls)
    have hstored : ∀ e ∈ groups ls, t.Stored e.1 := fun e he => by
      obtain ⟨q, hq⟩ := exists_leash he
      exact (M.listed hls hq).2
    rw [hls]
    refine .bind (.of_ok rfl) fun ls' hls' => ?_
    cases hls'
    refine .bind (.foldlM _ fun e he acc => ?_) fun acc hacc => ?_
    · exact .bind (M.block_noError hgw (hstored e (hperm.mem_iff.1 he))).wrap fun _ _ => .of_ok rfl
    · split
      · exact .of_ok rfl
      · have hchosen : acc.block = l.chosen rng ls := by rw [M.foldlM_lcbStep hacc]; rfl
        rw [hchosen]
        exact (M.lca_noError (hstored _ (M.top_chosen rng hne).mem) (M.stored_of_leash hk)).wrap

end

end Mirrors

end Chains
end ForkDetector
