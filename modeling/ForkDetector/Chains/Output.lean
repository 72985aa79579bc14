import ForkDetector.Chains.Forks
/-!
# Output — the list that `Forks` returns

The entries divide the leashed addresses among them, stand in the order of the sort, and are each compared with the
first one, along the tree.
-/
namespace ForkDetector
namespace Chains

open Ancestry Lifting
open Proto (BlockID Gowaves)

/-! ## The addresses listed -/

theorem compare_ne_gt {a b : UInt8} (h : a ≤ b) : compare a b ≠ .gt := by
  show compareOfLessAndEq a b ≠ .gt
  unfold compareOfLessAndEq
  by_cases hlt : a < b
  · simp [hlt]
  · have he : a = b := by grind
    simp [he]

theorem isLE_compare_zeros : ∀ bs : Bytes, (compare (List.replicate bs.length 0) bs).isLE = true
  | [] => rfl
  | b :: bs => by
    rw [List.length_cons, List.replicate_succ, List.compare_cons_cons]
    cases hc : compare (0 : UInt8) b with
    | lt => rfl
    | eq => exact isLE_compare_zeros bs
    | gt => exact absurd hc (compare_ne_gt (UInt8.le_iff_toNat_le.2 (Nat.zero_le _)))

theorem compare_ones : ∀ (bs : Bytes) (n : Nat), bs.length < n → compare bs (List.replicate n 255) = .lt
  | [], n + 1, _ => rfl
  | b :: bs, n + 1, h => by
    rw [List.replicate_succ, List.compare_cons_cons]
    cases hc : compare b (255 : UInt8) with
    | lt => rfl
    | eq => exact compare_ones bs n (Nat.lt_of_succ_lt_succ h)
    | gt => exact absurd hc (compare_ne_gt (UInt8.le_iff_toNat_le.2 (Nat.le_of_lt_succ b.toNat_lt)))

/-- The scan of the leashes covers all IPv4 addresses. -/
theorem inLeashRange_of_is4 {a : Addr} (h : a.is4 = true) : Storage.inLeashRange (addrKeyBytes a) = true := by
  have hlen : a.bytes.length = 4 := of_decide_eq_true h
  have hlow := isLE_compare_zeros a.bytes
  have hhigh := compare_ones a.bytes 16 (by omega)
  rw [hlen] at hlow
  have hp : compare leashPrefix leashPrefix = .eq := rfl
  unfold Storage.inLeashRange addrKeyBytes
  rw [List.compare_cons_cons, List.compare_cons_cons, hp, hhigh]
  simpa [Addr.from4] using hlow

/-- The leash of an address with no zone is listed, when its key is in the range of the scan. -/
theorem mem_leashes {s : Storage} {ls : List Leash} (hls : s.leashes = .ok ls) {a : Addr} {k : BlockID}
    (hz : a.zone = "") (hr : Storage.inLeashRange (addrKeyBytes a) = true) (h : s.leash a = .ok k) :
    (⟨a, k⟩ : Leash) ∈ ls := by
  have hrec : s.leashRecords[addrKeyBytes a]? = some k := by
    rw [Storage.getLeash_eq] at h
    cases hk : s.leashRecords[addrKeyBytes a]? with
    | none => rw [hk] at h; cases h
    | some k' => rw [hk] at h; cases h; rfl
  obtain ⟨a', ha'⟩ := addrKeyFromBytes_addrKeyBytes hr
  have hbytes : a'.bytes = a.bytes := (List.cons.inj (addrKeyBytes_of_addrKeyFromBytes ha')).2
  have hzone : a'.zone = "" := by
    unfold addrKeyFromBytes addrKeyBytes at ha'
    split at ha'
    · cases ha'
    · simp only [ne_eq, not_true_eq_false, if_false, Addr.fromSlice] at ha'
      split at ha'
      · rename_i addr h'
        cases ha'
        split at h'
        · cases h'; rfl
        · cases h'
      · cases ha'
  obtain rfl : a' = a := Addr.ext_fields hbytes (hzone.trans hz.symm)
  refine (Go.mem_of_mapM hls _).2 ⟨(addrKeyBytes a', k), List.mem_filter.2 ⟨?_, hr⟩, ?_⟩
  · exact Std.ExtTreeMap.mem_toList_iff_getElem?_eq_some.2 hrec
  · exact Go.bind_eq_ok.2 ⟨a', ha', rfl⟩

/-- **An IPv4 address has its leash listed.** -/
theorem mem_leashes_of_is4 {s : Storage} {ls : List Leash} (hls : s.leashes = .ok ls) {a : Addr} {k : BlockID}
    (ha : a.is4 = true) (h : s.leash a = .ok k) : (⟨a, k⟩ : Leash) ∈ ls :=
  mem_leashes hls (Addr.zone_of_is4 ha) (inLeashRange_of_is4 ha) h

theorem nodup_leashes {s : Storage} {ls : List Leash} (hls : s.leashes = .ok ls) : (ls.map Leash.addr).Nodup := by
  have hkeys : ls.map (fun lsh => addrKeyBytes lsh.addr) =
      (s.leashRecords.toList.filter fun r => Storage.inLeashRange r.1).map Prod.fst :=
    Go.map_of_mapM hls fun r lsh h => by
      obtain ⟨a, ha, h⟩ := Go.bind_eq_ok.1 h
      cases h
      exact addrKeyBytes_of_addrKeyFromBytes ha
  have hnd : ((s.leashRecords.toList.filter fun r => Storage.inLeashRange r.1).map Prod.fst).Nodup := by
    refine List.Nodup.sublist (List.filter_sublist.map Prod.fst) ?_
    rw [Std.ExtTreeMap.map_fst_toList_eq_keys]
    exact Std.ExtTreeMap.nodup_keys
  rw [← hkeys, show (fun lsh : Leash => addrKeyBytes lsh.addr) = addrKeyBytes ∘ Leash.addr from rfl,
    ← List.map_map] at hnd
  exact hnd.of_map _

/-! ## The list -/

/-- `LastCommonBlock` is a common ancestor with the block `top`, and `Length` counts the blocks above it. -/
structure Compared (t : BlockTree BlockID) (top : BlockID) (f : Fork) : Prop where
  head : Anc t.parent f.lastCommonBlock f.headBlock
  top : Anc t.parent f.lastCommonBlock top
  nonneg : 0 ≤ f.length
  path : up t.parent f.length.toNat f.headBlock = some f.lastCommonBlock

/-- The height, score, timestamp and generator of an entry are those of its head block. -/
structure Describes (gw : Gowaves) (l : Linkage) (f : Fork) (b : Block) : Prop where
  block : l.block gw f.headBlock = .ok b
  height : f.headHeight = b.height
  score : f.score = b.score
  timestamp : f.headTimestamp = b.timestamp
  generator : f.headGenerator = b.generator

/-- **The output of `Forks` for all peers.** -/
structure WellFormed (gw : Gowaves) (l : Linkage) (t : BlockTree BlockID) (fs : List Fork) : Prop where
  describes : ∀ f ∈ fs, ∃ b, Describes gw l f b
  on_leash : ∀ f ∈ fs, ∀ a ∈ f.peers, l.st.leash a = .ok f.headBlock
  covers : ∀ (a : Addr) (k : BlockID), a.is4 = true → l.st.leash a = .ok k → ∃ f ∈ fs, f.headBlock = k ∧ a ∈ f.peers
  disjoint : (fs.flatMap Fork.peers).Nodup
  nonempty : ∀ f ∈ fs, f.peers ≠ [] ∧ f.peersCount = f.peers.length
  ordered : fs.Pairwise fun f g => g.score < f.score ∨ g.score = f.score ∧ g.peers.length ≤ f.peers.length
  longest : ∃ top ∈ fs, top.longest = true ∧ (∀ f ∈ fs, f.longest = true → f = top) ∧
    (∀ f ∈ fs, f.score < top.score ∨ f.score = top.score ∧ f.peers.length ≤ top.peers.length) ∧
    top.length = 0 ∧ top.lastCommonBlock = top.headBlock ∧ ∀ f ∈ fs, Compared t top.headBlock f

theorem Fork.rank_le {f g : Fork} :
    f.rank ≤ g.rank ↔ f.score < g.score ∨ f.score = g.score ∧ f.peers.length ≤ g.peers.length := by
  unfold Fork.rank
  rw [Prod.Lex.toLex_le_toLex]

namespace Mirrors
variable {gw : Gowaves} {l : Linkage} {t : BlockTree BlockID} (M : Mirrors gw l t)
include M

theorem compared {top : BlockID} (htop : t.Stored top) {e : BlockID × List Addr} {f : Fork}
    (h : l.entry gw top e = .ok f) : Compared t top f := by
  obtain ⟨b, c, cb, hb, hc, hcb, rfl⟩ := Linkage.entry_eq_ok.1 h
  obtain ⟨hk, hid, hh, -⟩ := M.block_eq_ok hb
  rw [hid] at hc
  have hdeep := M.lca_deepest hc htop hk
  have hcs := t.isRooted.anc_node hk hdeep.right
  obtain ⟨cb', hcb', hch, -⟩ := M.getBlock_of_stored hcs
  obtain rfl : cb' = cb := Except.ok.inj (hcb'.symm.trans hcb)
  have hle := t.isRooted.anc_height_le hk hdeep.right
  have hup := (t.isRooted.anc_iff_up hk).1 hdeep.right
  refine ⟨?_, hdeep.left, ?_, ?_⟩
  · show Anc t.parent c b.id
    rw [hid]
    exact hdeep.right
  · show (0 : Int) ≤ b.height - cb'.height
    omega
  · show up t.parent ((b.height : Int) - cb'.height).toNat b.id = some c
    rw [hid, hh, hch, ← hup]
    congr 1
    omega

omit M in
/-- The entries keep the order of the sort. -/
theorem ordered {rng : Go.MapRange BlockID (List Addr)} {srt : Go.UnstableSort Fork byScoreAndPeersDesc}
    {P : LookupPeers} {ls : List Leash} (hls : l.st.leashes = .ok ls) {fs : List Fork}
    (h : l.forks gw rng srt P = .ok fs) : fs.Pairwise fun f g => g.rank ≤ f.rank := by
  obtain ⟨r, longest, rest, hr, hsort, h⟩ := (Linkage.forks_steps hls).1 h
  have hrank : fs.map Fork.rank = (longest :: rest).map Fork.rank := by
    refine (Go.map_of_mapM h (fun f g hg => ?_ : ∀ f g, _ → Fork.rank g = Fork.rank f)).trans rfl
    obtain ⟨c, -, hg⟩ := Go.bind_eq_ok.1 hg
    obtain ⟨cb, -, hg⟩ := Go.bind_eq_ok.1 hg
    cases hg
    rfl
  have hsorted := srt.sorted r
  rw [hsort] at hsorted
  have hdesc : (longest :: rest).Pairwise fun f g => g.rank ≤ f.rank := hsorted.imp fun {f g} hfg => by
    rw [Bool.eq_false_iff, ne_eq, descending_byScoreAndPeersDesc] at hfg
    exact le_of_not_gt hfg
  rw [← List.pairwise_map (f := Fork.rank) (R := fun x y => y ≤ x)] at hdesc ⊢
  rw [hrank]
  exact hdesc

omit M in
theorem describes_of_entry {top : BlockID} {f : Fork} (h : l.entry gw top (f.headBlock, f.peers) = .ok f) :
    ∃ b, Describes gw l f b := by
  obtain ⟨b, c, cb, hb, -, -, hf⟩ := Linkage.entry_eq_ok.1 h
  refine ⟨b, hb, ?_, ?_, ?_, ?_⟩ <;> rw [hf] <;> rfl

/-- What the entries of the list say, each of its own. -/
theorem entry_of_mem {ls : List Leash} {top : BlockID} {fs : List Fork} (hfs : ForksFrom gw l ls top fs) {f : Fork}
    (hf : f ∈ fs) : f.peers = peersOn ls f.headBlock ∧ f.peers ≠ [] ∧ f.longest = decide (f.headBlock = top) ∧
      f.peersCount = f.peers.length ∧ l.entry gw top (f.headBlock, f.peers) = .ok f := by
  obtain ⟨⟨k, v⟩, he, hent⟩ := (hfs.mem f).1 hf
  obtain ⟨hhead, hpeers, hlong⟩ := M.entry_head hent
  obtain ⟨b, c, cb, -, -, -, hf⟩ := Linkage.entry_eq_ok.1 hent
  have hv := mem_groups.1 he
  refine ⟨by rw [hpeers, hhead]; exact hv.1, by rw [hpeers]; exact hv.2, by rw [hlong, hhead], ?_, ?_⟩
  · rw [hf]; rfl
  · rw [hhead, hpeers]; exact hent

theorem rank_of_entry {top : BlockID} {f : Fork} (h : l.entry gw top (f.headBlock, f.peers) = .ok f) :
    f.rank = l.rank (f.headBlock, f.peers) := by
  obtain ⟨b, c, cb, hb, -, -, hf⟩ := Linkage.entry_eq_ok.1 h
  have hs := (M.block_eq_ok hb).2.2.2
  unfold Fork.rank Linkage.rank
  rw [← hs, hf]
  rfl

theorem wellFormed {rng : Go.MapRange BlockID (List Addr)} {srt : Go.UnstableSort Fork byScoreAndPeersDesc}
    {fs : List Fork} (h : l.forks gw rng srt ∅ = .ok fs) : WellFormed gw l t fs := by
  obtain ⟨ls, hls⟩ := M.exists_leashes
  obtain ⟨top, htop, hfs⟩ := M.forks_eq_ok hls h
  rw [keeps_empty] at htop hfs
  obtain ⟨p, hp⟩ := exists_leash htop.mem
  have hstored : t.Stored top := (M.listed hls hp).2
  have hentry := fun (f : Fork) (hf : f ∈ fs) => M.entry_of_mem hfs hf
  obtain ⟨ft, hft⟩ := hfs.entries _ htop.mem
  have hftmem := (hfs.mem ft).2 ⟨_, htop.mem, hft⟩
  have hfthead : ft.headBlock = top := (M.entry_head hft).1
  have hdeep := M.compared hstored hft
  have hlcb : ft.lastCommonBlock = top := by
    obtain ⟨b, c, cb, hb, hc, -, hf⟩ := Linkage.entry_eq_ok.1 hft
    rw [(M.block_eq_ok hb).2.1, M.lca_self hstored] at hc
    rw [hf]
    exact (Except.ok.inj hc).symm
  have hinj : ∀ f ∈ fs, ∀ g ∈ fs, f.headBlock = g.headBlock → f = g := fun f hf g hg he =>
    List.inj_on_of_nodup_map hfs.nodup hf hg he
  have hrank := fun (f : Fork) (hf : f ∈ fs) => M.rank_of_entry (hentry f hf).2.2.2.2
  have hmax : ∀ f ∈ fs, f.rank ≤ ft.rank := fun f hf => by
    have hgroup : (f.headBlock, f.peers) ∈ groups ls := mem_groups.2 ⟨(hentry f hf).1, (hentry f hf).2.1⟩
    rw [hrank f hf, hrank ft hftmem, (hentry ft hftmem).1, hfthead]
    exact htop.le _ hgroup
  refine ⟨fun f hf => describes_of_entry (hentry f hf).2.2.2.2, fun f hf a ha => ?_, fun a k ha hk => ?_, ?_,
    fun f hf => ⟨(hentry f hf).2.1, (hentry f hf).2.2.2.1⟩, (ordered hls h).imp Fork.rank_le.1, ft, hftmem, ?_,
    fun f hf hl => ?_, fun f hf => Fork.rank_le.1 (hmax f hf), ?_, hlcb.trans hfthead.symm, fun f hf => ?_⟩
  · rw [(hentry f hf).1] at ha
    exact (M.listed hls (mem_peersOn.1 ha)).1
  · have hmem := mem_leashes_of_is4 hls ha hk
    obtain ⟨f, hf⟩ := hfs.entries _ (mem_groups_of_leash hmem)
    obtain ⟨hhead, hpeers, -⟩ := M.entry_head hf
    exact ⟨f, (hfs.mem f).2 ⟨_, mem_groups_of_leash hmem, hf⟩, hhead, by rw [hpeers]; exact mem_peersOn.2 hmem⟩
  · have hpeers : ∀ k, (peersOn ls k).Nodup := fun k => (nodup_leashes hls).sublist (List.filter_sublist.map _)
    rw [List.nodup_flatMap]
    refine ⟨fun f hf => by rw [(hentry f hf).1]; exact hpeers _, ?_⟩
    refine (List.pairwise_map.1 hfs.nodup).imp_of_mem fun {f g} hf hg hne a haf hag => hne ?_
    rw [(hentry f hf).1] at haf
    rw [(hentry g hg).1] at hag
    exact M.leash_unique hls (mem_peersOn.1 haf) (mem_peersOn.1 hag)
  · rw [(hentry ft hftmem).2.2.1, hfthead, decide_eq_true rfl]
  · rw [(hentry f hf).2.2.1, decide_eq_true_eq] at hl
    exact hinj f hf ft hftmem (hl.trans hfthead.symm)
  · obtain ⟨-, -, hnn, hup⟩ := hdeep
    rw [hfthead, hlcb] at hup
    have := (t.isRooted.up_height hstored hup).2
    omega
  · rw [hfthead]
    exact M.compared hstored (hentry f hf).2.2.2.2

end Mirrors

/-- **Whenever `Forks` returns a list for all peers of a reachable linkage, the list is well formed**, for any order of
the map and any unstable sort. -/
theorem forks_wellFormed {gw : Gowaves} {scheme : Proto.Scheme} {genesis : Proto.Block} {l : Linkage}
    {t : BlockTree BlockID} (h : Reachable gw scheme genesis l t) {rng : Go.MapRange BlockID (List Addr)}
    {srt : Go.UnstableSort Fork byScoreAndPeersDesc} {fs : List Fork} (hfs : l.forks gw rng srt ∅ = .ok fs) :
    WellFormed gw l t fs := h.mirrors.wellFormed hfs

/-- Two branches of different lengths. -/
theorem forks_wellFormed_sample : ∃ l fs, Sample.after Sample.branches = .ok l ∧
    l.forks Sample.gowaves (.listed _ _) Sample.stable ∅ = .ok fs ∧
    WellFormed Sample.gowaves l (Sample.tree Sample.branches) fs := by
  obtain ⟨l, h⟩ := Go.exists_of_isOk (x := Sample.after Sample.branches) (by decide +kernel)
  obtain ⟨fs, hfs⟩ := Go.exists_of_isOk (x := Sample.after Sample.branches >>= fun l =>
    l.forks Sample.gowaves (.listed _ _) Sample.stable ∅) (by decide +kernel)
  rw [h] at hfs
  exact ⟨l, fs, h, hfs, forks_wellFormed (Sample.reachable h) hfs⟩

end Chains
end ForkDetector
