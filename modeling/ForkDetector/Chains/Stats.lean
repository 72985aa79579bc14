import ForkDetector.Chains.Forks
/-!
# Stats — how many forks are short and how many long

`Stats` counts the entries of `Forks` for every peer, the longest chain among them, and `Forks` takes the first of its
sorted entries for the longest one.  With no leash that passes the filter there is no first entry
(`never_indexes_empty_iff`), and with one the two numbers add up to all the leashed blocks (`stats_miscount`).
-/
namespace ForkDetector
namespace Chains

open Proto (BlockID Gowaves)

structure Stats where
  short : Nat
  long : Nat
deriving DecidableEq

def longForkThreshold : Int := 5

/-- The loop of `Stats`, at one fork. -/
def Stats.add (r : Stats) (f : Fork) : Stats :=
  if f.length > longForkThreshold then { r with long := r.long + 1 } else { r with short := r.short + 1 }

namespace Linkage

def stats (gw : Gowaves) (rng : Go.MapRange BlockID (List Addr)) (srt : Go.UnstableSort Fork byScoreAndPeersDesc)
    (l : Linkage) : Res Stats := do
  let forks ← Go.wrap "failed to get stats" (l.forks gw rng srt ∅)
  .ok (forks.foldl Stats.add ⟨0, 0⟩)

/-- The sorted entries of `forks`, whose first one it takes for the longest. -/
def sortedForks (gw : Gowaves) (rng : Go.MapRange BlockID (List Addr))
    (srt : Go.UnstableSort Fork byScoreAndPeersDesc) (l : Linkage) (peers : LookupPeers) : Res (List Fork) := do
  let leashes ← Go.wrap "failed to get forks" l.st.leashes
  let r ← (rng.entries (groups (leashes.filter peers.keeps))).mapM (l.forkOf gw)
  .ok (srt.sort r)

/-- What `forks` makes of its sorted entries, from the index of the first one on. -/
def finishForks (l : Linkage) : List Fork → Res (List Fork)
  | [] => Go.panic "index out of range"
  | longest :: rest => ({ longest with longest := true } :: rest).mapM (l.setLastCommonBlock longest.headBlock)

variable {gw : Gowaves} {rng : Go.MapRange BlockID (List Addr)} {srt : Go.UnstableSort Fork byScoreAndPeersDesc}
  {l : Linkage} {peers : LookupPeers} {ls : List Leash}

theorem forks_eq_sorted : l.forks gw rng srt peers = l.sortedForks gw rng srt peers >>= l.finishForks := by
  unfold forks sortedForks
  rw [bind_assoc]
  refine bind_congr fun leashes => ?_
  rw [bind_assoc]
  refine bind_congr fun r => ?_
  show _ = l.finishForks (srt.sort r)
  cases srt.sort r <;> rfl

theorem stats_eq_ok {st : Stats} : l.stats gw rng srt = .ok st ↔
    ∃ fs, l.forks gw rng srt ∅ = .ok fs ∧ st = fs.foldl Stats.add ⟨0, 0⟩ := by
  unfold stats
  rw [Go.bind_eq_ok]
  refine exists_congr fun fs => ?_
  rw [Go.wrap_eq_ok, Except.ok.injEq, eq_comm (a := st)]

end Linkage

/-! ## The first of the sorted forks -/

/-- Some leash passes the filter. -/
def Linkage.Keeps (l : Linkage) (peers : LookupPeers) : Prop :=
  ∃ ls lsh, l.st.leashes = .ok ls ∧ lsh ∈ ls ∧ peers.keeps lsh = true

/-- `lca` goes out of range for two blocks whose leashes pass the filter. -/
def Linkage.LcaPanics (l : Linkage) (peers : LookupPeers) : Prop :=
  ∃ ls x y, l.st.leashes = .ok ls ∧ x ∈ (ls.filter peers.keeps).map Leash.blockID ∧
    y ∈ (ls.filter peers.keeps).map Leash.blockID ∧ l.st.lca x y = Go.panic "index out of range"

/-- **`Forks` and `Stats` never index an empty list**: where one of them panics on an index it is the one of an `lca`
between blocks it lists, and with no leash that passes the filter they return no forks and zero counts. -/
structure NeverIndexesEmpty (gw : Gowaves) (rng : Go.MapRange BlockID (List Addr))
    (srt : Go.UnstableSort Fork byScoreAndPeersDesc) (l : Linkage) (peers : LookupPeers) : Prop where
  forks : l.forks gw rng srt peers = Go.panic "index out of range" → l.LcaPanics peers
  stats : l.stats gw rng srt = Go.panic "index out of range" → l.LcaPanics ∅
  no_forks : ¬ l.Keeps peers → l.forks gw rng srt peers = .ok []
  no_stats : ¬ l.Keeps ∅ → l.stats gw rng srt = .ok ⟨0, 0⟩

theorem groups_eq_nil {ls : List Leash} : groups ls = [] ↔ ls = [] := by
  constructor
  · intro h
    refine List.eq_nil_iff_forall_not_mem.2 fun lsh hlsh => ?_
    have := mem_groups_of_leash (show (⟨lsh.addr, lsh.blockID⟩ : Leash) ∈ ls from hlsh)
    rw [h] at this
    cases this
  · rintro rfl
    refine List.eq_nil_iff_forall_not_mem.2 fun e he => ?_
    obtain ⟨a, ha⟩ := exists_leash he
    cases ha

/-- The list is empty exactly when no leash passes the filter. -/
theorem sortedForks_eq_nil {gw : Gowaves} {rng : Go.MapRange BlockID (List Addr)}
    {srt : Go.UnstableSort Fork byScoreAndPeersDesc} {l : Linkage} {peers : LookupPeers} {ls : List Leash}
    (hls : l.st.leashes = .ok ls) :
    l.sortedForks gw rng srt peers = .ok [] ↔ ∀ lsh ∈ ls, peers.keeps lsh = false := by
  have hfilter : (∀ lsh ∈ ls, peers.keeps lsh = false) ↔ rng.entries (groups (ls.filter peers.keeps)) = [] := by
    have hp := (rng.perm (groups (ls.filter peers.keeps))).length_eq
    rw [← List.length_eq_zero_iff, hp, List.length_eq_zero_iff, groups_eq_nil, List.filter_eq_nil_iff]
    simp only [Bool.not_eq_true]
  unfold Linkage.sortedForks
  rw [hls, hfilter]
  constructor
  · intro h
    obtain ⟨ls', hls', h⟩ := Go.bind_eq_ok.1 h
    cases hls'
    obtain ⟨r, hr, h⟩ := Go.bind_eq_ok.1 h
    have hlen := (Go.mapM_eq_ok.1 hr).length_eq
    rw [← (srt.perm r).length_eq, Except.ok.inj h] at hlen
    exact List.length_eq_zero_iff.1 hlen
  · intro h
    have hsort : srt.sort [] = [] := List.length_eq_zero_iff.1 (srt.perm []).length_eq
    show ((rng.entries (groups (ls.filter peers.keeps))).mapM (l.forkOf gw) >>= fun r => .ok (srt.sort r)) = _
    rw [h, List.mapM_nil]
    show Except.ok (srt.sort []) = _
    rw [hsort]

theorem Reachable.sortedForks_eq_nil {gw : Gowaves} {scheme : Proto.Scheme} {genesis : Proto.Block} {l : Linkage}
    {t : BlockTree BlockID} (h : Reachable gw scheme genesis l t) (rng : Go.MapRange BlockID (List Addr))
    (srt : Go.UnstableSort Fork byScoreAndPeersDesc) (peers : LookupPeers) :
    l.sortedForks gw rng srt peers = .ok [] ↔ ¬ l.Keeps peers := by
  obtain ⟨ls, hls⟩ := h.mirrors.exists_leashes
  rw [Chains.sortedForks_eq_nil hls]
  constructor
  · rintro hnone ⟨ls', lsh, hls', hmem, hkeep⟩
    obtain rfl : ls = ls' := Except.ok.inj (hls.symm.trans hls')
    rw [hnone lsh hmem] at hkeep
    cases hkeep
  · exact fun hnone lsh hmem => Bool.eq_false_iff.2 fun hkeep => hnone ⟨ls, lsh, hls, hmem, hkeep⟩

/-- A filter lets no more leashes pass than no filter. -/
theorem Linkage.Keeps.all {l : Linkage} {peers : LookupPeers} (h : l.Keeps peers) : l.Keeps ∅ := by
  obtain ⟨ls, lsh, hls, hmem, -⟩ := h
  exact ⟨ls, lsh, hls, hmem, by simp [LookupPeers.keeps]⟩

/-! ## What panics on an index -/

section
variable {gw : Gowaves} {scheme : Proto.Scheme} {genesis : Proto.Block} {l : Linkage} {t : BlockTree BlockID}

theorem newBlockIDFromBytes_noPanic (b : Bytes) : Go.NoPanic (Proto.newBlockIDFromBytes b) := by
  unfold Proto.newBlockIDFromBytes
  split
  · exact .of_ok rfl
  · exact .fail _

/-- A block whose record can be read is handed out, or its timestamp is too large. -/
theorem Mirrors.block_avoids (M : Mirrors gw l t) {x : BlockID} (hx : t.Stored x) :
    Go.Avoids "index out of range" (l.block gw x) := by
  obtain ⟨b, hb, -⟩ := M.getBlock_of_stored hx
  unfold Linkage.block
  refine .bind (.of_ok hb) fun b _ => .bind (.wrap ((newBlockIDFromBytes_noPanic _).avoids _)) fun bID _ =>
    .bind ?_ fun pID _ => .bind (.wrap ?_) fun ga _ => .bind ?_ fun ts _ => .of_ok rfl
  · split
    · exact .wrap ((newBlockIDFromBytes_noPanic _).avoids _)
    · exact .of_ok rfl
  · cases gw.newAddressFromBytes b.generator with
    | ok a => exact .of_ok rfl
    | error e => exact (Go.NoPanic.fail e).avoids _
  · unfold safeTimestamp
    split
    · exact .of_ok rfl
    · exact fun h => absurd h (by decide)

theorem Mirrors.sortedForks_avoids (M : Mirrors gw l t) (rng : Go.MapRange BlockID (List Addr))
    (srt : Go.UnstableSort Fork byScoreAndPeersDesc) (peers : LookupPeers) :
    Go.Avoids "index out of range" (l.sortedForks gw rng srt peers) := by
  obtain ⟨ls, hls⟩ := M.exists_leashes
  unfold Linkage.sortedForks
  rw [hls]
  refine .bind (.of_ok rfl) fun ls' hls' => .bind (.mapM fun e he => ?_) fun r _ => .of_ok rfl
  cases hls'
  obtain ⟨a, ha⟩ := exists_leash ((rng.perm _).mem_iff.1 he)
  have hstored := (M.listed hls (List.mem_filter.1 ha).1).2
  unfold Linkage.forkOf
  exact .bind (.wrap (M.block_avoids hstored)) fun b _ => .of_ok rfl

/-- The heads of the sorted forks are leashed blocks that pass the filter. -/
theorem Mirrors.head_of_sorted (M : Mirrors gw l t) {rng : Go.MapRange BlockID (List Addr)}
    {srt : Go.UnstableSort Fork byScoreAndPeersDesc} {peers : LookupPeers} {ls : List Leash}
    (hls : l.st.leashes = .ok ls) {fs : List Fork} (h : l.sortedForks gw rng srt peers = .ok fs) {f : Fork}
    (hf : f ∈ fs) : f.headBlock ∈ (ls.filter peers.keeps).map Leash.blockID := by
  unfold Linkage.sortedForks at h
  rw [hls] at h
  obtain ⟨ls', hls', h⟩ := Go.bind_eq_ok.1 h
  cases hls'
  obtain ⟨r, hr, h⟩ := Go.bind_eq_ok.1 h
  cases h
  obtain ⟨e, he, hfe⟩ := (Go.mem_of_mapM hr f).1 ((srt.perm r).mem_iff.1 hf)
  obtain ⟨a, ha⟩ := exists_leash ((rng.perm _).mem_iff.1 he)
  obtain ⟨-, -, -, hhead, -⟩ := M.forkOf_eq_ok hfe
  exact List.mem_map.2 ⟨_, ha, hhead.symm⟩

/-- The loop that sets the last common blocks panics on an index only where an `lca` does. -/
theorem Mirrors.finishForks_avoids (M : Mirrors gw l t) {peers : LookupPeers} {ls : List Leash}
    (hls : l.st.leashes = .ok ls) (hlca : ¬ l.LcaPanics peers) {fs : List Fork} (hne : fs ≠ [])
    (hfs : ∀ f ∈ fs, f.headBlock ∈ (ls.filter peers.keeps).map Leash.blockID) :
    Go.Avoids "index out of range" (l.finishForks fs) := by
  have hstored : ∀ x ∈ (ls.filter peers.keeps).map Leash.blockID, t.Stored x := fun x hx => by
    obtain ⟨lsh, hlsh, rfl⟩ := List.mem_map.1 hx
    exact (M.listed hls (List.mem_filter.1 hlsh).1).2
  cases fs with
  | nil => exact absurd rfl hne
  | cons longest rest =>
    have hx := hfs longest List.mem_cons_self
    refine .mapM fun f hf => ?_
    have hy : f.headBlock ∈ (ls.filter peers.keeps).map Leash.blockID := by
      rcases List.mem_cons.1 hf with rfl | hf
      · exact hx
      · exact hfs f (List.mem_cons_of_mem _ hf)
    refine .bind (.wrap fun hp => hlca ⟨ls, _, _, hls, hx, hy, hp⟩) fun c hc => .bind (.wrap ?_) fun b _ => .of_ok rfl
    obtain ⟨b, hb, -⟩ := M.getBlock_of_stored (M.lca_stored (Go.wrap_eq_ok.1 hc) (hstored _ hx) (hstored _ hy))
    exact .of_ok hb

/-- **What `Forks` does with no leash that passes the filter**: it takes the first of no forks. -/
theorem Reachable.forks_panics (h : Reachable gw scheme genesis l t) (rng : Go.MapRange BlockID (List Addr))
    (srt : Go.UnstableSort Fork byScoreAndPeersDesc) {peers : LookupPeers} (hk : ¬ l.Keeps peers) :
    l.forks gw rng srt peers = Go.panic "index out of range" := by
  rw [Linkage.forks_eq_sorted, (h.sortedForks_eq_nil rng srt peers).2 hk]
  rfl

/-- With one it takes the first of some, and only an `lca` can go out of range. -/
theorem Reachable.forks_avoids (h : Reachable gw scheme genesis l t) (rng : Go.MapRange BlockID (List Addr))
    (srt : Go.UnstableSort Fork byScoreAndPeersDesc) {peers : LookupPeers} (hk : l.Keeps peers)
    (hlca : ¬ l.LcaPanics peers) : Go.Avoids "index out of range" (l.forks gw rng srt peers) := by
  obtain ⟨ls, hls⟩ := h.mirrors.exists_leashes
  rw [Linkage.forks_eq_sorted]
  refine .bind (h.mirrors.sortedForks_avoids rng srt peers) fun fs hfs => ?_
  have hne : fs ≠ [] := fun hnil => (h.sortedForks_eq_nil rng srt peers).1 (hnil ▸ hfs) hk
  exact h.mirrors.finishForks_avoids hls hlca hne fun f hf => h.mirrors.head_of_sorted hls hfs hf

/-- **When `Forks` and `Stats` never index an empty list**: some leash passes the filter. -/
theorem never_indexes_empty_iff (h : Reachable gw scheme genesis l t) (rng : Go.MapRange BlockID (List Addr))
    (srt : Go.UnstableSort Fork byScoreAndPeersDesc) (peers : LookupPeers) :
    NeverIndexesEmpty gw rng srt l peers ↔ l.Keeps peers := by
  constructor
  · intro hn
    by_contra hnone
    have hok := hn.no_forks hnone
    rw [h.forks_panics rng srt hnone] at hok
    cases hok
  · intro hk
    refine ⟨fun hp => ?_, fun hp => ?_, fun hnone => absurd hk hnone, fun hnone => absurd hk.all hnone⟩
    · by_contra hlca
      exact h.forks_avoids rng srt hk hlca hp
    · by_contra hlca
      have hstats : Go.Avoids "index out of range" (l.stats gw rng srt) :=
        .bind (.wrap (h.forks_avoids rng srt hk.all hlca)) fun fs _ => .of_ok rfl
      exact hstats hp

end

/-- Two leashes, of which one is of a peer that is looked up. -/
theorem never_indexes_empty_iff_sample : ∃ l, Sample.after [Sample.key 2 1, Sample.key 3 2] = .ok l ∧
    NeverIndexesEmpty Sample.gowaves (.listed _ _) Sample.stable l {Sample.peer 3} := by
  obtain ⟨l, h⟩ := Go.exists_of_isOk (x := Sample.after [Sample.key 2 1, Sample.key 3 2]) (by decide +kernel)
  have hls : (Sample.after [Sample.key 2 1, Sample.key 3 2] >>= fun l => l.st.leashes) =
      .ok (Sample.leashesOf [2, 3]) := by decide +kernel
  rw [h] at hls
  exact ⟨l, h, (never_indexes_empty_iff (Sample.reachable h) (.listed _ _) Sample.stable {Sample.peer 3}).2
    ⟨_, ⟨Sample.peer 3, Sample.id 3⟩, hls, List.mem_cons_of_mem _ List.mem_cons_self, by decide⟩⟩

/-- **A fresh database, and a peer with no leash**: the first of no forks is taken. -/
theorem indexes_empty : (∃ l, Reachable Sample.gowaves 87 (Sample.block 1 0) l (Sample.tree []) ∧
      l.forks Sample.gowaves (.listed _ _) Sample.stable ∅ = Go.panic "index out of range" ∧
      l.stats Sample.gowaves (.listed _ _) Sample.stable = Go.panic "index out of range" ∧
      ¬ NeverIndexesEmpty Sample.gowaves (.listed _ _) Sample.stable l ∅) ∧
    ∃ l, Reachable Sample.gowaves 87 (Sample.block 1 0) l (Sample.tree [Sample.key 2 1]) ∧
      l.forks Sample.gowaves (.listed _ _) Sample.stable {Sample.peer 9} = Go.panic "index out of range" ∧
      ¬ NeverIndexesEmpty Sample.gowaves (.listed _ _) Sample.stable l {Sample.peer 9} := by
  have hempty : ∀ {l : Linkage} {peers : LookupPeers} {ls : List Leash}, l.st.leashes = .ok ls →
      ls.filter peers.keeps = [] →
      l.forks Sample.gowaves (.listed _ _) Sample.stable peers = Go.panic "index out of range" →
      ¬ NeverIndexesEmpty Sample.gowaves (.listed _ _) Sample.stable l peers := fun hls hnone hp hn => by
    obtain ⟨ls', x, y, hls', hx, -⟩ := hn.forks hp
    rw [← Except.ok.inj (hls.symm.trans hls'), hnone] at hx
    cases hx
  constructor
  · obtain ⟨l, h⟩ := Go.exists_of_isOk (x := Sample.after []) (by decide +kernel)
    have hreads : (Sample.after []).map (fun l => (l.forks Sample.gowaves (.listed _ _) Sample.stable ∅,
        l.stats Sample.gowaves (.listed _ _) Sample.stable, l.st.leashes)) =
        .ok (Go.panic "index out of range", Go.panic "index out of range", .ok []) := by decide +kernel
    rw [h] at hreads
    obtain ⟨hforks, hrest⟩ := Prod.mk.inj (Except.ok.inj hreads)
    obtain ⟨hstats, hls⟩ := Prod.mk.inj hrest
    exact ⟨l, Sample.reachable h, hforks, hstats, hempty hls rfl hforks⟩
  · obtain ⟨l, h⟩ := Go.exists_of_isOk (x := Sample.after [Sample.key 2 1]) (by decide +kernel)
    have hreads : (Sample.after [Sample.key 2 1]).map (fun l =>
        (l.forks Sample.gowaves (.listed _ _) Sample.stable {Sample.peer 9}, l.st.leashes)) =
        .ok (Go.panic "index out of range", .ok (Sample.leashesOf [2])) := by decide +kernel
    rw [h] at hreads
    obtain ⟨hforks, hls⟩ := Prod.mk.inj (Except.ok.inj hreads)
    exact ⟨l, Sample.reachable h, hforks, hempty hls (by decide) hforks⟩

/-! ## The two numbers -/

/-- **The numbers of alternative chains**: the forks other than the longest, told apart at five blocks, so that the two
numbers add up to the leashed blocks but one. -/
structure CountsAlternatives (ls : List Leash) (fs : List Fork) (st : Stats) : Prop where
  long : st.long = fs.countP fun f => !f.longest && decide (5 ≤ f.length)
  short : st.short = fs.countP fun f => !f.longest && decide (f.length < 5)
  total : st.short + st.long = (ls.map Leash.blockID).dedup.length - 1

/-- What the loop of `Stats` counts. -/
theorem foldl_add : ∀ (fs : List Fork) (r : Stats), fs.foldl Stats.add r =
    ⟨r.short + fs.countP (fun f => decide (f.length ≤ 5)), r.long + fs.countP (fun f => decide (5 < f.length))⟩
  | [], r => rfl
  | f :: fs, r => by
    rw [List.foldl_cons, foldl_add fs (r.add f), List.countP_cons, List.countP_cons]
    unfold Stats.add longForkThreshold
    by_cases h : 5 < f.length
    · have h' : ¬ f.length ≤ 5 := by omega
      simp only [h, h', if_true, decide_true, decide_false, Bool.false_eq_true, if_false, Nat.add_zero]
      rw [Nat.add_assoc, Nat.add_comm 1]
    · have h' : f.length ≤ 5 := by omega
      simp only [gt_iff_lt, h, h', if_true, decide_true, decide_false, Bool.false_eq_true, if_false, Nat.add_zero]
      rw [Nat.add_assoc, Nat.add_comm 1]

/-- Every fork is counted once. -/
theorem sum_foldl_add (fs : List Fork) :
    (fs.foldl Stats.add ⟨0, 0⟩).short + (fs.foldl Stats.add ⟨0, 0⟩).long = fs.length := by
  rw [foldl_add, Nat.zero_add, Nat.zero_add, List.length_eq_countP_add_countP fun f => decide (f.length ≤ 5)]
  congr 1
  refine List.countP_congr fun f _ => ?_
  simp

/-- `Forks` has an entry for each leashed block. -/
theorem length_forks {gw : Gowaves} {rng : Go.MapRange BlockID (List Addr)}
    {srt : Go.UnstableSort Fork byScoreAndPeersDesc} {l : Linkage} {ls : List Leash} (hls : l.st.leashes = .ok ls)
    {fs : List Fork} (h : l.forks gw rng srt ∅ = .ok fs) : fs.length = (ls.map Leash.blockID).dedup.length := by
  obtain ⟨r, longest, rest, hr, hsort, hfs⟩ := (Linkage.forks_steps hls).1 h
  have hkeep : ls.filter (LookupPeers.keeps ∅) = ls := List.filter_eq_self.2 fun lsh _ => by simp [LookupPeers.keeps]
  have hgroups : ((groups ls).map Prod.fst).Perm (ls.map Leash.blockID).dedup := by
    refine (List.perm_ext_iff_of_nodup (nodup_groups ls) (List.nodup_dedup _)).2 fun k => ?_
    rw [List.mem_dedup, List.mem_map, List.mem_map]
    constructor
    · rintro ⟨e, he, rfl⟩
      obtain ⟨a, ha⟩ := exists_leash he
      exact ⟨_, ha, rfl⟩
    · rintro ⟨lsh, hlsh, rfl⟩
      exact ⟨_, mem_groups_of_leash (a := lsh.addr) hlsh, rfl⟩
  rw [hkeep] at hr
  have hlen := congrArg List.length hsort
  rw [(srt.perm r).length_eq] at hlen
  rw [← (Go.mapM_eq_ok.1 hfs).length_eq, ← hgroups.length_eq, List.length_map, ← (rng.perm (groups ls)).length_eq,
    (Go.mapM_eq_ok.1 hr).length_eq, hlen]
  rfl

/-- **`Stats` never counts the alternative chains alone**: it counts the longest chain too, so that its numbers add up
to all the leashed blocks, in whatever order the forks are listed. -/
theorem stats_miscount {gw : Gowaves} {rng : Go.MapRange BlockID (List Addr)}
    {srt : Go.UnstableSort Fork byScoreAndPeersDesc} {l : Linkage} (hk : l.Keeps ∅) {st : Stats}
    (hst : l.stats gw rng srt = .ok st) : ¬ ∃ rng' srt' ls fs, l.st.leashes = .ok ls ∧
      l.forks gw rng' srt' ∅ = .ok fs ∧ CountsAlternatives ls fs st := by
  rintro ⟨rng', srt', ls, fs, hls, -, hc⟩
  obtain ⟨fs', hfs', rfl⟩ := Linkage.stats_eq_ok.1 hst
  obtain ⟨ls', lsh, hls', hmem, -⟩ := hk
  obtain rfl : ls = ls' := Except.ok.inj (hls.symm.trans hls')
  have htotal := hc.total
  rw [sum_foldl_add, length_forks hls hfs'] at htotal
  have hpos : lsh.blockID ∈ (ls.map Leash.blockID).dedup := List.mem_dedup.2 (List.mem_map_of_mem hmem)
  have := List.length_pos_of_mem hpos
  omega

namespace Sample

/-- A chain of six blocks on the second block and one of five, each with a peer at its end. -/
def twoChains : List Call :=
  [.putBlock (block 2 1) (peer 1), .putBlock (block 3 2) (peer 1), .putBlock (block 4 3) (peer 1),
    .putBlock (block 5 4) (peer 1), .putBlock (block 6 5) (peer 1), .putBlock (block 7 6) (peer 1),
    .putBlock (block 8 7) (peer 1), .putBlock (block 12 2) (peer 2), .putBlock (block 13 12) (peer 2),
    .putBlock (block 14 13) (peer 2), .putBlock (block 15 14) (peer 2), .putBlock (block 16 15) (peer 2)]

theorem keeps_all {calls : List Call} {l : Linkage} {lsh : Leash} {ls : List Leash} (h : after calls = .ok l)
    (hls : (after calls >>= fun l => l.st.leashes) = .ok (lsh :: ls)) : l.Keeps ∅ := by
  rw [h] at hls
  exact ⟨_, lsh, hls, List.mem_cons_self, by simp [LookupPeers.keeps]⟩

end Sample

theorem stats_miscount_sample : ∃ l st, Sample.after [Sample.key 2 1] = .ok l ∧
    l.stats Sample.gowaves (.listed _ _) Sample.stable = .ok st ∧
    ¬ ∃ rng' srt' ls fs, l.st.leashes = .ok ls ∧ l.forks Sample.gowaves rng' srt' ∅ = .ok fs ∧
      CountsAlternatives ls fs st := by
  obtain ⟨l, h⟩ := Go.exists_of_isOk (x := Sample.after [Sample.key 2 1]) (by decide +kernel)
  obtain ⟨st, hst⟩ := Go.exists_of_isOk (x := Sample.after [Sample.key 2 1] >>= fun l =>
    l.stats Sample.gowaves (.listed _ _) Sample.stable) (by decide +kernel)
  have hls : (Sample.after [Sample.key 2 1] >>= fun l => l.st.leashes) = .ok (Sample.leashesOf [2]) := by
    decide +kernel
  have hk := Sample.keeps_all h hls
  rw [h] at hst
  exact ⟨l, st, h, hst, stats_miscount hk hst⟩

/-- **A fork of five blocks beside the longest chain**: one long fork and no short one, and `Stats` says two short ones
and no long one. -/
theorem five_blocks_short : ∃ l ls fs,
    Reachable Sample.gowaves 87 (Sample.block 1 0) l (Sample.tree Sample.twoChains) ∧ l.st.leashes = .ok ls ∧
    ls ≠ [] ∧ l.forks Sample.gowaves (.listed _ _) Sample.stable ∅ = .ok fs ∧
    fs.map (fun f => (f.longest, f.length)) = [(true, 0), (false, 5)] ∧
    l.stats Sample.gowaves (.listed _ _) Sample.stable = .ok ⟨2, 0⟩ ∧ ¬ CountsAlternatives ls fs ⟨2, 0⟩ := by
  obtain ⟨l, h⟩ := Go.exists_of_isOk (x := Sample.after Sample.twoChains) (by decide +kernel)
  have hls : (Sample.after Sample.twoChains >>= fun l => l.st.leashes) =
      .ok [⟨Sample.peer 1, Sample.id 8⟩, ⟨Sample.peer 2, Sample.id 16⟩] := by decide +kernel
  have hst : (Sample.after Sample.twoChains >>= fun l => l.stats Sample.gowaves (.listed _ _) Sample.stable) =
      .ok ⟨2, 0⟩ := by decide +kernel
  have hfs : (Sample.after Sample.twoChains >>= fun l => l.forks Sample.gowaves (.listed _ _) Sample.stable ∅).map
      (fun fs => fs.map fun f => (f.longest, f.length)) = .ok [(true, 0), (false, 5)] := by decide +kernel
  rw [h] at hls hst hfs
  obtain ⟨fs, hforks, -⟩ := Linkage.stats_eq_ok.1 hst
  have hshape : (Except.ok fs : Res (List Fork)).map (fun fs => fs.map fun f => (f.longest, f.length)) =
      .ok [(true, 0), (false, 5)] := by
    rw [← hforks]
    exact hfs
  refine ⟨l, _, fs, Sample.reachable h, hls, by simp, hforks, Except.ok.inj hshape, hst, fun hc => ?_⟩
  have htotal := hc.total
  revert htotal
  decide

end Chains
end ForkDetector
