import ForkDetector.Chains.Leashes
/-!
# Forks — three ways to compare a peer with the longest chain

`LCB`, `Fork` and `Forks` each compare leashed blocks with the block they choose.  `entry` is the comparison that
`Fork` and `Forks` share.  `Forks` chooses among the leashes it was asked for, so that a filter can leave out the
longest chain (`restricted_iff`); and where several blocks rank highest the calls may choose different ones
(`calls_agree_iff`).
-/
namespace ForkDetector
namespace Chains

open Ancestry Lifting
open Proto (BlockID Gowaves)

/-- **The entry of a group against the block chosen.** -/
def Linkage.entry (gw : Gowaves) (l : Linkage) (top : BlockID) (e : BlockID × List Addr) : Res Fork := do
  let f ← l.forkOf gw e
  l.setLastCommonBlock top { f with longest := decide (f.headBlock = top) }

theorem Linkage.entry_eq_ok {gw : Gowaves} {l : Linkage} {top : BlockID} {e : BlockID × List Addr} {f : Fork} :
    l.entry gw top e = .ok f ↔ ∃ b c cb, l.block gw e.1 = .ok b ∧ l.st.lca top b.id = .ok c ∧ l.st.block c = .ok cb ∧
      f = { newFork b e.2 with
        longest := decide (b.id = top), lastCommonBlock := c, length := b.height - cb.height } := by
  unfold Linkage.entry Linkage.forkOf Linkage.setLastCommonBlock
  constructor
  · intro h
    obtain ⟨f0, hf0, h⟩ := Go.bind_eq_ok.1 h
    obtain ⟨b, hb, hf0⟩ := Go.bind_eq_ok.1 hf0
    cases hf0
    obtain ⟨c, hc, h⟩ := Go.bind_eq_ok.1 h
    obtain ⟨cb, hcb, h⟩ := Go.bind_eq_ok.1 h
    cases h
    exact ⟨b, c, cb, Go.wrap_eq_ok.1 hb, Go.wrap_eq_ok.1 hc, Go.wrap_eq_ok.1 hcb, rfl⟩
  · rintro ⟨b, c, cb, hb, hc, hcb, rfl⟩
    refine Go.bind_eq_ok.2 ⟨newFork b e.2, Go.bind_eq_ok.2 ⟨b, Go.wrap_eq_ok.2 hb, rfl⟩, ?_⟩
    exact Go.bind_eq_ok.2 ⟨c, Go.wrap_eq_ok.2 hc, Go.bind_eq_ok.2 ⟨cb, Go.wrap_eq_ok.2 hcb, rfl⟩⟩

theorem Linkage.forks_steps {gw : Gowaves} {l : Linkage} {rng : Go.MapRange BlockID (List Addr)}
    {srt : Go.UnstableSort Fork byScoreAndPeersDesc} {P : LookupPeers} {ls : List Leash} (hls : l.st.leashes = .ok ls)
    {fs : List Fork} :
    l.forks gw rng srt P = .ok fs ↔ ∃ r longest rest,
      (rng.entries (groups (ls.filter P.keeps))).mapM (l.forkOf gw) = .ok r ∧ srt.sort r = longest :: rest ∧
      ({ longest with longest := true } :: rest).mapM (l.setLastCommonBlock longest.headBlock) = .ok fs := by
  unfold Linkage.forks
  constructor
  · intro h
    obtain ⟨ls', hls', h⟩ := Go.bind_eq_ok.1 h
    rw [hls] at hls'
    cases hls'
    obtain ⟨r, hr, h⟩ := Go.bind_eq_ok.1 h
    split at h
    · cases h
    · rename_i longest rest hsort
      exact ⟨r, longest, rest, hr, hsort, h⟩
  · rintro ⟨r, longest, rest, hr, hsort, h⟩
    rw [hls]
    refine Go.bind_eq_ok.2 ⟨ls, rfl, Go.bind_eq_ok.2 ⟨r, hr, ?_⟩⟩
    rw [hsort]
    exact h

/-- **What `Forks` returns against a block**: the entries of the groups, each once. -/
structure ForksFrom (gw : Gowaves) (l : Linkage) (ls : List Leash) (top : BlockID) (fs : List Fork) : Prop where
  nodup : (fs.map Fork.headBlock).Nodup
  mem : ∀ f, f ∈ fs ↔ ∃ e ∈ groups ls, l.entry gw top e = .ok f
  entries : ∀ e ∈ groups ls, ∃ f, l.entry gw top e = .ok f

namespace Mirrors
variable {gw : Gowaves} {l : Linkage} {t : BlockTree BlockID} (M : Mirrors gw l t)
include M

theorem forkOf_eq_ok {e : BlockID × List Addr} {f : Fork} (h : l.forkOf gw e = .ok f) :
    ∃ b, l.block gw e.1 = .ok b ∧ f = newFork b e.2 ∧ f.headBlock = e.1 ∧ f.rank = l.rank e ∧ f.longest = false := by
  unfold Linkage.forkOf at h
  obtain ⟨b, hb, h⟩ := Go.bind_eq_ok.1 h
  cases h
  rw [Go.wrap_eq_ok] at hb
  obtain ⟨-, hid, -, hs⟩ := M.block_eq_ok hb
  refine ⟨b, hb, rfl, hid, ?_, rfl⟩
  unfold Fork.rank Linkage.rank newFork
  rw [hs]

theorem lca_self {k : BlockID} (h : t.Stored k) : l.st.lca k k = .ok k := by
  have hc : DeepestCommon t.parent k k k := ⟨.refl k, .refl k, fun d hd _ => hd⟩
  exact (M.refines.lca_spec h h hc).1 (inRange_of_le (by omega))

/-- What `lca` returns is the deepest common ancestor. -/
theorem lca_deepest {x y c : BlockID} (h : l.st.lca x y = .ok c) (hx : t.Stored x) (hy : t.Stored y) :
    DeepestCommon t.parent x y c := by
  obtain ⟨d, hd⟩ := t.isRooted.exists_deepestCommon hy _ x hx rfl
  obtain ⟨h1, h2⟩ := M.refines.lca_spec hx hy hd
  by_cases hr : InRange (t.height d) (min (t.height x) (t.height y) - t.height d)
  · rw [h1 hr] at h
    cases h
    exact hd
  · rw [h2 hr] at h
    cases h

theorem lca_stored {x y c : BlockID} (h : l.st.lca x y = .ok c) (hx : t.Stored x) (hy : t.Stored y) : t.Stored c :=
  t.isRooted.anc_node hx (M.lca_deepest h hx hy).left

theorem marked {es : List (BlockID × List Addr)} {ls : List Leash} {r rest : List Fork} {longest : Fork}
    {srt : Go.UnstableSort Fork byScoreAndPeersDesc} (hp : es.Perm (groups ls)) (hr : es.mapM (l.forkOf gw) = .ok r)
    (hsort : srt.sort r = longest :: rest) :
    ((longest :: rest).map Fork.headBlock).Nodup ∧
    { longest with longest := true } :: rest = (longest :: rest).map fun f =>
      { f with longest := decide (f.headBlock = longest.headBlock) } := by
  have hmap : r.map Fork.headBlock = es.map Prod.fst :=
    Go.map_of_mapM hr fun e f hf => (M.forkOf_eq_ok hf).elim fun _ h => h.2.2.1
  have hsp := srt.perm r
  rw [hsort] at hsp
  have hnd : ((longest :: rest).map Fork.headBlock).Nodup := by
    rw [(hsp.map Fork.headBlock).nodup_iff, hmap, (hp.map Prod.fst).nodup_iff]
    exact nodup_groups ls
  refine ⟨hnd, ?_⟩
  rw [List.map_cons, decide_eq_true rfl]
  congr 1
  rw [List.map_congr_left (g := fun f => f), List.map_id']
  intro f hf
  have hne : f.headBlock ≠ longest.headBlock := fun h => by
    rw [List.map_cons, List.nodup_cons] at hnd
    exact hnd.1 (h ▸ List.mem_map_of_mem hf)
  obtain ⟨e, -, he⟩ := (Go.mem_of_mapM hr f).1 (hsp.mem_iff.1 (List.mem_cons_of_mem _ hf))
  obtain ⟨b, -, -, -, -, hlongest⟩ := M.forkOf_eq_ok he
  rw [decide_eq_false hne, ← hlongest]

/-- The entries that the loops of `forks` build, against the head of the first fork in the sort. -/
theorem forksFrom {rng : Go.MapRange BlockID (List Addr)} {srt : Go.UnstableSort Fork byScoreAndPeersDesc}
    {ls : List Leash} {r rest fs : List Fork} {longest : Fork}
    (hr : (rng.entries (groups ls)).mapM (l.forkOf gw) = .ok r) (hsort : srt.sort r = longest :: rest)
    (h : ({ longest with longest := true } :: rest).mapM (l.setLastCommonBlock longest.headBlock) = .ok fs) :
    Top l ls longest.headBlock ∧ ForksFrom gw l ls longest.headBlock fs := by
  have hp := rng.perm (groups ls)
  have hsp := srt.perm r
  obtain ⟨hnd, hmark⟩ := M.marked hp hr hsort
  rw [hmark] at h
  rw [hsort] at hsp
  have hmemr : ∀ f, f ∈ longest :: rest ↔ ∃ e ∈ groups ls, l.forkOf gw e = .ok f := fun f => by
    rw [hsp.mem_iff, Go.mem_of_mapM hr]
    simp only [hp.mem_iff]
  obtain ⟨e0, he0, hf0⟩ := (hmemr longest).1 List.mem_cons_self
  obtain ⟨b0, -, -, hhead0, hrank0, -⟩ := M.forkOf_eq_ok hf0
  have hv0 := (mem_groups.1 (show (e0.1, e0.2) ∈ groups ls from he0)).1
  refine ⟨⟨by rw [hhead0, ← hv0]; exact he0, fun e he => ?_⟩, ?_, fun f => ?_, fun e he => ?_⟩
  · obtain ⟨f, hf⟩ := Go.exists_of_mapM hr (hp.mem_iff.2 he)
    obtain ⟨b, -, -, -, hrank, -⟩ := M.forkOf_eq_ok hf
    have hle := (Select.isTop_of_sort descending_byScoreAndPeersDesc hsort).le f
      (hsp.mem_iff.1 ((hmemr f).2 ⟨e, he, hf⟩))
    rw [hrank, hrank0] at hle
    rw [hhead0, ← hv0]
    exact hle
  · have hhead : ∀ f g, l.setLastCommonBlock longest.headBlock f = .ok g → g.headBlock = f.headBlock := by
      intro f g hg
      obtain ⟨c, -, hg⟩ := Go.bind_eq_ok.1 hg
      obtain ⟨cb, -, hg⟩ := Go.bind_eq_ok.1 hg
      cases hg
      rfl
    rw [Go.map_of_mapM h hhead, List.map_map]
    exact hnd
  · rw [Go.mem_of_mapM h]
    simp only [List.mem_map, exists_exists_and_eq_and, hmemr]
    constructor
    · rintro ⟨g, ⟨e, he, hg⟩, hf⟩
      exact ⟨e, he, Go.bind_eq_ok.2 ⟨g, hg, hf⟩⟩
    · rintro ⟨e, he, hf⟩
      obtain ⟨g, hg, hf⟩ := Go.bind_eq_ok.1 hf
      exact ⟨g, ⟨e, he, hg⟩, hf⟩
  · obtain ⟨g, hg⟩ := Go.exists_of_mapM hr (hp.mem_iff.2 he)
    obtain ⟨f, hf⟩ := Go.exists_of_mapM h (List.mem_map_of_mem ((hmemr g).2 ⟨e, he, hg⟩))
    exact ⟨f, Go.bind_eq_ok.2 ⟨g, hg, hf⟩⟩

/-- **`Forks` compares the groups it makes with one of them that ranks highest.** -/
theorem forks_eq_ok {rng : Go.MapRange BlockID (List Addr)} {srt : Go.UnstableSort Fork byScoreAndPeersDesc}
    {P : LookupPeers} {ls : List Leash} (hls : l.st.leashes = .ok ls) {fs : List Fork}
    (h : l.forks gw rng srt P = .ok fs) :
    ∃ top, Top l (ls.filter P.keeps) top ∧ ForksFrom gw l (ls.filter P.keeps) top fs := by
  obtain ⟨r, longest, rest, hr, hsort, h⟩ := (Linkage.forks_steps hls).1 h
  exact ⟨longest.headBlock, M.forksFrom hr hsort h⟩

/-- **Each group that ranks highest is compared with in some sort**, when all comparisons with it return. -/
theorem exists_forks (rng : Go.MapRange BlockID (List Addr)) {P : LookupPeers} {ls : List Leash}
    (hls : l.st.leashes = .ok ls) {k : BlockID} (hk : Top l (ls.filter P.keeps) k)
    (hentry : ∀ e ∈ groups (ls.filter P.keeps), ∃ f, l.entry gw k e = .ok f) :
    ∃ srt fs, l.forks gw rng srt P = .ok fs ∧ ForksFrom gw l (ls.filter P.keeps) k fs := by
  have hp := rng.perm (groups (ls.filter P.keeps))
  obtain ⟨r, hr⟩ : ∃ r, (rng.entries (groups (ls.filter P.keeps))).mapM (l.forkOf gw) = .ok r :=
    Go.exists_mapM_of_forall fun e he => by
      obtain ⟨f, hf⟩ := hentry e (hp.mem_iff.1 he)
      obtain ⟨g, hg, -⟩ := Go.bind_eq_ok.1 hf
      exact ⟨g, hg⟩
  have hmemr : ∀ f, f ∈ r ↔ ∃ e ∈ groups (ls.filter P.keeps), l.forkOf gw e = .ok f := fun f => by
    rw [Go.mem_of_mapM hr]
    simp only [hp.mem_iff]
  obtain ⟨fk, hfk⟩ := Go.exists_of_mapM hr (hp.mem_iff.2 hk.mem)
  obtain ⟨b, -, -, hhead, hrank, -⟩ := M.forkOf_eq_ok hfk
  have htop : Select.IsTop Fork.rank r fk := by
    refine ⟨(hmemr fk).2 ⟨_, hk.mem, hfk⟩, fun f hf => ?_⟩
    obtain ⟨e, he, hfe⟩ := (hmemr f).1 hf
    obtain ⟨b', -, -, -, hrank', -⟩ := M.forkOf_eq_ok hfe
    rw [hrank, hrank']
    exact hk.le e he
  obtain ⟨y, rest, hsort, -, hy⟩ := Select.favour_sort descending_byScoreAndPeersDesc
    (fun f => decide (f.headBlock = k)) htop (decide_eq_true hhead)
  have hyk : y.headBlock = k := of_decide_eq_true hy
  obtain ⟨-, hmark⟩ := M.marked hp hr hsort
  obtain ⟨fs, hfs⟩ : ∃ fs, ({ y with longest := true } :: rest).mapM (l.setLastCommonBlock y.headBlock) = .ok fs := by
    rw [hmark]
    refine Go.exists_mapM_of_forall fun g hg => ?_
    obtain ⟨f, hf, rfl⟩ := List.mem_map.1 hg
    have hfr : f ∈ r := by
      have := (Select.favour descending_byScoreAndPeersDesc fun f => decide (f.headBlock = k)).perm r
      rw [hsort] at this
      exact this.mem_iff.1 hf
    obtain ⟨e, he, hfe⟩ := (hmemr f).1 hfr
    obtain ⟨f', hf'⟩ := hentry e he
    obtain ⟨g, hg, hf'⟩ := Go.bind_eq_ok.1 hf'
    obtain rfl : g = f := Except.ok.inj (hg.symm.trans hfe)
    exact ⟨f', by rw [hyk]; exact hf'⟩
  exact ⟨_, fs, (Linkage.forks_steps hls).2 ⟨r, y, rest, hr, hsort, hfs⟩, hyk ▸ (M.forksFrom hr hsort hfs).2⟩

theorem candidate_next {e : BlockID × List Addr} {b : Block} (h : l.block gw e.1 = .ok b) (a : Longest) :
    a.next b.score e.2.length e.1 = Select.better Longest.rank a (l.candidate e) := by
  rw [Longest.next_eq, (M.block_eq_ok h).2.2.2]
  rfl

theorem foldlM_lcbStep : ∀ {es : List (BlockID × List Addr)} {a a' : Longest}, es.foldlM (l.lcbStep gw) a = .ok a' →
    a' = (es.map l.candidate).foldl (Select.better Longest.rank) a
  | [], _, _, h => by cases h; rfl
  | e :: es, a, a', h => by
    rw [List.foldlM_cons] at h
    obtain ⟨a1, h1, h⟩ := Go.bind_eq_ok.1 h
    obtain ⟨b, hb, h1⟩ := Go.bind_eq_ok.1 h1
    cases h1
    rw [Go.wrap_eq_ok] at hb
    rw [foldlM_lcbStep h, candidate_next M hb]
    rfl

/-- The loop of `Fork` chooses as `LCB` does, and finds the fork of the one group with the peer. -/
theorem foldlM_forkStep {p : Addr} {g : BlockID × List Addr} {b : Block} (hb : l.block gw g.1 = .ok b) :
    ∀ {es : List (BlockID × List Addr)} {acc acc' : Longest × Fork}, es.foldlM (l.forkStep gw p) acc = .ok acc' →
      (∀ e ∈ es, p ∈ e.2 → e = g) → (g ∈ es ∧ p ∈ g.2) ∨ acc.2 = newFork b g.2 →
      acc'.2 = newFork b g.2 ∧ acc'.1 = (es.map l.candidate).foldl (Select.better Longest.rank) acc.1
  | [], acc, acc', h, _, hg => by
    cases h
    exact ⟨hg.resolve_left fun h => absurd h.1 List.not_mem_nil, rfl⟩
  | e :: es, acc, acc', h, honly, hg => by
    rw [List.foldlM_cons] at h
    obtain ⟨acc1, h1, h⟩ := Go.bind_eq_ok.1 h
    obtain ⟨b1, hb1, h1⟩ := Go.bind_eq_ok.1 h1
    cases h1
    rw [Go.wrap_eq_ok] at hb1
    have hg' : (g ∈ es ∧ p ∈ g.2) ∨ (if p ∈ e.2 then newFork b1 e.2 else acc.2) = newFork b g.2 := by
      by_cases hp : p ∈ e.2
      · obtain rfl := honly e List.mem_cons_self hp
        obtain rfl : b1 = b := Except.ok.inj (hb1.symm.trans hb)
        exact .inr (if_pos hp)
      · rw [if_neg hp]
        rcases hg with ⟨hmem, hpg⟩ | hacc
        · rcases List.mem_cons.1 hmem with rfl | hmem
          · exact absurd hpg hp
          · exact .inl ⟨hmem, hpg⟩
        · exact .inr hacc
    obtain ⟨hfork, hacc⟩ := foldlM_forkStep hb h (fun e' he' => honly e' (List.mem_cons_of_mem _ he')) hg'
    exact ⟨hfork, by rw [hacc, candidate_next M hb1]; rfl⟩

/-- **`LCB` of a leashed peer** is the common ancestor with the block it chooses. -/
theorem lcb_eq_ok {rng : Go.MapRange BlockID (List Addr)} {ls : List Leash} (hls : l.st.leashes = .ok ls) {p : Addr}
    {k c : BlockID} (hk : (⟨p, k⟩ : Leash) ∈ ls) :
    l.lcb gw rng p = .ok c ↔ Readable gw l ls ∧ l.st.lca (l.chosen rng ls) k = .ok c := by
  have hp := rng.perm (groups ls)
  obtain ⟨hleash, hstored⟩ := M.listed hls hk
  unfold Linkage.lcb
  rw [hleash]
  have hlast : (if k = l.chosen rng ls then (.ok k : Res BlockID)
      else Go.wrap "failed to get last common block of '%s'" (l.st.lca (l.chosen rng ls) k)) = .ok c ↔
      l.st.lca (l.chosen rng ls) k = .ok c := by
    by_cases he : k = l.chosen rng ls
    · rw [if_pos he, ← he, M.lca_self hstored]
    · rw [if_neg he, Go.wrap_eq_ok]
  constructor
  · intro h
    obtain ⟨ls', hls', h⟩ := Go.bind_eq_ok.1 h
    rw [hls] at hls'
    cases hls'
    obtain ⟨acc, hacc, h⟩ := Go.bind_eq_ok.1 h
    refine ⟨fun e he => ?_, hlast.1 (by rw [M.foldlM_lcbStep hacc] at h; exact h)⟩
    obtain ⟨a, a', ha⟩ := Go.exists_of_foldlM hacc e (hp.mem_iff.2 he)
    obtain ⟨b, hb, -⟩ := Go.bind_eq_ok.1 ha
    exact ⟨b, Go.wrap_eq_ok.1 hb⟩
  · rintro ⟨hread, hc⟩
    obtain ⟨acc, hacc⟩ : ∃ acc, (rng.entries (groups ls)).foldlM (l.lcbStep gw) ⟨0, 0, .zero⟩ = .ok acc :=
      Go.exists_foldlM_of_forall _ fun e he a => by
        obtain ⟨b, hb⟩ := hread e (hp.mem_iff.1 he)
        exact ⟨_, Go.bind_eq_ok.2 ⟨b, Go.wrap_eq_ok.2 hb, rfl⟩⟩
    refine Go.bind_eq_ok.2 ⟨ls, by rw [hls]; rfl, Go.bind_eq_ok.2 ⟨acc, hacc, ?_⟩⟩
    rw [M.foldlM_lcbStep hacc]
    exact hlast.2 hc

theorem finishFork_eq_ok {top k : BlockID} {v : List Addr} {b : Block} (hb : l.block gw k = .ok b) {f : Fork} :
    l.finishFork top (newFork b v) = .ok f ↔ l.entry gw top (k, v) = .ok f := by
  obtain ⟨hstored, hid, hh, -⟩ := M.block_eq_ok hb
  rw [Linkage.entry_eq_ok]
  unfold Linkage.finishFork
  have hhead : (newFork b v).headBlock = b.id := rfl
  by_cases he : k = top
  · -- the common ancestor of a block with itself is found at length zero
    obtain ⟨sb, hsb, hsh, -⟩ := M.getBlock_of_stored hstored
    have hself : l.st.lca top b.id = .ok k := by rw [hid, ← he]; exact M.lca_self hstored
    rw [if_pos (by rw [hhead, hid, he])]
    constructor
    · intro h
      cases h
      refine ⟨b, k, sb, hb, hself, hsb, ?_⟩
      rw [decide_eq_true (show b.id = top by rw [hid, he]), hh, hsh, Int.sub_self, ← hid]
      rfl
    · rintro ⟨b', c, cb, hb', hc, hcb, rfl⟩
      obtain rfl : b' = b := Except.ok.inj (hb'.symm.trans hb)
      obtain rfl : c = k := Except.ok.inj (hc.symm.trans hself)
      obtain rfl : cb = sb := Except.ok.inj (hcb.symm.trans hsb)
      rw [decide_eq_true (show b'.id = top by rw [hid, he]), hh, hsh, Int.sub_self, ← hid]
      rfl
  · have hne : ¬ b.id = top := by rw [hid]; exact he
    rw [if_neg (by rw [hhead]; exact hne)]
    constructor
    · intro h
      obtain ⟨c, hc, h⟩ := Go.bind_eq_ok.1 h
      obtain ⟨cb, hcb, h⟩ := Go.bind_eq_ok.1 h
      cases h
      refine ⟨b, c, cb, hb, Go.wrap_eq_ok.1 hc, Go.wrap_eq_ok.1 hcb, ?_⟩
      rw [decide_eq_false hne]
      rfl
    · rintro ⟨b', c, cb, hb', hc, hcb, rfl⟩
      obtain rfl : b' = b := Except.ok.inj (hb'.symm.trans hb)
      refine Go.bind_eq_ok.2 ⟨c, Go.wrap_eq_ok.2 hc, Go.bind_eq_ok.2 ⟨cb, Go.wrap_eq_ok.2 hcb, ?_⟩⟩
      rw [decide_eq_false hne]
      rfl

/-- **The loop of `Fork` of a leashed peer** finds its fork, and chooses as `LCB` does. -/
theorem fork_loop {rng : Go.MapRange BlockID (List Addr)} {ls : List Leash} (hls : l.st.leashes = .ok ls) {p : Addr}
    {k : BlockID} (hk : (⟨p, k⟩ : Leash) ∈ ls) {b : Block} (hb : l.block gw k = .ok b) {acc : Longest × Fork}
    (hacc : (rng.entries (groups ls)).foldlM (l.forkStep gw p) (⟨0, 0, .zero⟩, .zero) = .ok acc) :
    acc.2 = newFork b (peersOn ls k) ∧ acc.1.block = l.chosen rng ls := by
  have hp := rng.perm (groups ls)
  have honly : ∀ e ∈ rng.entries (groups ls), p ∈ e.2 → e = (k, peersOn ls k) := by
    intro e he hpe
    have hv := (mem_groups.1 (show (e.1, e.2) ∈ groups ls from hp.mem_iff.1 he)).1
    rw [hv] at hpe
    have hek := M.leash_unique hls (mem_peersOn.1 hpe) hk
    exact Prod.ext hek (by rw [hv, hek])
  obtain ⟨hfork, hlong⟩ := M.foldlM_forkStep (g := (k, peersOn ls k)) hb hacc honly
    (.inl ⟨hp.mem_iff.2 (mem_groups_of_leash hk), mem_peersOn.2 hk⟩)
  exact ⟨hfork, by rw [hlong]; rfl⟩

/-- **`Fork` of a leashed peer** is the entry of its group against the block chosen. -/
theorem fork_eq_ok {rng : Go.MapRange BlockID (List Addr)} {ls : List Leash} (hls : l.st.leashes = .ok ls) {p : Addr}
    {k : BlockID} {f : Fork} (hk : (⟨p, k⟩ : Leash) ∈ ls) :
    l.fork gw rng p = .ok f ↔ Readable gw l ls ∧ l.entry gw (l.chosen rng ls) (k, peersOn ls k) = .ok f := by
  have hp := rng.perm (groups ls)
  have hgroup := mem_groups_of_leash hk
  unfold Linkage.fork
  constructor
  · intro h
    obtain ⟨ls', hls', h⟩ := Go.bind_eq_ok.1 h
    rw [hls] at hls'
    cases hls'
    obtain ⟨acc, hacc, h⟩ := Go.bind_eq_ok.1 h
    have hread : Readable gw l ls := fun e he => by
      obtain ⟨a, a', ha⟩ := Go.exists_of_foldlM hacc e (hp.mem_iff.2 he)
      obtain ⟨b, hb, -⟩ := Go.bind_eq_ok.1 ha
      exact ⟨b, Go.wrap_eq_ok.1 hb⟩
    obtain ⟨b, hb⟩ := hread _ hgroup
    obtain ⟨hfork, hchosen⟩ := M.fork_loop hls hk hb hacc
    rw [hfork, hchosen] at h
    exact ⟨hread, (M.finishFork_eq_ok hb).1 h⟩
  · rintro ⟨hread, hf⟩
    obtain ⟨b, hb⟩ := hread _ hgroup
    obtain ⟨acc, hacc⟩ : ∃ acc, (rng.entries (groups ls)).foldlM (l.forkStep gw p) (⟨0, 0, .zero⟩, .zero) = .ok acc :=
      Go.exists_foldlM_of_forall _ fun e he a => by
        obtain ⟨b', hb'⟩ := hread e (hp.mem_iff.1 he)
        exact ⟨_, Go.bind_eq_ok.2 ⟨b', Go.wrap_eq_ok.2 hb', rfl⟩⟩
    obtain ⟨hfork, hchosen⟩ := M.fork_loop hls hk hb hacc
    refine Go.bind_eq_ok.2 ⟨ls, by rw [hls]; rfl, Go.bind_eq_ok.2 ⟨acc, hacc, ?_⟩⟩
    rw [hfork, hchosen]
    exact (M.finishFork_eq_ok hb).2 hf

end Mirrors

/-! ## `Forks` of some peers -/

def Fork.meets (P : LookupPeers) (f : Fork) : Bool := f.peers.any P.contains

def Fork.cutDown (P : LookupPeers) (f : Fork) : Fork :=
  { f with peersCount := (f.peers.filter P.contains).length, peers := f.peers.filter P.contains }

/-- `Forks` of the peers is `Forks` of all restricted to them, and agrees with `Fork` of a single peer. -/
structure Restricted (gw : Gowaves) (l : Linkage) (P : LookupPeers) (all some : List Fork) : Prop where
  perm : some.Perm ((all.filter (Fork.meets P)).map (Fork.cutDown P))
  fork : ∀ p, (∀ a, P.contains a = true ↔ a = p) → ∀ rng f, l.fork gw rng p = .ok f →
    ∃ e, some = [e] ∧ e.longest = f.longest ∧ e.lastCommonBlock = f.lastCommonBlock ∧ e.length = f.length

structure HighestScore (l : Linkage) (ls : List Leash) (k : BlockID) : Prop where
  leashed : ∃ p, (⟨p, k⟩ : Leash) ∈ ls
  higher : ∀ p k', (⟨p, k'⟩ : Leash) ∈ ls → k' ≠ k → l.scoreOf k' < l.scoreOf k

theorem keeps_empty (ls : List Leash) : ls.filter (∅ : LookupPeers).keeps = ls :=
  List.filter_eq_self.2 fun _ _ => rfl

theorem keeps_eq {P : LookupPeers} {p : Addr} (hp : P.contains p = true) (ls : List Leash) :
    ls.filter P.keeps = ls.filter fun lsh => P.contains lsh.addr := by
  have hne : P.isEmpty = false := by
    cases he : P.isEmpty with
    | false => rfl
    | true =>
      rw [Std.ExtTreeSet.isEmpty_iff.1 he] at hp
      simp at hp
  unfold LookupPeers.keeps
  rw [hne]
  rfl

/-- Among leashes that reach the block of the highest score, no other is chosen. -/
theorem HighestScore.top_eq {l : Linkage} {ls ls' : List Leash} {k top : BlockID} (H : HighestScore l ls k)
    (hsub : ∀ lsh ∈ ls', lsh ∈ ls) {p : Addr} (hk : (⟨p, k⟩ : Leash) ∈ ls') (htop : Top l ls' top) : top = k := by
  by_contra hne
  obtain ⟨a, ha⟩ := exists_leash htop.mem
  have hlt := H.higher a top (hsub _ ha) hne
  have hle := htop.le _ (mem_groups_of_leash hk)
  unfold Linkage.rank at hle
  rw [Prod.Lex.toLex_le_toLex] at hle
  simp only at hle
  omega

namespace Mirrors
variable {gw : Gowaves} {l : Linkage} {t : BlockTree BlockID} (M : Mirrors gw l t)
include M

theorem entry_head {top : BlockID} {e : BlockID × List Addr} {f : Fork} (h : l.entry gw top e = .ok f) :
    f.headBlock = e.1 ∧ f.peers = e.2 ∧ f.longest = decide (e.1 = top) := by
  obtain ⟨b, c, cb, hb, -, -, rfl⟩ := Linkage.entry_eq_ok.1 h
  have hid := (M.block_eq_ok hb).2.1
  exact ⟨hid, rfl, by rw [hid]⟩

omit M in
theorem entry_cutDown {P : LookupPeers} {top k : BlockID} {v : List Addr} {f : Fork} :
    l.entry gw top (k, v.filter P.contains) = .ok f ↔ ∃ g, l.entry gw top (k, v) = .ok g ∧ f = g.cutDown P := by
  constructor
  · intro h
    obtain ⟨b, c, cb, hb, hc, hcb, rfl⟩ := Linkage.entry_eq_ok.1 h
    exact ⟨_, Linkage.entry_eq_ok.2 ⟨b, c, cb, hb, hc, hcb, rfl⟩, rfl⟩
  · rintro ⟨g, hg, rfl⟩
    obtain ⟨b, c, cb, hb, hc, hcb, rfl⟩ := Linkage.entry_eq_ok.1 hg
    exact Linkage.entry_eq_ok.2 ⟨b, c, cb, hb, hc, hcb, rfl⟩

/-- **Against one block, the entries of some peers are the entries of all, cut down.** -/
theorem perm_cutDown {P : LookupPeers} {ls : List Leash} {top : BlockID} {all some : List Fork}
    (hall : ForksFrom gw l ls top all)
    (hsome : ForksFrom gw l (ls.filter fun lsh => P.contains lsh.addr) top some) :
    some.Perm ((all.filter (Fork.meets P)).map (Fork.cutDown P)) := by
  have hnd : (((all.filter (Fork.meets P)).map (Fork.cutDown P)).map Fork.headBlock).Nodup := by
    rw [List.map_map]
    exact hall.nodup.sublist (List.filter_sublist.map _)
  refine (List.perm_ext_iff_of_nodup (hsome.nodup.of_map _) (hnd.of_map _)).2 fun f => ?_
  rw [hsome.mem, List.mem_map]
  constructor
  · rintro ⟨⟨k, v⟩, he, hf⟩
    obtain ⟨hv, hne⟩ := mem_groups.1 he
    rw [peersOn_filter] at hv
    rw [hv, entry_cutDown] at hf
    obtain ⟨g, hg, rfl⟩ := hf
    obtain ⟨a, ha⟩ := List.exists_mem_of_ne_nil _ hne
    rw [hv, List.mem_filter] at ha
    refine ⟨g, List.mem_filter.2 ⟨(hall.mem g).2 ⟨_, mem_groups_of_leash (mem_peersOn.1 ha.1), hg⟩, ?_⟩, rfl⟩
    unfold Fork.meets
    rw [(M.entry_head hg).2.1]
    exact List.any_eq_true.2 ⟨a, ha⟩
  · rintro ⟨g, hg, rfl⟩
    obtain ⟨hg, hmeets⟩ := List.mem_filter.1 hg
    obtain ⟨⟨k, v⟩, he, hgf⟩ := (hall.mem g).1 hg
    have hv := (mem_groups.1 he).1
    unfold Fork.meets at hmeets
    rw [(M.entry_head hgf).2.1] at hmeets
    obtain ⟨a, ha, hPa⟩ := List.any_eq_true.1 hmeets
    refine ⟨(k, v.filter P.contains), mem_groups.2 ⟨by rw [peersOn_filter, hv], ?_⟩, entry_cutDown.2 ⟨g, hgf, rfl⟩⟩
    exact List.ne_nil_of_mem (List.mem_filter.2 ⟨ha, hPa⟩)

theorem fork_single {P : LookupPeers} {ls : List Leash} {p : Addr} {k : BlockID} {some : List Fork}
    {rng : Go.MapRange BlockID (List Addr)} {f : Fork} (hls : l.st.leashes = .ok ls) (hpk : (⟨p, k⟩ : Leash) ∈ ls)
    (hP : ∀ a, P.contains a = true ↔ a = p)
    (hsome : ForksFrom gw l (ls.filter fun lsh => P.contains lsh.addr) (l.chosen rng ls) some)
    (hf : l.fork gw rng p = .ok f) : some = [f.cutDown P] := by
  obtain ⟨-, hf⟩ := (M.fork_eq_ok hls hpk).1 hf
  have hpp : p ∈ (peersOn ls k).filter P.contains := List.mem_filter.2 ⟨mem_peersOn.2 hpk, (hP p).2 rfl⟩
  have hmem : f.cutDown P ∈ some := (hsome.mem _).2 ⟨(k, (peersOn ls k).filter P.contains),
    mem_groups.2 ⟨by rw [peersOn_filter], List.ne_nil_of_mem hpp⟩, entry_cutDown.2 ⟨f, hf, rfl⟩⟩
  have honly : ∀ g ∈ some, g = f.cutDown P := by
    intro g hg
    obtain ⟨⟨k', v'⟩, he', hg'⟩ := (hsome.mem g).1 hg
    obtain ⟨hv, hne⟩ := mem_groups.1 he'
    obtain ⟨a, ha⟩ := List.exists_mem_of_ne_nil _ hne
    rw [hv, peersOn_filter, List.mem_filter] at ha
    obtain rfl := (hP a).1 ha.2
    obtain rfl := M.leash_unique hls (mem_peersOn.1 ha.1) hpk
    rw [hv, peersOn_filter, entry_cutDown] at hg'
    obtain ⟨g', hg', rfl⟩ := hg'
    rw [Except.ok.inj (hg'.symm.trans hf)]
  exact List.perm_singleton.1 ((List.perm_ext_iff_of_nodup (hsome.nodup.of_map _) (List.nodup_singleton _)).2
    fun g => by rw [List.mem_singleton]; exact ⟨honly g, fun h => h ▸ hmem⟩)

end Mirrors

/-- **`Forks` of some peers is `Forks` of all restricted to them exactly when one of them is on the longest chain**,
where a single leashed block has the highest score. -/
theorem restricted_iff {gw : Gowaves} {scheme : Proto.Scheme} {genesis : Proto.Block} {l : Linkage}
    {t : BlockTree BlockID} (h : Reachable gw scheme genesis l t) {ls : List Leash} (hls : l.st.leashes = .ok ls)
    {k : BlockID} (H : HighestScore l ls k) {P : LookupPeers}
    (hP : ∃ p q, P.contains p = true ∧ (⟨p, q⟩ : Leash) ∈ ls)
    {rng rng' : Go.MapRange BlockID (List Addr)} {srt srt' : Go.UnstableSort Fork byScoreAndPeersDesc}
    {all some : List Fork} (hall : l.forks gw rng srt ∅ = .ok all) (hsome : l.forks gw rng' srt' P = .ok some) :
    Restricted gw l P all some ↔ ∃ p, P.contains p = true ∧ (⟨p, k⟩ : Leash) ∈ ls := by
  have M := h.mirrors
  obtain ⟨a, -, ha, -⟩ := hP
  obtain ⟨top, htop, hall⟩ := M.forks_eq_ok hls hall
  obtain ⟨top', htop', hsome⟩ := M.forks_eq_ok hls hsome
  rw [keeps_empty] at htop hall
  rw [keeps_eq ha] at htop' hsome
  obtain ⟨a0, ha0⟩ := H.leashed
  obtain rfl := H.top_eq (fun _ h => h) ha0 htop
  have hsub : ∀ lsh ∈ ls.filter fun lsh => P.contains lsh.addr, lsh ∈ ls := fun _ h => (List.mem_filter.1 h).1
  constructor
  · intro hr
    -- the chosen block among the peers is the longest chain of `some`, so it is the one of `all`
    obtain ⟨q, hq⟩ := exists_leash htop'.mem
    obtain ⟨hq, hPq⟩ := List.mem_filter.1 hq
    obtain ⟨f, hf⟩ := hsome.entries _ htop'.mem
    obtain ⟨hfh, -, hfl⟩ := M.entry_head hf
    obtain ⟨g, hg, rfl⟩ := List.mem_map.1 (hr.perm.mem_iff.1 ((hsome.mem f).2 ⟨_, htop'.mem, hf⟩))
    obtain ⟨e, -, he⟩ := (hall.mem g).1 (List.mem_filter.1 hg).1
    obtain ⟨hgh, -, hgl⟩ := M.entry_head he
    have hlong : g.longest = true := hfl.trans (decide_eq_true rfl)
    have hk : e.1 = top := of_decide_eq_true (hgl.symm.trans hlong)
    have heq : top' = top := hfh.symm.trans (hgh.trans hk)
    exact ⟨q, hPq, heq ▸ hq⟩
  · rintro ⟨p, hPp, hpk⟩
    obtain rfl := H.top_eq hsub (List.mem_filter.2 ⟨hpk, hPp⟩) htop'
    refine ⟨M.perm_cutDown hall hsome, fun p' hp' rng'' f hf => ?_⟩
    obtain rfl := (hp' p).1 hPp
    have hchosen : l.chosen rng'' ls = top' :=
      H.top_eq (fun _ h => h) hpk (M.top_chosen rng'' (List.ne_nil_of_mem (mem_groups_of_leash hpk)))
    exact ⟨_, M.fork_single hls hpk hp' (hchosen.symm ▸ hsome) hf, rfl, rfl, rfl⟩

namespace Sample

/-- Two branches from the genesis block, of two key blocks and of one, with a peer on each block. -/
def branches : List Call := [key 2 1, key 3 1, key 4 2]

def leashesOf (ns : List UInt8) : List Leash := ns.map fun n => ⟨peer n, id n⟩

/-- A sort that leaves equal elements as they are. -/
def stable : Go.UnstableSort Fork byScoreAndPeersDesc := Select.favour descending_byScoreAndPeersDesc fun _ => false

theorem highestScore {l : Linkage} (h : after branches = .ok l) : l.st.leashes = .ok (leashesOf [2, 3, 4]) ∧
    HighestScore l (leashesOf [2, 3, 4]) (id 4) := by
  have hls : (after branches >>= fun l => l.st.leashes) = .ok (leashesOf [2, 3, 4]) := by decide +kernel
  have hscore : (after branches >>= fun l =>
      .ok (decide (l.scoreOf (id 2) < l.scoreOf (id 4) ∧ l.scoreOf (id 3) < l.scoreOf (id 4)) : Bool)) =
      (.ok true : Res Bool) := by decide +kernel
  rw [h] at hls hscore
  obtain ⟨h2, h3⟩ := of_decide_eq_true (Except.ok.inj hscore)
  refine ⟨hls, ⟨peer 4, by decide⟩, fun p k' hk' hne => ?_⟩
  simp only [leashesOf, List.map_cons, List.map_nil, List.mem_cons, Leash.mk.injEq, List.not_mem_nil, or_false] at hk'
  rcases hk' with ⟨-, rfl⟩ | ⟨-, rfl⟩ | ⟨-, rfl⟩
  · exact h2
  · exact h3
  · exact absurd rfl hne

end Sample

theorem restricted_iff_sample : ∃ l all some, Sample.after Sample.branches = .ok l ∧
    Restricted Sample.gowaves l {Sample.peer 4} all some := by
  obtain ⟨l, h⟩ := Go.exists_of_isOk (x := Sample.after Sample.branches) (by decide +kernel)
  obtain ⟨hls, H⟩ := Sample.highestScore h
  obtain ⟨all, hall⟩ := Go.exists_of_isOk (x := Sample.after Sample.branches >>= fun l =>
    l.forks Sample.gowaves (.listed _ _) Sample.stable ∅) (by decide +kernel)
  obtain ⟨some, hsome⟩ := Go.exists_of_isOk (x := Sample.after Sample.branches >>= fun l =>
    l.forks Sample.gowaves (.listed _ _) Sample.stable {Sample.peer 4}) (by decide +kernel)
  rw [h] at hall hsome
  exact ⟨l, all, some, h, (restricted_iff (Sample.reachable h) hls H ⟨Sample.peer 4, Sample.id 4, by decide, by decide⟩
    hall hsome).2 ⟨Sample.peer 4, by decide, by decide⟩⟩

/-- **A filter that leaves out the longest chain makes a longest chain of its own**: the only entry for the peer on the
short branch is marked as the longest chain. -/
theorem restricted_fails : ∃ l all some,
    Reachable Sample.gowaves 87 (Sample.block 1 0) l (Sample.tree Sample.branches) ∧
    HighestScore l (Sample.leashesOf [2, 3, 4]) (Sample.id 4) ∧ l.st.leashes = .ok (Sample.leashesOf [2, 3, 4]) ∧
    (⟨Sample.peer 3, Sample.id 3⟩ : Leash) ∈ Sample.leashesOf [2, 3, 4] ∧
    l.forks Sample.gowaves (.listed _ _) Sample.stable ∅ = .ok all ∧
    l.forks Sample.gowaves (.listed _ _) Sample.stable {Sample.peer 3} = .ok some ∧
    ¬ Restricted Sample.gowaves l {Sample.peer 3} all some := by
  obtain ⟨l, h⟩ := Go.exists_of_isOk (x := Sample.after Sample.branches) (by decide +kernel)
  obtain ⟨hls, H⟩ := Sample.highestScore h
  obtain ⟨all, hall⟩ := Go.exists_of_isOk (x := Sample.after Sample.branches >>= fun l =>
    l.forks Sample.gowaves (.listed _ _) Sample.stable ∅) (by decide +kernel)
  obtain ⟨some, hsome⟩ := Go.exists_of_isOk (x := Sample.after Sample.branches >>= fun l =>
    l.forks Sample.gowaves (.listed _ _) Sample.stable {Sample.peer 3}) (by decide +kernel)
  have hheads : (Sample.after Sample.branches >>= fun l => l.forks Sample.gowaves (.listed _ _) Sample.stable ∅).map
      (List.map fun f => (f.headBlock, f.longest)) =
      .ok [(Sample.id 4, true), (Sample.id 2, false), (Sample.id 3, false)] := by decide +kernel
  have hhead : (Sample.after Sample.branches >>= fun l =>
      l.forks Sample.gowaves (.listed _ _) Sample.stable {Sample.peer 3}).map
      (List.map fun f => (f.headBlock, f.longest)) = .ok [(Sample.id 3, true)] := by decide +kernel
  rw [hall] at hheads
  rw [hsome] at hhead
  rw [h] at hall hsome
  refine ⟨l, all, some, Sample.reachable h, H, hls, by decide, hall, hsome, fun hr => ?_⟩
  have hmap := hr.perm.map fun f => (f.headBlock, f.longest)
  rw [Except.ok.inj hhead, List.map_map] at hmap
  obtain ⟨g, hg, hgl⟩ := List.mem_map.1 (hmap.mem_iff.1 List.mem_cons_self)
  have hgall : (g.headBlock, g.longest) ∈ [(Sample.id 4, true), (Sample.id 2, false), (Sample.id 3, false)] := by
    rw [← Except.ok.inj hheads]
    exact List.mem_map_of_mem (List.mem_filter.1 hg).1
  have hgl' : (g.headBlock, g.longest) = (Sample.id 3, true) := hgl
  rw [hgl'] at hgall
  revert hgall
  decide

/-! ## Three calls on one peer -/

/-- What the three calls say of one peer is the same. -/
structure Agree (F e : Fork) (c : BlockID) : Prop where
  headBlock : F.headBlock = e.headBlock
  longest : F.longest = e.longest
  lastCommonBlock : F.lastCommonBlock = e.lastCommonBlock
  length : F.length = e.length
  peers : F.peers = e.peers
  lcb : c = e.lastCommonBlock

/-- **Whenever `Fork`, `LCB` and `Forks` return, they agree** on every leashed peer, for all orders of the maps and of
the sort. -/
def AgreeOnAllOrders (gw : Gowaves) (l : Linkage) (ls : List Leash) : Prop :=
  ∀ p k, (⟨p, k⟩ : Leash) ∈ ls → ∀ rng rng' rng'' srt F c fs, l.fork gw rng p = .ok F → l.lcb gw rng' p = .ok c →
    l.forks gw rng'' srt ∅ = .ok fs → (∃ e ∈ fs, p ∈ e.peers) ∧ ∀ e ∈ fs, p ∈ e.peers → Agree F e c

def Linkage.timestampOf (l : Linkage) (k : BlockID) : Nat :=
  match l.st.block k with
  | .ok b => b.timestamp.toNat
  | .error _ => 0

/-- Every leashed block can be compared with `k`: its timestamp is not too large, and the two branches are in range of
their common part. -/
def Comparable (l : Linkage) (t : BlockTree BlockID) (ls : List Leash) (k : BlockID) : Prop :=
  ∀ p q, (⟨p, q⟩ : Leash) ∈ ls → l.timestampOf q < 9223372036854775807 ∧
    InRange (commonCount t.parent k q) (min (t.height k) (t.height q) - commonCount t.parent k q)

namespace Mirrors
variable {gw : Gowaves} {l : Linkage} {t : BlockTree BlockID} (M : Mirrors gw l t)
include M

/-- A stored block can be read unless its timestamp is too large. -/
theorem exists_block_iff (hgw : gw.RoundTrips) {k : BlockID} (h : t.Stored k) :
    (∃ b, l.block gw k = .ok b) ↔ l.timestampOf k < 9223372036854775807 := by
  obtain ⟨b, hb, -, -, hid, ⟨pk, a, ha, hga⟩, hpar⟩ := M.getBlock_of_stored h
  have hts : l.timestampOf k = b.timestamp.toNat := by unfold Linkage.timestampOf; rw [hb]
  have hpid : ∃ pid, (if b.parent.length > 0 then Go.wrap "failed to get block" (Proto.newBlockIDFromBytes b.parent)
      else .ok .zero : Res BlockID) = .ok pid := by
    rw [hpar]
    cases t.parent k with
    | none => exact ⟨.zero, rfl⟩
    | some p =>
      refine ⟨p, ?_⟩
      rw [Option.elim_some, if_pos (List.length_pos_of_ne_nil p.bytes_ne_nil)]
      exact Go.wrap_eq_ok.2 (Proto.newBlockIDFromBytes_bytes p)
  rw [hts]
  unfold Linkage.block
  constructor
  · rintro ⟨r, h⟩
    obtain ⟨b', hb', h⟩ := Go.bind_eq_ok.1 h
    obtain rfl : b' = b := Except.ok.inj (hb'.symm.trans hb)
    obtain ⟨bID, -, h⟩ := Go.bind_eq_ok.1 h
    obtain ⟨pID, -, h⟩ := Go.bind_eq_ok.1 h
    obtain ⟨ga, -, h⟩ := Go.bind_eq_ok.1 h
    obtain ⟨ts, hs, -⟩ := Go.bind_eq_ok.1 h
    unfold safeTimestamp at hs
    split at hs
    · assumption
    · cases hs
  · intro hlt
    obtain ⟨pid, hpid⟩ := hpid
    refine ⟨⟨k, pid, b.height, a, b.score, b.timestamp.toNat⟩, Go.bind_eq_ok.2 ⟨b, hb, Go.bind_eq_ok.2 ⟨k, ?_,
      Go.bind_eq_ok.2 ⟨pid, hpid, Go.bind_eq_ok.2 ⟨a, ?_, Go.bind_eq_ok.2 ⟨b.timestamp.toNat, if_pos hlt, rfl⟩⟩⟩⟩⟩⟩
    · rw [hid]; exact Go.wrap_eq_ok.2 (Proto.newBlockIDFromBytes_bytes k)
    · rw [hga, hgw _ pk a ha]; rfl

/-- The entry of a leashed block against `k` can be made exactly when the two can be compared. -/
theorem exists_entry_iff (hgw : gw.RoundTrips) {k q : BlockID} {v : List Addr} (hk : t.Stored k) (hq : t.Stored q) :
    (∃ f, l.entry gw k (q, v) = .ok f) ↔ l.timestampOf q < 9223372036854775807 ∧
      InRange (commonCount t.parent k q) (min (t.height k) (t.height q) - commonCount t.parent k q) := by
  obtain ⟨c, hc⟩ := t.isRooted.exists_deepestCommon hq _ k hk rfl
  obtain ⟨hok, hpanic⟩ := M.refines.lca_spec hk hq hc
  rw [t.isRooted.commonCount_eq hk hc, ← M.exists_block_iff hgw hq]
  constructor
  · rintro ⟨f, hf⟩
    obtain ⟨b, c', cb, hb, hc', -, -⟩ := Linkage.entry_eq_ok.1 hf
    refine ⟨⟨b, hb⟩, ?_⟩
    by_contra hr
    rw [(M.block_eq_ok hb).2.1, hpanic hr] at hc'
    cases hc'
  · rintro ⟨⟨b, hb⟩, hr⟩
    obtain ⟨cb, hcb, -⟩ := M.getBlock_of_stored (t.isRooted.anc_node hk hc.left)
    exact ⟨_, Linkage.entry_eq_ok.2 ⟨b, c, cb, hb, by rw [(M.block_eq_ok hb).2.1]; exact hok hr, hcb, rfl⟩⟩

theorem comparable_iff (hgw : gw.RoundTrips) {ls : List Leash} (hls : l.st.leashes = .ok ls) {k : BlockID}
    (hk : t.Stored k) : Comparable l t ls k ↔ ∀ e ∈ groups ls, ∃ f, l.entry gw k e = .ok f := by
  constructor
  · intro hc e he
    obtain ⟨p, hp⟩ := exists_leash he
    exact (M.exists_entry_iff hgw hk (M.listed hls hp).2).2 (hc p e.1 hp)
  · intro he p q hpq
    exact (M.exists_entry_iff hgw hk (M.listed hls hpq).2).1 (he _ (mem_groups_of_leash hpq))

theorem entry_of_peer {ls : List Leash} (hls : l.st.leashes = .ok ls) {p : Addr} {k top : BlockID} {fs : List Fork}
    (hpk : (⟨p, k⟩ : Leash) ∈ ls) (hfs : ForksFrom gw l ls top fs) {e : Fork} (he : e ∈ fs) (hp : p ∈ e.peers) :
    l.entry gw top (k, peersOn ls k) = .ok e := by
  obtain ⟨⟨q, v⟩, hq, hent⟩ := (hfs.mem e).1 he
  rw [(M.entry_head hent).2.1] at hp
  have hv := (mem_groups.1 hq).1
  rw [hv] at hp hent
  obtain rfl := M.leash_unique hls (mem_peersOn.1 hp) hpk
  exact hent

/-- **When all orders choose one block, the calls agree.** -/
theorem agree_of_unique {ls : List Leash} (hls : l.st.leashes = .ok ls)
    (huniq : ∀ k k', Top l ls k → Top l ls k' → k = k') : AgreeOnAllOrders gw l ls := by
  intro p k hpk rng rng' rng'' srt F c fs hF hc hfs
  have hne : groups ls ≠ [] := List.ne_nil_of_mem (mem_groups_of_leash hpk)
  obtain ⟨top, htop, hfs⟩ := M.forks_eq_ok hls hfs
  rw [keeps_empty] at htop hfs
  obtain ⟨-, hF⟩ := (M.fork_eq_ok hls hpk).1 hF
  obtain ⟨-, hc⟩ := (M.lcb_eq_ok hls hpk).1 hc
  rw [huniq _ _ (M.top_chosen rng hne) htop] at hF
  rw [huniq _ _ (M.top_chosen rng' hne) htop] at hc
  have hmem : F ∈ fs := (hfs.mem F).2 ⟨_, mem_groups_of_leash hpk, hF⟩
  refine ⟨⟨F, hmem, by rw [(M.entry_head hF).2.1]; exact mem_peersOn.2 hpk⟩, fun e he hpe => ?_⟩
  obtain rfl : F = e := Except.ok.inj (hF.symm.trans (M.entry_of_peer hls hpk hfs he hpe))
  refine ⟨rfl, rfl, rfl, rfl, rfl, ?_⟩
  obtain ⟨b, c', cb, hb, hc', -, rfl⟩ := Linkage.entry_eq_ok.1 hF
  rw [(M.block_eq_ok hb).2.1, hc] at hc'
  exact Except.ok.inj hc'

/-- **Two blocks that rank highest set the calls apart**, when one of them can be compared with every other. -/
theorem not_agree {ls : List Leash} (hls : l.st.leashes = .ok ls) {k k' : BlockID} (hk : Top l ls k)
    (hk' : Top l ls k') (hne : k ≠ k') (hentry : ∀ e ∈ groups ls, ∃ f, l.entry gw k e = .ok f) :
    ¬ AgreeOnAllOrders gw l ls := by
  intro hagree
  obtain ⟨p, hpk⟩ := exists_leash hk.mem
  obtain ⟨p', hpk'⟩ := exists_leash hk'.mem
  have hread : Readable gw l ls := fun e he => by
    obtain ⟨f, hf⟩ := hentry e he
    obtain ⟨b, -, -, hb, -⟩ := Linkage.entry_eq_ok.1 hf
    exact ⟨b, hb⟩
  -- `Forks` chooses `k`, the other two calls choose `k'`
  obtain ⟨srt, fs, hfs, hfrom⟩ := M.exists_forks (.listed _ _) (P := ∅) hls (by rw [keeps_empty]; exact hk)
    (by rw [keeps_empty]; exact hentry)
  rw [keeps_empty] at hfrom
  have hchosen := M.chosen_first hk'
  obtain ⟨c, hc⟩ : ∃ c, l.st.lca k' k = .ok c := by
    obtain ⟨f, hf⟩ := hentry _ hk'.mem
    obtain ⟨b, c, -, hb, hc, -⟩ := Linkage.entry_eq_ok.1 hf
    rw [(M.block_eq_ok hb).2.1] at hc
    exact ⟨c, by rw [M.refines.lca_comm (M.listed hls hpk').2 (M.listed hls hpk).2]; exact hc⟩
  obtain ⟨b, hb⟩ := hread _ hk.mem
  obtain ⟨cb, hcb, -⟩ := M.getBlock_of_stored (M.lca_stored hc (M.listed hls hpk').2 (M.listed hls hpk).2)
  obtain ⟨F, hF⟩ : ∃ F, l.entry gw k' (k, peersOn ls k) = .ok F :=
    ⟨_, Linkage.entry_eq_ok.2 ⟨b, c, cb, hb, by rw [(M.block_eq_ok hb).2.1]; exact hc, hcb, rfl⟩⟩
  obtain ⟨⟨e, he, hpe⟩, hall⟩ := hagree p k hpk _ _ _ srt _ c fs
    ((M.fork_eq_ok hls hpk).2 ⟨hread, hchosen.symm ▸ hF⟩) ((M.lcb_eq_ok hls hpk).2 ⟨hread, hchosen.symm ▸ hc⟩) hfs
  have hlong := (hall e he hpe).longest
  rw [(M.entry_head hF).2.2, (M.entry_head (M.entry_of_peer hls hpk hfrom he hpe)).2.2] at hlong
  rw [decide_eq_false hne, decide_eq_true rfl] at hlong
  cases hlong

end Mirrors

/-- **When the three calls agree on every leashed peer**: a single block ranks highest, or none that does can be
compared with every leashed block, so that `Forks` never returns. -/
theorem calls_agree_iff {gw : Gowaves} (hgw : gw.RoundTrips) {scheme : Proto.Scheme} {genesis : Proto.Block}
    {l : Linkage} {t : BlockTree BlockID} (h : Reachable gw scheme genesis l t) {ls : List Leash}
    (hls : l.st.leashes = .ok ls) :
    AgreeOnAllOrders gw l ls ↔
      (∀ k k', Top l ls k → Top l ls k' → k = k') ∨ ∀ k, Top l ls k → ¬ Comparable l t ls k := by
  have M := h.mirrors
  have hstored : ∀ {k}, Top l ls k → t.Stored k := fun hk => by
    obtain ⟨p, hp⟩ := exists_leash hk.mem
    exact (M.listed hls hp).2
  constructor
  · intro hagree
    by_contra hno
    push Not at hno
    obtain ⟨⟨k1, k2, h1, h2, hne⟩, k, hk, hcomp⟩ := hno
    have hentry := (M.comparable_iff hgw hls (hstored hk)).1 hcomp
    by_cases hk1 : k = k1
    · exact M.not_agree hls hk h2 (hk1 ▸ hne) hentry hagree
    · exact M.not_agree hls hk h1 hk1 hentry hagree
  · rintro (huniq | hnone)
    · exact M.agree_of_unique hls huniq
    · intro p k hpk rng rng' rng'' srt F c fs _ _ hfs
      obtain ⟨top, htop, hfrom⟩ := M.forks_eq_ok hls hfs
      rw [keeps_empty] at htop hfrom
      exact absurd ((M.comparable_iff hgw hls (hstored htop)).2 hfrom.entries) (hnone top htop)

namespace Sample

theorem gowaves_roundTrips : gowaves.RoundTrips := by
  intro scheme pk a h
  simp only [gowaves] at h
  split at h
  · cases h; rfl
  · cases h

/-- A key block and a micro-block after it, with a peer on each. -/
def tied : List Call := [key 2 1, micro 3 2]

end Sample

theorem calls_agree_iff_sample : ∃ l, Sample.after Sample.branches = .ok l ∧
    (AgreeOnAllOrders Sample.gowaves l (Sample.leashesOf [2, 3, 4]) ↔
      (∀ k k', Top l (Sample.leashesOf [2, 3, 4]) k → Top l (Sample.leashesOf [2, 3, 4]) k' → k = k') ∨
      ∀ k, Top l (Sample.leashesOf [2, 3, 4]) k →
        ¬ Comparable l (Sample.tree Sample.branches) (Sample.leashesOf [2, 3, 4]) k) := by
  obtain ⟨l, h⟩ := Go.exists_of_isOk (x := Sample.after Sample.branches) (by decide +kernel)
  exact ⟨l, h, calls_agree_iff Sample.gowaves_roundTrips (Sample.reachable h) (Sample.highestScore h).1⟩

/-- **A key block and its micro-block have one score**, and each call chooses either: `Fork` of the peer on the key
block finds it on a fork, and `Forks` on the longest chain. -/
theorem calls_disagree : ∃ l, Reachable Sample.gowaves 87 (Sample.block 1 0) l (Sample.tree Sample.tied) ∧
    l.st.leashes = .ok (Sample.leashesOf [2, 3]) ∧ ¬ AgreeOnAllOrders Sample.gowaves l (Sample.leashesOf [2, 3]) := by
  obtain ⟨l, h⟩ := Go.exists_of_isOk (x := Sample.after Sample.tied) (by decide +kernel)
  have hls : (Sample.after Sample.tied >>= fun l => l.st.leashes) = .ok (Sample.leashesOf [2, 3]) := by decide +kernel
  obtain ⟨F, hF⟩ := Go.exists_of_isOk (x := Sample.after Sample.tied >>= fun l =>
    l.fork Sample.gowaves (.first fun e => decide (e.1 = Sample.id 3)) (Sample.peer 2)) (by decide +kernel)
  obtain ⟨c, hc⟩ := Go.exists_of_isOk (x := Sample.after Sample.tied >>= fun l =>
    l.lcb Sample.gowaves (.listed _ _) (Sample.peer 2)) (by decide +kernel)
  obtain ⟨fs, hfs⟩ := Go.exists_of_isOk (x := Sample.after Sample.tied >>= fun l =>
    l.forks Sample.gowaves (.listed _ _) Sample.stable ∅) (by decide +kernel)
  have hFl : (Sample.after Sample.tied >>= fun l =>
      l.fork Sample.gowaves (.first fun e => decide (e.1 = Sample.id 3)) (Sample.peer 2)).map Fork.longest =
      .ok false := by decide +kernel
  have hfsl : (Sample.after Sample.tied >>= fun l => l.forks Sample.gowaves (.listed _ _) Sample.stable ∅).map
      (fun fs => fs.all fun e => !e.peers.contains (Sample.peer 2) || e.longest) = .ok true := by decide +kernel
  rw [hF] at hFl
  rw [hfs] at hfsl
  rw [h] at hls hF hc hfs
  refine ⟨l, Sample.reachable h, hls, fun hagree => ?_⟩
  obtain ⟨⟨e, he, hp⟩, hall⟩ := hagree (Sample.peer 2) (Sample.id 2) (by decide) _ _ _ _ F c fs hF hc hfs
  have hlong := (hall e he hp).longest
  have hel := List.all_eq_true.1 (Except.ok.inj hfsl) e he
  rw [show F.longest = false from Except.ok.inj hFl] at hlong
  simp [hp, ← hlong] at hel

end Chains
end ForkDetector
