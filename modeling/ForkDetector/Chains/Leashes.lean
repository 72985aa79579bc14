import Mathlib.Data.Prod.Lex
import ForkDetector.Lib.Select
import ForkDetector.Chains.Lca
/-!
# Leashes — the leashed blocks and the chain chosen among them

`LCB`, `Fork` and `Forks` group the leashes by block, choose a block of the highest score and number of peers, and
compare a block to it.  Which block is chosen when several rank highest depends on the order of a map or of a sort.
Each call is described here by the block it chooses (`lcb_eq_ok`, `fork_eq_ok`, `forks_eq_ok`), and each block that
ranks highest is chosen in some order (`chosen_first`, `exists_forks`).
-/
namespace ForkDetector
namespace Chains

open Std (ExtTreeMap)
open Ancestry Lifting
open Proto (BlockID Gowaves)

/-! ## Groups -/

def peersOn (ls : List Leash) (k : BlockID) : List Addr :=
  (ls.filter fun lsh => decide (lsh.blockID = k)).map Leash.addr

theorem mem_peersOn {ls : List Leash} {k : BlockID} {a : Addr} : a ∈ peersOn ls k ↔ (⟨a, k⟩ : Leash) ∈ ls := by
  unfold peersOn
  rw [List.mem_map]
  constructor
  · rintro ⟨lsh, hm, rfl⟩
    obtain ⟨hmem, hk⟩ := List.mem_filter.1 hm
    obtain rfl := of_decide_eq_true hk
    exact hmem
  · exact fun h => ⟨_, List.mem_filter.2 ⟨h, decide_eq_true rfl⟩, rfl⟩

theorem peersOn_filter (ls : List Leash) (q : Addr → Bool) (k : BlockID) :
    peersOn (ls.filter fun lsh => q lsh.addr) k = (peersOn ls k).filter q := by
  unfold peersOn
  rw [List.filter_map, List.filter_filter, List.filter_filter]
  congr 1
  apply List.filter_congr
  intro lsh _
  exact Bool.and_comm _ _

theorem getElem?_groupByBlock (ls : List Leash) (k : BlockID) :
    (groupByBlock ls)[k]? = if peersOn ls k = [] then none else some (peersOn ls k) := by
  induction ls using List.reverseRecOn with
  | nil => simp [groupByBlock, peersOn]
  | append_singleton ls x ih =>
    have hstep : groupByBlock (ls ++ [x]) =
        (groupByBlock ls).insert x.blockID ((groupByBlock ls).getD x.blockID [] ++ [x.addr]) := by
      unfold groupByBlock
      rw [List.foldl_append]
      rfl
    have hpeers : peersOn (ls ++ [x]) k = peersOn ls k ++ if x.blockID = k then [x.addr] else [] := by
      unfold peersOn
      rw [List.filter_append, List.map_append]
      by_cases h : x.blockID = k <;> simp [h]
    rw [hstep, hpeers, Go.getElem?_insert_eq]
    by_cases h : k = x.blockID
    · subst h
      rw [if_pos rfl, if_pos rfl, if_neg (by simp), Std.ExtTreeMap.getD_eq_getD_getElem?, ih]
      by_cases hp : peersOn ls x.blockID = []
      · rw [if_pos hp, hp]; rfl
      · rw [if_neg hp]; rfl
    · have hx : ¬ x.blockID = k := fun e => h e.symm
      rw [if_neg h, ih, if_neg hx, List.append_nil]

/-- The blocks with leashes, each with its peers. -/
def groups (ls : List Leash) : List (BlockID × List Addr) := (groupByBlock ls).toList

theorem mem_groups {ls : List Leash} {k : BlockID} {v : List Addr} :
    (k, v) ∈ groups ls ↔ v = peersOn ls k ∧ v ≠ [] := by
  unfold groups
  rw [Std.ExtTreeMap.mem_toList_iff_getElem?_eq_some, getElem?_groupByBlock]
  constructor
  · intro h
    split at h
    · cases h
    · rename_i hne
      cases h
      exact ⟨rfl, hne⟩
  · rintro ⟨rfl, hne⟩
    rw [if_neg hne]

theorem mem_groups_of_leash {ls : List Leash} {a : Addr} {k : BlockID} (h : (⟨a, k⟩ : Leash) ∈ ls) :
    (k, peersOn ls k) ∈ groups ls :=
  mem_groups.2 ⟨rfl, List.ne_nil_of_mem (mem_peersOn.2 h)⟩

theorem exists_leash {ls : List Leash} {e : BlockID × List Addr} (h : e ∈ groups ls) :
    ∃ a, (⟨a, e.1⟩ : Leash) ∈ ls := by
  obtain ⟨hv, hne⟩ := mem_groups.1 (show (e.1, e.2) ∈ groups ls from h)
  obtain ⟨a, ha⟩ := List.exists_mem_of_ne_nil _ hne
  exact ⟨a, mem_peersOn.1 (hv ▸ ha)⟩

theorem nodup_groups (ls : List Leash) : ((groups ls).map Prod.fst).Nodup := by
  unfold groups
  rw [Std.ExtTreeMap.map_fst_toList_eq_keys]
  exact Std.ExtTreeMap.nodup_keys

/-! ## Leashes of a reachable linkage -/

theorem addrKeyFromBytes_addrKeyBytes {a : Addr} (h : Storage.inLeashRange (addrKeyBytes a) = true) :
    ∃ a', addrKeyFromBytes (addrKeyBytes a) = .ok a' := by
  have hne : a.bytes.length ≠ 0 := by
    intro h0
    rw [addrKeyBytes.eq_def, List.length_eq_zero_iff.1 h0] at h
    revert h
    decide
  have hlen : a.bytes.length = 4 ∨ a.bytes.length = 16 := by
    rcases a.size with h0 | h0
    · exact absurd h0 hne
    · exact h0
  refine ⟨⟨a.bytes, "", .inr hlen, fun hz => absurd rfl hz⟩, ?_⟩
  unfold addrKeyFromBytes addrKeyBytes
  rw [if_neg (by rw [List.length_cons]; omega)]
  simp only [ne_eq, not_true_eq_false, if_false, Addr.fromSlice, dif_pos hlen]

theorem addrKeyBytes_of_addrKeyFromBytes {key : Bytes} {a : Addr} (h : addrKeyFromBytes key = .ok a) :
    addrKeyBytes a = key := by
  unfold addrKeyFromBytes at h
  split at h
  · cases h
  · split at h
    · cases h
    · split at h
      · cases h
      · rename_i p rest hp
        split at h
        · rename_i addr hslice
          cases h
          unfold Addr.fromSlice at hslice
          split at hslice
          · cases hslice
            rw [addrKeyBytes, not_not.1 hp]
          · cases hslice
        · cases h

namespace Mirrors
variable {gw : Gowaves} {l : Linkage} {t : BlockTree BlockID} (M : Mirrors gw l t)
include M

theorem exists_leashes : ∃ ls, l.st.leashes = .ok ls := by
  unfold Storage.leashes
  refine Go.exists_mapM_of_forall fun r hr => ?_
  obtain ⟨hmem, hrange⟩ := List.mem_filter.1 hr
  obtain ⟨-, addr, hkey⟩ := M.leashes r.1 r.2 (Std.ExtTreeMap.mem_toList_iff_getElem?_eq_some.1 hmem)
  rw [hkey] at hrange
  obtain ⟨a, ha⟩ := addrKeyFromBytes_addrKeyBytes hrange
  exact ⟨⟨a, r.2⟩, Go.bind_eq_ok.2 ⟨a, hkey ▸ ha, rfl⟩⟩

/-- A listed leash is the leash of its address, on a stored block. -/
theorem listed {ls : List Leash} (hls : l.st.leashes = .ok ls) {a : Addr} {k : BlockID} (h : (⟨a, k⟩ : Leash) ∈ ls) :
    l.st.leash a = .ok k ∧ t.Stored k := by
  obtain ⟨r, hr, hf⟩ := (Go.mem_of_mapM hls _).1 h
  obtain ⟨a', ha', hf⟩ := Go.bind_eq_ok.1 hf
  cases hf
  have hrec := Std.ExtTreeMap.mem_toList_iff_getElem?_eq_some.1 (List.mem_filter.1 hr).1
  rw [Storage.getLeash_eq, addrKeyBytes_of_addrKeyFromBytes ha', hrec]
  exact ⟨rfl, (M.leashes r.1 r.2 hrec).1⟩

theorem leash_unique {ls : List Leash} (hls : l.st.leashes = .ok ls) {a : Addr} {k k' : BlockID}
    (h : (⟨a, k⟩ : Leash) ∈ ls) (h' : (⟨a, k'⟩ : Leash) ∈ ls) : k = k' := by
  have h1 := (M.listed hls h).1
  rw [(M.listed hls h').1] at h1
  exact (Except.ok.inj h1).symm

end Mirrors

/-! ## The block chosen -/

def Linkage.scoreOf (l : Linkage) (k : BlockID) : Int :=
  match l.st.block k with
  | .ok b => b.score
  | .error _ => 0

/-- What chains are compared by: the score, then the number of peers. -/
def Linkage.rank (l : Linkage) (e : BlockID × List Addr) : Int ×ₗ Nat := toLex (l.scoreOf e.1, e.2.length)

def Longest.rank (a : Longest) : Int ×ₗ Nat := toLex (a.score, a.peers)

def Fork.rank (f : Fork) : Int ×ₗ Nat := toLex (f.score, f.peers.length)

/-- **A leashed block that no other outranks.** -/
def Top (l : Linkage) (ls : List Leash) (k : BlockID) : Prop := Select.IsTop l.rank (groups ls) (k, peersOn ls k)

theorem Longest.next_eq (a : Longest) (s : Int) (n : Nat) (k : BlockID) :
    a.next s n k = Select.better Longest.rank a ⟨s, n, k⟩ := by
  unfold Longest.next Select.better Longest.rank
  simp only [Prod.Lex.toLex_lt_toLex]
  by_cases he : a.score = s
  · simp [he]
  · simp [he]

theorem descending_byScoreAndPeersDesc : Select.Descending Fork.rank byScoreAndPeersDesc := by
  intro a b
  unfold byScoreAndPeersDesc Fork.rank
  rw [Prod.Lex.toLex_lt_toLex]
  by_cases he : a.score = b.score
  · simp [he]
  · simp [he, Ne.symm he]

def Linkage.candidate (l : Linkage) (e : BlockID × List Addr) : Longest := ⟨l.scoreOf e.1, e.2.length, e.1⟩

/-- The block that `LCB` and `Fork` choose, for an order of the map. -/
def Linkage.chosen (l : Linkage) (rng : Go.MapRange BlockID (List Addr)) (ls : List Leash) : BlockID :=
  (((rng.entries (groups ls)).map l.candidate).foldl (Select.better Longest.rank) ⟨0, 0, .zero⟩).block

def Readable (gw : Gowaves) (l : Linkage) (ls : List Leash) : Prop :=
  ∀ e ∈ groups ls, ∃ b, l.block gw e.1 = .ok b

namespace Mirrors
variable {gw : Gowaves} {l : Linkage} {t : BlockTree BlockID} (M : Mirrors gw l t)
include M

theorem getBlock_of_stored {k : BlockID} (h : t.Stored k) :
    ∃ b, l.st.block k = .ok b ∧ b.height = t.height k ∧ 0 ≤ b.score ∧ b.id = k.bytes ∧
      (∃ pk a, gw.newAddressFromPublicKey l.st.scheme pk = .ok a ∧ b.generator = a.bytes) ∧
      b.parent = (t.parent k).elim [] BlockID.bytes := by
  obtain ⟨n, hn⟩ := Option.isSome_iff_exists.1 (M.refines.stored_iff.1 h)
  obtain ⟨nd, b, k', hnd, r⟩ := M.refines.of_num hn
  exact ⟨b, Storage.getBlockByID_eq_ok.2 ⟨n, hn, r.block⟩, by rw [r.block_height, BlockTree.height_eq hnd],
    r.score_nonneg, r.block_id, r.generator, by rw [r.block_parent, BlockTree.parent_eq hnd]⟩

theorem block_eq_ok {k : BlockID} {b : Block} (h : l.block gw k = .ok b) :
    t.Stored k ∧ b.id = k ∧ b.height = t.height k ∧ b.score = l.scoreOf k := by
  unfold Linkage.block at h
  obtain ⟨r, hr, h⟩ := Go.bind_eq_ok.1 h
  obtain ⟨bID, hID, h⟩ := Go.bind_eq_ok.1 h
  obtain ⟨pID, -, h⟩ := Go.bind_eq_ok.1 h
  obtain ⟨ga, -, h⟩ := Go.bind_eq_ok.1 h
  obtain ⟨ts, -, h⟩ := Go.bind_eq_ok.1 h
  cases h
  obtain ⟨n, hn, -⟩ := Storage.getBlockByID_eq_ok.1 hr
  have hk := (M.refines.num_stored k n hn).1
  obtain ⟨r', hr', hh, -, hid, -⟩ := M.getBlock_of_stored hk
  obtain rfl : r' = r := Except.ok.inj (hr'.symm.trans hr)
  rw [Go.wrap_eq_ok, hid, Proto.newBlockIDFromBytes_bytes] at hID
  cases hID
  exact ⟨hk, rfl, hh, by unfold Linkage.scoreOf; rw [hr]⟩

theorem scoreOf_nonneg (k : BlockID) : 0 ≤ l.scoreOf k := by
  unfold Linkage.scoreOf
  split
  · rename_i b hb
    obtain ⟨n, hn, -⟩ := Storage.getBlockByID_eq_ok.1 hb
    obtain ⟨b', hb', -, hs, -⟩ := M.getBlock_of_stored (M.refines.num_stored k n hn).1
    obtain rfl : b' = b := Except.ok.inj (hb'.symm.trans hb)
    exact hs
  · exact Int.le_refl 0

/-- **Any order of the map chooses a block that ranks highest.** -/
theorem top_chosen (rng : Go.MapRange BlockID (List Addr)) {ls : List Leash} (hne : groups ls ≠ []) :
    Top l ls (l.chosen rng ls) := by
  have hp := rng.perm (groups ls)
  have hlow : ∀ c ∈ (rng.entries (groups ls)).map l.candidate, Longest.rank ⟨0, 0, .zero⟩ < c.rank := by
    intro c hc
    obtain ⟨e, he, rfl⟩ := List.mem_map.1 hc
    obtain ⟨-, hv⟩ := mem_groups.1 (show (e.1, e.2) ∈ groups ls from hp.mem_iff.1 he)
    have hs := M.scoreOf_nonneg e.1
    have hlen := List.length_pos_of_ne_nil hv
    show toLex ((0 : Int), 0) < toLex (l.scoreOf e.1, e.2.length)
    rw [Prod.Lex.toLex_lt_toLex]
    rcases Int.lt_or_eq_of_le hs with h | h
    · exact .inl h
    · exact .inr ⟨h, hlen⟩
  have hne' : (rng.entries (groups ls)).map l.candidate ≠ [] := fun h => hne (by
    rw [List.map_eq_nil_iff] at h
    exact List.Perm.nil_eq (h ▸ hp) ▸ rfl)
  obtain ⟨hmem, hle⟩ := Select.foldl_better_of_lt Longest.rank hne' hlow
  obtain ⟨e, he, hcand⟩ := List.mem_map.1 hmem
  have hblock : l.chosen rng ls = e.1 := by
    unfold Linkage.chosen
    rw [← hcand]; rfl
  have heg : (e.1, e.2) ∈ groups ls := hp.mem_iff.1 he
  have hv := (mem_groups.1 heg).1
  refine ⟨by rw [hblock, ← hv]; exact heg, fun y hy => ?_⟩
  rw [hblock, ← hv]
  have := hle _ (List.mem_map.2 ⟨y, hp.mem_iff.2 hy, rfl⟩)
  rw [← hcand] at this
  exact this

/-- **Each block that ranks highest is chosen in some order of the map.** -/
theorem chosen_first {ls : List Leash} {k : BlockID} (h : Top l ls k) :
    l.chosen (.first fun e => decide (e.1 = k)) ls = k := by
  have hfilter : (groups ls).filter (fun e => decide (e.1 = k)) = [(k, peersOn ls k)] := by
    have hnd : ((groups ls).filter fun e => decide (e.1 = k)).Nodup :=
      ((nodup_groups ls).of_map Prod.fst).filter _
    have hmem : ∀ e, e ∈ (groups ls).filter (fun e => decide (e.1 = k)) ↔ e ∈ [(k, peersOn ls k)] := by
      intro e
      rw [List.mem_filter, List.mem_singleton]
      constructor
      · rintro ⟨he, hk⟩
        obtain rfl := of_decide_eq_true hk
        exact Prod.ext rfl (mem_groups.1 (show (e.1, e.2) ∈ groups ls from he)).1
      · rintro rfl
        exact ⟨h.mem, decide_eq_true rfl⟩
    exact List.perm_singleton.1 ((List.perm_ext_iff_of_nodup hnd (List.nodup_singleton _)).2 hmem)
  have hstart : Select.better Longest.rank ⟨0, 0, .zero⟩ (l.candidate (k, peersOn ls k)) =
      l.candidate (k, peersOn ls k) := by
    have hs := M.scoreOf_nonneg k
    have hlen := List.length_pos_of_ne_nil (mem_groups.1 h.mem).2
    refine if_pos ?_
    show toLex ((0 : Int), 0) < toLex (l.scoreOf k, (peersOn ls k).length)
    rw [Prod.Lex.toLex_lt_toLex]
    rcases Int.lt_or_eq_of_le hs with h | h
    · exact .inl h
    · exact .inr ⟨h, hlen⟩
  unfold Linkage.chosen Go.MapRange.first
  simp only [hfilter, List.cons_append, List.nil_append, List.map_cons, List.foldl_cons, hstart]
  rw [Select.foldl_better_of_le]
  · rfl
  · intro c hc
    obtain ⟨e, he, rfl⟩ := List.mem_map.1 hc
    exact h.le e (List.mem_filter.1 he).1

end Mirrors

end Chains
end ForkDetector
