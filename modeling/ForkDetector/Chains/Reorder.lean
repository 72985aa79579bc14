import ForkDetector.Lib.Insertion
import ForkDetector.Chains.Append
/-!
# Reorder — the same blocks in another order

Calls that introduce new blocks insert values into one map from IDs to nodes and block records.  Block numbers, head
numbers and lists of parents depend on the order of the calls; that map does not, and what is read by ID comes from it.
-/
namespace ForkDetector
namespace Chains

open Ancestry Lifting
open Insertion (Entry Insertable place)
open Proto (BlockID Gowaves MicroBlockInv)

/-- A call that puts a block or a micro-block. -/
inductive Put where
  | block (b : Proto.Block) (addr : Addr)
  | microBlock (inv : MicroBlockInv) (addr : Addr)
deriving DecidableEq

namespace Put

def call : Put → Call
  | .block b addr => .putBlock b addr
  | .microBlock inv addr => .putMicroBlock inv addr

def id (p : Put) : BlockID := p.call.id

def addr (p : Put) : Addr := p.call.addr

/-- What a put of a new block inserts, made from what the database has of the parent, or of the reference. -/
def entry (gw : Gowaves) (scheme : Proto.Scheme) : Put → Entry BlockID (Node BlockID × StoredBlock)
  | .block b _ => ⟨b.blockID, b.parent, fun v => (⟨.keyBlock b.parent, some b.parent, v.1.height + 1⟩,
      (newBlock gw scheme b ((v.2.height + 1) % 2 ^ 32) (some v.2.score)).toOption.getD v.2)⟩
  | .microBlock inv _ => ⟨inv.totalBlockID, inv.reference, fun v => (⟨.microBlock inv.reference, v.1.parent,
      v.1.height⟩, { v.2 with id := inv.totalBlockID.bytes })⟩

theorem entry_key (gw : Gowaves) (scheme : Proto.Scheme) (p : Put) : (p.entry gw scheme).key = p.id := by
  cases p <;> rfl

end Put

/-! ## The blocks by ID -/

/-- What the tree and the database have of a block. -/
def view (s : Storage) (t : BlockTree BlockID) (x : BlockID) : Option (Node BlockID × StoredBlock) :=
  (t.node x).bind fun nd => (s.block x).toOption.map fun b => (nd, b)

theorem view_of_num {s : Storage} {t : BlockTree BlockID} {x : BlockID} {n : Nat} {nd : Node BlockID} {b : StoredBlock}
    (hx : s.nums[x]? = some n) (hnd : t.node x = some nd) (hb : s.blocks[n]? = some b) : view s t x = some (nd, b) := by
  have hread : s.block x = .ok b := Storage.getBlockByID_eq_ok.2 ⟨n, hx, hb⟩
  unfold view
  rw [hnd, hread]
  rfl

namespace Refines
variable {gw : Gowaves} {s : Storage} {t : BlockTree BlockID} (R : Refines gw s t)
include R

theorem map_fst_view (x : BlockID) : (view s t x).map Prod.fst = t.node x := by
  cases hnd : t.node x with
  | none => unfold view; rw [hnd]; rfl
  | some nd =>
    obtain ⟨n, b, k, r⟩ := R.recorded x nd hnd
    rw [view_of_num r.num hnd r.block]
    rfl

theorem view_eq_none {x : BlockID} : view s t x = none ↔ ¬ t.Stored x := by
  unfold BlockTree.Stored
  rw [← R.map_fst_view x]
  simp

/-- The blocks that a link points to, by ID. -/
theorem getElem?_parents {x : BlockID} {k : Link} (h : s.getLinkByID x = .ok k) (i : Nat) :
    (k.parents.map s.idOf)[i]? = if 2 ^ i < t.height x then up t.parent (2 ^ i) x else none := by
  obtain ⟨n, hn, -, -, -, hsk⟩ := R.getLinkByID h
  rw [List.getElem?_map]
  by_cases hi : i < k.parents.length
  · rw [if_pos (hsk.lt_length.1 hi), hsk.get_eq i hi, ← R.up_idOf (R.hasLink hn), R.idOf_eq hn]
  · rw [if_neg fun h => hi (hsk.lt_length.2 h), List.getElem?_eq_none (Nat.le_of_not_lt hi), Option.map_none]

end Refines

/-- **An insertion inserts one value.** -/
theorem Stands.view_growth {gw : Gowaves} {l : Linkage} {t : BlockTree BlockID} (S : Stands gw l t) {s' : Storage}
    {id p e : BlockID} {origin : Origin BlockID} {ext : Nat} {b : StoredBlock} {parents : List Nat}
    (G : Growth gw l.st s' t id p e origin ext b parents) (x : BlockID) : view s' G.tree x =
      if x = id then some (⟨origin, some p, t.height p + 1⟩, b) else view l.st t x := by
  obtain ⟨S', K⟩ := S.growth G
  obtain ⟨-, -, hnums, hblocks, -, -⟩ := G.inserted.fields
  by_cases hx : x = id
  · rw [if_pos hx, hx]
    refine view_of_num (n := l.st.blocksCounter + 1) ?_ BlockTree.grow_node_self ?_
    · show s'.nums[id]? = _
      rw [hnums, Go.getElem?_insert_eq, if_pos rfl]
    · show s'.blocks[_]? = _
      rw [hblocks, Go.getElem?_insert_eq, if_pos rfl]
  · rw [if_neg hx]
    by_cases hs : t.Stored x
    · have hread : s'.block x = l.st.block x := K.getBlock S hs
      have hnode : G.tree.node x = t.node x := BlockTree.grow_node_stored hs
      unfold view
      rw [hread, hnode]
    · rw [S.refines.view_eq_none.2 hs]
      refine S'.refines.view_eq_none.2 fun h => hs ?_
      exact (BlockTree.grow_stored.1 h).resolve_left hx

/-- **A put of a new block** inserts its entry. -/
theorem Stands.put {gw : Gowaves} {l l' : Linkage} {t : BlockTree BlockID} (S : Stands gw l t) {p : Put}
    (h : l.exec gw p.call = .ok l') (hnew : ¬ t.Stored p.id) : ∃ t', Stands gw l' t' ∧ Kept l l' t t' ∧
      view l'.st t' = place (view l.st t) (p.entry gw l.st.scheme) ∧
      (view l.st t (p.entry gw l.st.scheme).base).isSome = true := by
  have R := S.refines
  cases p with
  | block b addr =>
    rcases R.putBlock_cases h with ⟨hs, -, -⟩ | ⟨s', ext, pb, nb, parents, G, hpb, hnb, rfl, -⟩
    · exact absurd hs hnew
    · obtain ⟨S', K⟩ := S.growth G
      obtain ⟨nd, hnd⟩ := G.parent_stored.node
      have hbase := view_of_num G.extended_num hnd hpb
      refine ⟨G.tree, S'.moveLeash _ _, K.trans (.moveLeash _ _ _ _), funext fun x => ?_, ?_⟩
      · refine (S.view_growth G x).trans ?_
        unfold place Put.entry
        rw [hbase, BlockTree.height_eq hnd]
        simp only [Option.map_some, hnb]
        rfl
      · show (view l.st t b.parent).isSome = true
        rw [hbase]; rfl
  | microBlock inv addr =>
    rcases R.putMicroBlock_cases h with ⟨hs, -, -⟩ | ⟨s', p, ext, rb, parents, G, hrb, hpar, rfl, -⟩
    · exact absurd hs hnew
    · obtain ⟨S', K⟩ := S.growth G
      obtain ⟨nd, hnd⟩ := G.extended_stored.node
      have hbase := view_of_num G.extended_num hnd hrb
      have hheight := (t.isRooted.step _ _ G.extended_stored hpar).2
      rw [BlockTree.height_eq hnd] at hheight
      rw [BlockTree.parent_eq hnd] at hpar
      refine ⟨G.tree, S'.moveLeash _ _, K.trans (.moveLeash _ _ _ _), funext fun x => ?_, ?_⟩
      · refine (S.view_growth G x).trans ?_
        unfold place Put.entry
        rw [hbase]
        simp only [Option.map_some, hpar, hheight]
      · show (view l.st t inv.reference).isSome = true
        rw [hbase]; rfl

/-- **Puts of new blocks** insert their entries one after the other. -/
theorem Stands.puts {gw : Gowaves} : ∀ {E : List Put} {l l' : Linkage} {t : BlockTree BlockID}, Stands gw l t →
    (E.map Put.call).foldlM (Linkage.exec gw) l = .ok l' → (∀ p ∈ E, ¬ t.Stored p.id) → (E.map Put.id).Nodup →
    ∃ t', Stands gw l' t' ∧ Kept l l' t t' ∧ Insertable (view l.st t) (E.map (Put.entry gw l.st.scheme)) ∧
      view l'.st t' = (E.map (Put.entry gw l.st.scheme)).foldl place (view l.st t)
  | [], l, l', t, S, h, _, _ => by
    cases h
    exact ⟨t, S, .refl l t, trivial, rfl⟩
  | p :: E, l, l', t, S, h, hnew, hnd => by
    rw [List.map_cons, List.foldlM_cons] at h
    obtain ⟨l1, h1, h⟩ := Go.bind_eq_ok.1 h
    rw [List.map_cons, List.nodup_cons] at hnd
    obtain ⟨t1, S1, K1, hview, hbase⟩ := S.put h1 (hnew p List.mem_cons_self)
    have hnew1 : ∀ q ∈ E, ¬ t1.Stored q.id := fun q hq => by
      rw [← S1.refines.view_eq_none, hview, Insertion.place_of_ne]
      · exact S.refines.view_eq_none.2 (hnew q (List.mem_cons_of_mem _ hq))
      · rw [Put.entry_key]
        exact fun he => hnd.1 (he ▸ List.mem_map_of_mem hq)
    obtain ⟨t', S', K', hins, hview'⟩ := Stands.puts S1 h hnew1 hnd.2
    rw [K1.scheme, hview] at hins hview'
    refine ⟨t', S', K1.trans K', ⟨?_, hbase, hins⟩, hview'⟩
    rw [Put.entry_key]
    exact S.refines.view_eq_none.2 (hnew p List.mem_cons_self)

/-! ## The leashes -/

/-- The block that the last call for a key names, if there is one. -/
def lastFor (key : Bytes) (calls : List Call) : Option BlockID :=
  ((calls.filter fun c => decide (addrKeyBytes c.addr = key)).map Call.id).getLast?

theorem getElem?_leashRecords {gw : Gowaves} (key : Bytes) : ∀ {calls : List Call} {l l' : Linkage},
    calls.foldlM (Linkage.exec gw) l = .ok l' →
    l'.st.leashRecords[key]? = (lastFor key calls).or l.st.leashRecords[key]?
  | [], _, _, h => by cases h; rfl
  | c :: calls, l, l', h => by
    rw [List.foldlM_cons] at h
    obtain ⟨l1, h1, h⟩ := Go.bind_eq_ok.1 h
    rw [getElem?_leashRecords key h, Linkage.leashRecords_exec h1, Go.getElem?_insert_eq]
    unfold lastFor
    by_cases hk : addrKeyBytes c.addr = key
    · rw [List.filter_cons_of_pos (by simpa using hk), List.map_cons, List.getLast?_cons, if_pos hk.symm]
      cases (calls.filter fun c => decide (addrKeyBytes c.addr = key)).map Call.id |>.getLast? <;> rfl
    · rw [List.filter_cons_of_neg (by simpa using hk), if_neg fun h => hk h.symm]

/-- With IPv4 peers, each of whose calls come in one order in both lists, so do the calls for each key. -/
theorem lastFor_eq {E E' : List Put} (hp : E.Perm E') (h4 : ∀ p ∈ E, p.addr.is4 = true)
    (hord : ∀ a : Addr, E.filter (fun p => decide (p.addr = a)) = E'.filter fun p => decide (p.addr = a))
    (key : Bytes) : lastFor key (E.map Put.call) = lastFor key (E'.map Put.call) := by
  have hfilter : E.filter (fun p => decide (addrKeyBytes p.addr = key)) =
      E'.filter fun p => decide (addrKeyBytes p.addr = key) := by
    by_cases hex : ∃ p ∈ E, addrKeyBytes p.addr = key
    · obtain ⟨p, hpE, rfl⟩ := hex
      have hsame : ∀ q : Put, decide (addrKeyBytes q.addr = addrKeyBytes p.addr) = decide (q.addr = p.addr) :=
        fun q => decide_eq_decide.2
          ⟨fun h => (eq_of_addrKeyBytes (h4 p hpE) h.symm).symm, fun h => by rw [h]⟩
      simp only [hsame]
      exact hord p.addr
    · have hnone : ∀ {F : List Put}, (∀ q ∈ F, q ∈ E) →
          F.filter (fun p => decide (addrKeyBytes p.addr = key)) = [] := fun hF =>
        List.filter_eq_nil_iff.2 fun q hq hk => hex ⟨q, hF q hq, of_decide_eq_true hk⟩
      rw [hnone fun q hq => hq, hnone fun q hq => hp.mem_iff.2 hq]
  unfold lastFor
  rw [List.filter_map, List.filter_map]
  exact congrArg (fun F => ((F.map Put.call).map Call.id).getLast?) hfilter

/-! ## Two orders -/

/-- **Two linkages with the same blocks**, whatever their numbers: every read by ID, and the blocks that links point to
and heads name. -/
structure SameBlocks (gw : Gowaves) (l l' : Linkage) : Prop where
  stored : ∀ x, l'.hasBlock x = l.hasBlock x
  record : ∀ x, l'.st.block x = l.st.block x
  block : ∀ x, l'.block gw x = l.block gw x
  parents : ∀ x k k', l.st.getLinkByID x = .ok k → l'.st.getLinkByID x = .ok k' →
    k'.height = k.height ∧ k'.parents.map l'.st.idOf = k.parents.map l.st.idOf
  lastIDs : ∀ x n, l'.lastIDs x n = l.lastIDs x n
  lca : ∀ x y, l'.st.lca x y = l.st.lca x y
  heads : ∃ hs hs', l.heads = .ok hs ∧ l'.heads = .ok hs' ∧
    ∀ x, x ∈ hs'.map Head.blockID ↔ x ∈ hs.map Head.blockID

structure SameLeashes (l l' : Linkage) : Prop where
  leash : ∀ a, l'.leash a = l.leash a
  leashes : l'.leashes = l.leashes

section
variable {gw : Gowaves} {l l' : Linkage} {t t' : BlockTree BlockID} (S : Stands gw l t) (S' : Stands gw l' t')
  (hview : view l'.st t' = view l.st t)
include S S' hview

theorem node_of_view (x : BlockID) : t'.node x = t.node x := by
  rw [← S.refines.map_fst_view, ← S'.refines.map_fst_view, hview]

theorem stored_of_view {x : BlockID} : t'.Stored x ↔ t.Stored x := by
  unfold BlockTree.Stored
  rw [node_of_view S S' hview]

theorem parent_of_view : t'.parent = t.parent := funext fun x => by
  unfold BlockTree.parent parentIn
  rw [node_of_view S S' hview]

theorem height_of_view (x : BlockID) : t'.height x = t.height x := by
  unfold BlockTree.height heightIn
  rw [node_of_view S S' hview]

/-- An ID that neither has is read alike. -/
theorem getNum_of_view {x : BlockID} (hx : ¬ t.Stored x) : l'.st.getNumOfBlockID x = l.st.getNumOfBlockID x := by
  unfold Storage.getNumOfBlockID
  rw [S.refines.nums_eq_none hx, S'.refines.nums_eq_none fun h => hx ((stored_of_view S S' hview).1 h)]

theorem hasBlock_of_view (x : BlockID) : l'.hasBlock x = l.hasBlock x := by
  by_cases hx : t.Stored x
  · exact (S'.refines.hasBlock_iff.2 ((stored_of_view S S' hview).2 hx)).trans (S.refines.hasBlock_iff.2 hx).symm
  · unfold Linkage.hasBlock Storage.hasBlock
    rw [getNum_of_view S S' hview hx]

theorem record_of_view (x : BlockID) : l'.st.block x = l.st.block x := by
  by_cases hx : t.Stored x
  · obtain ⟨nd, hnd⟩ := hx.node
    have hnd' : t'.node x = some nd := (node_of_view S S' hview x).trans hnd
    obtain ⟨n, b, k, r⟩ := S.refines.recorded x nd hnd
    obtain ⟨n', b', k', r'⟩ := S'.refines.recorded x nd hnd'
    have hv := view_of_num r.num hnd r.block
    rw [← hview, view_of_num r'.num hnd' r'.block] at hv
    cases hv
    exact (Storage.getBlockByID_eq_ok.2 ⟨n', r'.num, r'.block⟩).trans
      (Storage.getBlockByID_eq_ok.2 ⟨n, r.num, r.block⟩).symm
  · have hnum := getNum_of_view S S' hview hx
    unfold Storage.getNumOfBlockID at hnum
    unfold Storage.block Storage.getBlockByID Storage.getNumOfBlockID
    rw [hnum, S.refines.nums_eq_none hx]
    rfl

theorem lastIDs_of_view (x : BlockID) (n : Nat) : l'.lastIDs x n = l.lastIDs x n := by
  unfold Linkage.lastIDs
  by_cases hx : t.Stored x
  · rw [S.refines.getAncestors_eq hx, S'.refines.getAncestors_eq ((stored_of_view S S' hview).2 hx),
      parent_of_view S S' hview]
  · have hnum := getNum_of_view S S' hview hx
    unfold Storage.getNumOfBlockID at hnum
    unfold Storage.getAncestors Storage.getNumOfBlockID
    rw [hnum, S.refines.nums_eq_none hx]
    rfl

theorem link_of_view {x : BlockID} (hx : ¬ t.Stored x) :
    ∃ f, l.st.getLinkByID x = .error f ∧ l'.st.getLinkByID x = .error f := by
  have hnum := getNum_of_view S S' hview hx
  unfold Storage.getNumOfBlockID at hnum
  unfold Storage.getLinkByID Storage.getNumOfBlockID
  rw [hnum, S.refines.nums_eq_none hx]
  exact ⟨_, rfl, rfl⟩

theorem lca_of_view (x y : BlockID) : l'.st.lca x y = l.st.lca x y := by
  by_cases hx : t.Stored x
  · by_cases hy : t.Stored y
    · exact lca_congr S.refines S'.refines (fun z _ => node_of_view S S' hview z) hx hy
    · obtain ⟨f, hf, hf'⟩ := link_of_view S S' hview hy
      obtain ⟨kx, hkx⟩ := S.refines.exists_link hx
      obtain ⟨kx', hkx'⟩ := S'.refines.exists_link ((stored_of_view S S' hview).2 hx)
      unfold Storage.lca
      rw [hf, hf', hkx, hkx']
      cases f <;> rfl
  · obtain ⟨f, hf, hf'⟩ := link_of_view S S' hview hx
    unfold Storage.lca
    rw [hf, hf']
    cases f <;> rfl

theorem heads_of_view : ∃ hs hs', l.heads = .ok hs ∧ l'.heads = .ok hs' ∧
    ∀ x, x ∈ hs'.map Head.blockID ↔ x ∈ hs.map Head.blockID := by
  obtain ⟨hs, hhs, -, hmem⟩ := S.heads.listsLeaves S.refines
  obtain ⟨hs', hhs', -, hmem'⟩ := S'.heads.listsLeaves S'.refines
  refine ⟨hs, hs', hhs, hhs', fun x => ?_⟩
  rw [hmem x, hmem' x]
  unfold BlockTree.Leaf BlockTree.Extends
  rw [stored_of_view S S' hview]
  simp only [node_of_view S S' hview]

theorem sameBlocks_of_view : SameBlocks gw l l' := by
  refine ⟨hasBlock_of_view S S' hview, record_of_view S S' hview, fun x => ?_, fun x k k' hk hk' => ⟨?_, ?_⟩,
    lastIDs_of_view S S' hview, lca_of_view S S' hview, heads_of_view S S' hview⟩
  · unfold Linkage.block
    rw [record_of_view S S' hview x]
  · obtain ⟨-, -, -, hh, -⟩ := S.refines.getLinkByID hk
    obtain ⟨-, -, -, hh', -⟩ := S'.refines.getLinkByID hk'
    rw [hh, hh', height_of_view S S' hview x]
  · refine List.ext_getElem? fun i => ?_
    rw [S.refines.getElem?_parents hk, S'.refines.getElem?_parents hk', height_of_view S S' hview x,
      parent_of_view S S' hview]

end

/-- **The order in which new blocks arrive does not matter**: two orders in which all puts succeed leave the same
blocks, and the same leashes when the puts of each peer keep their order. -/
theorem run_reorder {gw : Gowaves} {scheme : Proto.Scheme} {genesis : Proto.Block} {l0 : Linkage}
    (h0 : newLinkage gw scheme genesis = .ok l0) (calls : List Call) {E E' : List Put} (hperm : E.Perm E')
    (hnew : ∀ p ∈ E, (l0.run gw calls).hasBlock p.id = .ok false) (hnd : (E.map Put.id).Nodup) {l l' : Linkage}
    (h : (E.map Put.call).foldlM (Linkage.exec gw) (l0.run gw calls) = .ok l)
    (h' : (E'.map Put.call).foldlM (Linkage.exec gw) (l0.run gw calls) = .ok l') :
    SameBlocks gw l l' ∧
    ((∀ p ∈ E, p.addr.is4 = true) →
      (∀ a : Addr, E.filter (fun p => decide (p.addr = a)) = E'.filter fun p => decide (p.addr = a)) →
      SameLeashes l l') := by
  obtain ⟨t, S, -⟩ := (stands_start h0).run calls
  have hnew1 : ∀ p ∈ E, ¬ t.Stored p.id := fun p hp hs => by
    have := hnew p hp
    rw [Linkage.hasBlock, S.refines.hasBlock_iff.2 hs] at this
    cases this
  have hnew2 : ∀ p ∈ E', ¬ t.Stored p.id := fun p hp => hnew1 p (hperm.mem_iff.2 hp)
  obtain ⟨t1, S1, K1, hins1, hview1⟩ := S.puts h hnew1 hnd
  obtain ⟨t2, S2, K2, hins2, hview2⟩ := S.puts h' hnew2 ((hperm.map Put.id).nodup_iff.1 hnd)
  refine ⟨sameBlocks_of_view S1 S2 ?_, fun h4 hord => ?_⟩
  · rw [hview1, hview2]
    exact (Insertion.foldl_place_perm (hperm.map _) hins1 hins2).symm
  · have hrecords : l'.st.leashRecords = l.st.leashRecords := by
      refine Std.ExtTreeMap.ext_getElem? fun key => ?_
      rw [getElem?_leashRecords key h, getElem?_leashRecords key h', lastFor_eq hperm h4 hord key]
    have hgenesis : l'.genesis = l.genesis := by
      rw [S1.genesis_eq, S2.genesis_eq, K1.root, K2.root]
    have hleash : ∀ a, l'.st.leash a = l.st.leash a := fun a => by
      rw [Storage.getLeash_eq, Storage.getLeash_eq, hrecords]
    refine ⟨fun a => ?_, ?_⟩
    · unfold Linkage.leash
      rw [hleash a, hgenesis]
    · unfold Linkage.leashes Storage.leashes
      rw [hrecords]

namespace Sample

def putKey (n p : UInt8) : Put := .block (block n p) (peer n)

def putMicro (n r : UInt8) : Put := .microBlock ⟨id n, id r⟩ (peer n)

end Sample

/-- Two branches, a micro-block on one of them: the branches in either order. -/
theorem run_reorder_sample : ∃ l0 l l', newLinkage Sample.gowaves 87 (Sample.block 1 0) = .ok l0 ∧
    ([Sample.putKey 2 1, Sample.putKey 3 1, Sample.putMicro 4 3].map Put.call).foldlM
      (Linkage.exec Sample.gowaves) l0 = .ok l ∧
    ([Sample.putKey 3 1, Sample.putMicro 4 3, Sample.putKey 2 1].map Put.call).foldlM
      (Linkage.exec Sample.gowaves) l0 = .ok l' ∧ SameBlocks Sample.gowaves l l' ∧ SameLeashes l l' := by
  obtain ⟨l0, h0⟩ := Go.exists_of_isOk (x := newLinkage Sample.gowaves 87 (Sample.block 1 0)) (by decide +kernel)
  obtain ⟨l, h⟩ := Go.exists_of_isOk (x := newLinkage Sample.gowaves 87 (Sample.block 1 0) >>=
    ([Sample.putKey 2 1, Sample.putKey 3 1, Sample.putMicro 4 3].map Put.call).foldlM (Linkage.exec Sample.gowaves))
    (by decide +kernel)
  obtain ⟨l', h'⟩ := Go.exists_of_isOk (x := newLinkage Sample.gowaves 87 (Sample.block 1 0) >>=
    ([Sample.putKey 3 1, Sample.putMicro 4 3, Sample.putKey 2 1].map Put.call).foldlM (Linkage.exec Sample.gowaves))
    (by decide +kernel)
  have hnew : (newLinkage Sample.gowaves 87 (Sample.block 1 0) >>= fun l0 =>
      .ok ([Sample.putKey 2 1, Sample.putKey 3 1, Sample.putMicro 4 3].all fun p =>
        decide (l0.hasBlock p.id = .ok false))) = (.ok true : Res Bool) := by decide +kernel
  rw [h0] at h h' hnew
  obtain ⟨hblocks, hleashes⟩ := run_reorder h0 [] (by decide)
    (fun p hp => of_decide_eq_true (List.all_eq_true.1 (Except.ok.inj hnew) p hp)) (by decide) h h'
  refine ⟨l0, l, l', h0, h, h', hblocks, hleashes (by decide) fun a => ?_⟩
  by_cases h2 : Sample.peer 2 = a
  · subst h2; decide
  · by_cases h3 : Sample.peer 3 = a
    · subst h3; decide
    · by_cases h4 : Sample.peer 4 = a
      · subst h4; decide
      · have hno : ∀ p ∈ [Sample.putKey 2 1, Sample.putKey 3 1, Sample.putMicro 4 3], ¬ decide (p.addr = a) = true := by
          simp [Put.addr, Put.call, Call.addr, Sample.putKey, Sample.putMicro, h2, h3, h4]
        rw [List.filter_eq_nil_iff.2 hno, List.filter_eq_nil_iff.2 fun p hp => hno p (by revert p; decide)]

end Chains
end ForkDetector
