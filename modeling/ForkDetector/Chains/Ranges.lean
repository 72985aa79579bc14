import ForkDetector.Chains.Crash
import ForkDetector.Chains.Forks
import ForkDetector.Chains.Placing
/-!
# Ranges — the numbers that a put accepts and a read does not

`newBlock` panics on a base target above the largest `int64`, `putNewLinkForBlock` on a height that has wrapped to
zero, and `safeTimestamp` on a timestamp from the largest `int64` on: the first two when a block is put, the last when
it is read.  A micro-block copies the timestamp of the block it references, and `getBlocks` reads the ancestors too.
-/
namespace ForkDetector
namespace Chains

open Ancestry
open Proto (BlockID Gowaves MicroBlockInv)

/-- The timestamps of a block and of its ancestors are below the largest `int64`. -/
def InTime (l : Linkage) (t : BlockTree BlockID) (x : BlockID) : Prop :=
  ∀ a, Anc t.parent a x → l.timestampOf a < 9223372036854775807

theorem inTime_iff {l : Linkage} {t : BlockTree BlockID} {x : BlockID} : InTime l t x ↔
    l.timestampOf x < 9223372036854775807 ∧ ∀ p, t.parent x = some p → InTime l t p := by
  unfold InTime
  constructor
  · intro h
    exact ⟨h x (.refl x), fun p hp a ha => h a (.of_parent hp ha)⟩
  · rintro ⟨hx, hp⟩ a ha
    rcases anc_iff_parent.1 ha with rfl | ⟨p, hxp, ha⟩
    · exact hx
    · exact hp p hxp a ha

/-! ## Reads -/

theorem timestampOf_num {l : Linkage} {x : BlockID} {n : Nat} {b : StoredBlock} (hn : l.st.nums[x]? = some n)
    (hb : l.st.blocks[n]? = some b) : l.timestampOf x = b.timestamp.toNat := by
  have hx : l.st.block x = .ok b := Storage.getBlockByID_eq_ok.2 ⟨n, hn, hb⟩
  unfold Linkage.timestampOf
  rw [hx]

theorem Linkage.block_eq {gw : Gowaves} {l : Linkage} {x : BlockID} {b : StoredBlock} (h : l.st.block x = .ok b) :
    l.block gw x = b.toBlock gw "failed to get block" := by
  unfold Linkage.block
  rw [h]
  rfl

namespace Recorded
variable {gw : Gowaves} {l : Linkage} {x : BlockID} {nd : Node BlockID} {n : Nat} {b : StoredBlock} {k : Link}
  (r : Recorded gw l.st x nd n b k)
include r

theorem timestampOf_eq : l.timestampOf x = b.timestamp.toNat := timestampOf_num r.num r.block

/-- A record is handed out, unless its timestamp is too large. -/
theorem toBlock_cases (hgw : gw.RoundTrips) (msg : String) :
    (b.timestamp.toNat < 9223372036854775807 ∧ ∃ bb, b.toBlock gw msg = .ok bb) ∨
    (¬ b.timestamp.toNat < 9223372036854775807 ∧ b.toBlock gw msg = Go.panic "timestamp is too large") := by
  obtain ⟨pk, a, ha, hga⟩ := r.generator
  have hid : Go.wrap msg (Proto.newBlockIDFromBytes b.id) = .ok x := by simp [r.block_id]
  have hgen : Go.wrap msg (Go.lift (gw.newAddressFromBytes b.generator)) = .ok a := by
    rw [hga, hgw _ pk a ha]; rfl
  obtain ⟨pid, hpid⟩ : ∃ pid, (if b.parent.length > 0 then Go.wrap msg (Proto.newBlockIDFromBytes b.parent)
      else .ok .zero : Res BlockID) = .ok pid := by
    rw [r.block_parent]
    cases nd.parent with
    | none => exact ⟨.zero, rfl⟩
    | some p => exact ⟨p, by simp [List.length_pos_of_ne_nil p.bytes_ne_nil]⟩
  unfold StoredBlock.toBlock
  rw [hid, hpid, hgen]
  by_cases hlt : b.timestamp.toNat < 9223372036854775807
  · have hsafe : safeTimestamp b.timestamp = .ok (b.timestamp.toNat : Int) := if_pos hlt
    rw [hsafe]
    exact .inl ⟨hlt, _, rfl⟩
  · have hsafe : safeTimestamp b.timestamp = Go.panic "timestamp is too large" := if_neg hlt
    rw [hsafe]
    exact .inr ⟨hlt, rfl⟩

end Recorded

namespace Refines
variable {gw : Gowaves} {l : Linkage} {t : BlockTree BlockID} (R : Refines gw l.st t) (hgw : gw.RoundTrips)
include R hgw

end Refines

/-! ## A put of a new block -/

/-- **The outcomes of `newBlock`**: no address, a base target out of range, or a record. -/
theorem newBlock_cases (gw : Gowaves) (scheme : Proto.Scheme) (b : Proto.Block) (h : Nat) (ps : Int) :
    (∃ e, gw.newAddressFromPublicKey scheme b.generatorPublicKey = .error e ∧
      newBlock gw scheme b h (some ps) = Go.fail (.wrap "failed to create new block" e)) ∨
    (∃ ga, gw.newAddressFromPublicKey scheme b.generatorPublicKey = .ok ga ∧
      9223372036854775807 < b.baseTarget.toNat ∧
      newBlock gw scheme b h (some ps) = Go.panic "base target is too big") ∨
    ∃ ga nb, gw.newAddressFromPublicKey scheme b.generatorPublicKey = .ok ga ∧
      b.baseTarget.toNat ≤ 9223372036854775807 ∧ newBlock gw scheme b h (some ps) = .ok nb ∧ nb.height = h ∧
      nb.timestamp = b.timestamp := by
  unfold newBlock calculateCumulativeScore calculateScore
  cases ha : gw.newAddressFromPublicKey scheme b.generatorPublicKey with
  | error e => exact .inl ⟨e, rfl, rfl⟩
  | ok ga =>
    by_cases h0 : b.baseTarget = 0
    · simp only [h0, if_true]
      exact .inr (.inr ⟨ga, _, rfl, by simp, rfl, rfl, rfl⟩)
    · by_cases hbt : b.baseTarget.toNat > 9223372036854775807
      · simp only [h0, hbt, if_true, if_false]
        exact .inr (.inl ⟨ga, rfl, trivial, rfl⟩)
      · simp only [h0, hbt, if_false]
        exact .inr (.inr ⟨ga, _, rfl, by omega, rfl, rfl, rfl⟩)

namespace Refines
variable {gw : Gowaves} {l : Linkage} {t : BlockTree BlockID} (R : Refines gw l.st t)
include R

theorem putBlock_stored {b : Proto.Block} {addr : Addr} (hs : t.Stored b.blockID) :
    l.putBlock gw b addr = .ok (l.moveLeash b.blockID addr) := by
  unfold Linkage.putBlock
  rw [R.hasBlock_iff.2 hs]
  rfl

/-- A new block on a stored parent goes on to the database. -/
theorem putBlock_new {b : Proto.Block} {addr : Addr} (hn : ¬ t.Stored b.blockID) (hp : t.Stored b.parent) :
    l.putBlock gw b addr = (do
      let st ← l.st.putProtoBlock gw b
      .ok { l with st := st.updateLeash addr b.blockID }) := by
  unfold Linkage.putBlock
  rw [Storage.hasBlock_eq, Storage.hasBlock_eq, R.nums_eq_none hn, R.stored_iff.1 hp]
  rfl

omit R in
theorem putProtoBlock_on {b : Proto.Block} {pn : Nat} {pb : StoredBlock} (hpn : l.st.nums[b.parent]? = some pn)
    (hpb : l.st.blocks[pn]? = some pb) :
    l.st.putProtoBlock gw b = (do
      let nb ← Go.wrap "failed to put block"
        (newBlock gw l.st.scheme b ((pb.height + 1) % 2 ^ 32) (some pb.score))
      let link ← Go.wrap "failed to put block"
        (l.st.putNewLinkForBlock (l.st.blocksCounter + 1) b.blockID nb.height b.parent)
      let head ← Go.wrap "failed to put block" (l.st.putHead (l.st.blocksCounter + 1) pn)
      .ok (l.st.write ([.putBlocksCounter (l.st.blocksCounter + 1), .putID b.blockID (l.st.blocksCounter + 1),
        .putBlock (l.st.blocksCounter + 1) nb] ++ link ++ head))) := by
  unfold Storage.putProtoBlock
  rw [Storage.getNumOfBlockID_eq_ok.2 hpn]
  simp only [Go.wrap_ok, bind, Except.bind]
  rw [Storage.getBlock_eq_ok.2 hpb]
  rfl

/-- **The outcomes of a put of a new block on a stored parent.** -/
theorem putBlock_outcomes {b : Proto.Block} (addr : Addr) (hn : ¬ t.Stored b.blockID) (hp : t.Stored b.parent) :
    (∃ e e', gw.newAddressFromPublicKey l.st.scheme b.generatorPublicKey = .error e ∧
      l.putBlock gw b addr = .error (.err e')) ∨
    (∃ ga msg, gw.newAddressFromPublicKey l.st.scheme b.generatorPublicKey = .ok ga ∧
      ¬ (b.baseTarget.toNat ≤ 9223372036854775807 ∧ t.height b.parent + 1 < 2 ^ 32) ∧
      l.putBlock gw b addr = .error (.panic msg)) ∨
    ∃ ga l', gw.newAddressFromPublicKey l.st.scheme b.generatorPublicKey = .ok ga ∧
      b.baseTarget.toNat ≤ 9223372036854775807 ∧ t.height b.parent + 1 < 2 ^ 32 ∧ l.putBlock gw b addr = .ok l' := by
  obtain ⟨pn, hpn⟩ := Option.isSome_iff_exists.1 (R.stored_iff.1 hp)
  obtain ⟨nd, pb, k, hnd, r⟩ := R.of_num hpn
  have hheight : pb.height = t.height b.parent := by rw [r.block_height, BlockTree.height_eq hnd]
  have hlt := R.height_lt b.parent
  rw [R.putBlock_new hn hp, putProtoBlock_on hpn r.block]
  rcases newBlock_cases gw l.st.scheme b ((pb.height + 1) % 2 ^ 32) pb.score with
    ⟨e, ha, hnb⟩ | ⟨ga, ha, hbt, hnb⟩ | ⟨ga, nb, ha, hbt, hnb, hnbh, -⟩
  · rw [hnb]
    exact .inl ⟨e, _, ha, rfl⟩
  · rw [hnb]
    exact .inr (.inl ⟨ga, _, ha, fun h => by omega, rfl⟩)
  · rw [hnb]
    by_cases h0 : nb.height = 0
    · -- the height has wrapped
      have hlink : l.st.putNewLinkForBlock (l.st.blocksCounter + 1) b.blockID nb.height b.parent =
          Go.panic "makeslice: cap out of range" := by
        unfold Storage.putNewLinkForBlock Storage.maxParents
        rw [Storage.getNumOfBlockID_eq_ok.2 hpn, h0]
        rfl
      simp only [Go.wrap_ok, bind, Except.bind]
      rw [hlink]
      exact .inr (.inl ⟨ga, _, ha, fun h => by omega, rfl⟩)
    · obtain ⟨parents, hps⟩ := R.exists_collectParents (Nat.clog 2 nb.height) 0 (R.hasLink hpn)
      have hlink : l.st.putNewLinkForBlock (l.st.blocksCounter + 1) b.blockID nb.height b.parent = .ok _ :=
        Storage.putNewLinkForBlock_eq_ok.2 ⟨pn, parents, hpn, h0, hps, rfl⟩
      simp only [Go.wrap_ok, bind, Except.bind]
      rw [hlink, Storage.putHead_eq]
      exact .inr (.inr ⟨ga, _, ha, hbt, by omega, rfl⟩)

end Refines

/-! ## What stays of it -/

/-- The block `x`, and the micro-blocks built on it. -/
inductive Copies (t : BlockTree BlockID) (x : BlockID) : BlockID → Prop where
  | self : Copies t x x
  | micro {y r : BlockID} {nd : Node BlockID} : Copies t x r → t.node y = some nd → nd.origin = .microBlock r →
      Copies t x y

theorem Kept.timestampOf {gw : Gowaves} {l l' : Linkage} {t t' : BlockTree BlockID} (K : Kept l l' t t')
    (S : Stands gw l t) {x : BlockID} (hx : t.Stored x) : l'.timestampOf x = l.timestampOf x := by
  unfold Linkage.timestampOf
  rw [K.getBlock S hx]

theorem Kept.inTime_iff {gw : Gowaves} {l l' : Linkage} {t t' : BlockTree BlockID} (K : Kept l l' t t')
    (S : Stands gw l t) {x : BlockID} (hx : t.Stored x) : InTime l' t' x ↔ InTime l t x := by
  unfold InTime
  constructor
  · intro h a ha
    rw [← K.timestampOf S (t.isRooted.anc_node hx ha)]
    exact h a ((K.agree.anc_iff hx).2 ha)
  · intro h a ha
    have ha := (K.agree.anc_iff hx).1 ha
    rw [K.timestampOf S (t.isRooted.anc_node hx ha)]
    exact h a ha

/-- A block just inserted has the timestamp of its record. -/
theorem Growth.timestampOf {gw : Gowaves} {l : Linkage} {s' : Storage} {t : BlockTree BlockID} {id p e : BlockID}
    {origin : Origin BlockID} {ext : Nat} {b : StoredBlock} {parents : List Nat}
    (G : Growth gw l.st s' t id p e origin ext b parents) (addr : Addr) :
    ((⟨l.genesis, s'⟩ : Linkage).moveLeash id addr).timestampOf id = b.timestamp.toNat := by
  obtain ⟨-, -, hnums, hblocks, -, -⟩ := G.inserted.fields
  refine timestampOf_num (n := l.st.blocksCounter + 1) ?_ ?_
  · show s'.nums[id]? = _
    rw [hnums, Go.getElem?_insert_eq, if_pos rfl]
  · show s'.blocks[l.st.blocksCounter + 1]? = _
    rw [hblocks, Go.getElem?_insert_eq, if_pos rfl]

/-- The only node that a growth adds. -/
theorem Growth.node_of_new {gw : Gowaves} {s s' : Storage} {t : BlockTree BlockID} {id p e : BlockID}
    {origin : Origin BlockID} {ext : Nat} {b : StoredBlock} {parents : List Nat}
    (G : Growth gw s s' t id p e origin ext b parents) {y : BlockID} {nd : Node BlockID} (hy : G.tree.node y = some nd)
    (hn : ¬ t.Stored y) : y = id ∧ nd.origin = origin := by
  have hyid : y = id := (BlockTree.grow_stored.1 (BlockTree.stored_of_node hy)).resolve_right hn
  subst hyid
  rw [show G.tree.node y = _ from BlockTree.grow_node_self] at hy
  cases hy
  exact ⟨rfl, rfl⟩

namespace Reachable
variable {gw : Gowaves} {scheme : Proto.Scheme} {genesis : Proto.Block} {l l' : Linkage} {t : BlockTree BlockID}

theorem kept_call (h : Reachable gw scheme genesis l t) {c : Call} (hc : l.call gw c = .ok l') :
    Kept l l' t (t.call c) := by
  rcases h.mirrors.call_cases hc with ⟨id, addr, -, rfl, ht⟩ | ⟨s', id, p, e, origin, ext, b, parents, addr, G, rfl, ht⟩
  · rw [ht]
    exact .moveLeash l t id addr
  · rw [ht]
    have K := (h.stands.growth G).2
    exact ⟨K.node, K.num, K.block, K.scheme, K.root⟩

theorem kept_run : ∀ {calls : List Call} {l l' : Linkage} {t : BlockTree BlockID}, Reachable gw scheme genesis l t →
    calls.foldlM (Linkage.call gw) l = .ok l' → Kept l l' t (calls.foldl BlockTree.call t)
  | [], l, _, t, _, h => by
    cases h
    exact .refl l t
  | c :: calls, l, l', t, hr, h => by
    rw [List.foldlM_cons] at h
    obtain ⟨l1, h1, h⟩ := Go.bind_eq_ok.1 h
    exact (hr.kept_call h1).trans (kept_run (.call c hr h1) h)

/-- **A micro-block has the timestamp and the parent of the block it references.** -/
theorem copied (h : Reachable gw scheme genesis l t) : ∀ {y r : BlockID} {nd : Node BlockID}, t.node y = some nd →
    nd.origin = .microBlock r → t.Stored r ∧ l.timestampOf y = l.timestampOf r ∧ t.parent y = t.parent r := by
  induction h with
  | start _ =>
    intro y r nd hy ho
    simp only [BlockTree.single] at hy
    split at hy
    · cases hy; cases ho
    · cases hy
  | @call l l' t c h hc ih =>
    intro y r nd hy ho
    have hr : (t.call c).Stored r := (t.call c).extended_stored y nd r hy (by rw [ho]; rfl)
    refine ⟨hr, ?_, ?_⟩
    · by_cases hys : t.Stored y
      · -- both were there before
        have K := h.kept_call hc
        rw [K.node y hys] at hy
        obtain ⟨hrs, hts, -⟩ := ih hy ho
        rw [K.timestampOf h.stands hys, K.timestampOf h.stands hrs, hts]
      · cases c with
        | putBlock b addr =>
          rcases h.mirrors.refines.putBlock_cases hc with ⟨-, -, ht⟩ | ⟨s', ext, pb, nb, parents, G, -, -, -, ht⟩
          · rw [show t.call (.putBlock b addr) = t from ht] at hy
            exact absurd (BlockTree.stored_of_node hy) hys
          · rw [show t.call (.putBlock b addr) = G.tree from ht] at hy
            obtain ⟨-, horigin⟩ := G.node_of_new hy hys
            rw [ho] at horigin
            cases horigin
        | putMicroBlock inv addr =>
          rcases h.mirrors.refines.putMicroBlock_cases hc with
            ⟨-, -, ht⟩ | ⟨s', p, ext, rb, parents, G, hrb, -, rfl, ht⟩
          · rw [show t.call (.putMicroBlock inv addr) = t from ht] at hy
            exact absurd (BlockTree.stored_of_node hy) hys
          · rw [show t.call (.putMicroBlock inv addr) = G.tree from ht] at hy
            obtain ⟨rfl, horigin⟩ := G.node_of_new hy hys
            rw [ho] at horigin
            cases horigin
            rw [G.timestampOf addr, (h.kept_call hc).timestampOf h.stands G.extended_stored,
              timestampOf_num G.extended_num hrb]
        | moveLeash id addr => exact absurd (BlockTree.stored_of_node hy) hys
    · rw [BlockTree.parent_eq hy, (t.call c).parent_origin y nd hy, ho]
      rfl

end Reachable

/-! ## The blocks that a linkage can take -/

namespace Sample

/-- A block with the timestamp `2^64 - 1`. -/
def late : Proto.Block := ⟨id 2, id 1, 18446744073709551615, 100, publicKey⟩

end Sample

end Chains
end ForkDetector
