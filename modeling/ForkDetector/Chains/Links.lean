import ForkDetector.Chains.Refinement
/-!
# Links — the skip pointers of the stored blocks

In every reachable state the link of a block of height `h` holds `⌈log₂ h⌉` numbers, the one at `l` that of its
`2^l`-th ancestor, and a micro-block shares the whole list of the block it references.
-/
namespace ForkDetector
namespace Chains

open Ancestry Lifting
open Proto (BlockID Gowaves)

/-- **What the links of a database say** of the block tree. -/
structure LinksWellFormed (s : Storage) (t : BlockTree BlockID) : Prop where
  stored : ∀ id, s.hasBlock id = .ok true ↔ t.Stored id
  records : ∀ id, t.Stored id → ∃ b k, s.getBlockByID id = .ok b ∧ s.getLinkByID id = .ok k ∧
    b.height = t.height id ∧ k.height = t.height id ∧ k.parents.length = Nat.clog 2 (t.height id)
  entry : ∀ id k l m, s.getLinkByID id = .ok k → k.parents[l]? = some m →
    ∃ a, up t.parent (2 ^ l) id = some a ∧ s.getNumOfBlockID a = .ok m ∧ 2 ^ l < t.height id ∧
      t.height a = t.height id - 2 ^ l
  genesis : ∃ k, s.getLinkByID t.root = .ok k ∧ t.height t.root = 1 ∧ k.parents = []
  keyBlock : ∀ id p nd, t.node id = some nd → nd.origin = .keyBlock p →
    t.parent id = some p ∧ t.Stored p ∧ t.height id = t.height p + 1
  microBlock : ∀ id r nd, t.node id = some nd → nd.origin = .microBlock r →
    t.parent id = t.parent r ∧ t.Stored r ∧ t.height id = t.height r ∧
      ∀ k kr, s.getLinkByID id = .ok k → s.getLinkByID r = .ok kr → k.parents = kr.parents

namespace Refines
variable {gw : Gowaves} {s : Storage} {t : BlockTree BlockID} (R : Refines gw s t)
include R

theorem getLinkByID {id : BlockID} {k : Link} (h : s.getLinkByID id = .ok k) :
    ∃ n, s.nums[id]? = some n ∧ s.links[n]? = some k ∧ k.height = t.height id ∧ k.blockID = id.bytes ∧
      IsSkips s.numParent n (t.height id) k.parents := by
  obtain ⟨n, hn, hk⟩ := Storage.getLinkByID_eq_ok.1 h
  obtain ⟨nd, b, k', hnd, r⟩ := R.of_num hn
  obtain rfl : k' = k := Option.some.inj (r.link.symm.trans hk)
  have hh : k'.height = t.height id := by rw [r.link_height, BlockTree.height_eq hnd]
  exact ⟨n, hn, hk, hh, r.link_id, hh ▸ R.skips n k' hk⟩

theorem exists_link {id : BlockID} (h : t.Stored id) : ∃ k, s.getLinkByID id = .ok k := by
  obtain ⟨n, hn⟩ := Option.isSome_iff_exists.1 (R.stored_iff.1 h)
  obtain ⟨nd, b, k, -, r⟩ := R.of_num hn
  exact ⟨k, Storage.getLinkByID_eq_ok.2 ⟨n, hn, r.link⟩⟩

theorem numParent_num {id : BlockID} {n : Nat} (h : s.nums[id]? = some n) :
    s.numParent n = (t.parent id).bind fun (p : BlockID) => s.nums[p]? := by
  obtain ⟨nd, b, k, hnd, r⟩ := R.of_num h
  rw [Storage.numParent_eq r.link, r.link_parent, BlockTree.parent_eq hnd]

theorem linksWellFormed : LinksWellFormed s t := by
  refine ⟨fun id => R.hasBlock_iff, fun id hid => ?_, fun id k l m hk hl => ?_, ?_, fun id p nd hnd ho => ?_,
    fun id r nd hnd ho => ?_⟩
  · obtain ⟨k, hk⟩ := R.exists_link hid
    obtain ⟨n, hn, -, hh, -, hsk⟩ := R.getLinkByID hk
    obtain ⟨nd, b, k', hnd, r⟩ := R.of_num hn
    exact ⟨b, k, Storage.getBlockByID_eq_ok.2 ⟨n, hn, r.block⟩, hk, by rw [r.block_height, BlockTree.height_eq hnd],
      hh, hsk.length_eq⟩
  · obtain ⟨n, hn, -, -, -, hsk⟩ := R.getLinkByID hk
    have hlt : l < k.parents.length := (List.getElem?_eq_some_iff.1 hl).1
    have hup : up s.numParent (2 ^ l) n = some m := by rw [← hsk.get_eq l hlt, hl]
    obtain ⟨a, ha, hua⟩ := R.up_num hn hup
    have hh := (t.isRooted.up_height (R.num_stored id n hn).1 hua).2
    exact ⟨a, hua, Storage.getNumOfBlockID_eq_ok.2 ha, hsk.lt_length.1 hlt, by omega⟩
  · obtain ⟨k, hk⟩ := R.exists_link t.isRooted.root_node
    obtain ⟨n, hn, -, -, -, hsk⟩ := R.getLinkByID hk
    refine ⟨k, hk, t.isRooted.height_root, List.length_eq_zero_iff.1 ?_⟩
    rw [hsk.length_eq, t.isRooted.height_root, Nat.clog_one_right]
  · have hp : t.parent id = some p := by
      rw [BlockTree.parent_eq hnd, t.parent_origin id nd hnd, ho]; rfl
    exact ⟨hp, t.isRooted.step id p (BlockTree.stored_of_node hnd) hp⟩
  · have hpar : t.parent id = t.parent r := by
      rw [BlockTree.parent_eq hnd, t.parent_origin id nd hnd, ho]; rfl
    have hid := BlockTree.stored_of_node hnd
    have hr : t.Stored r := t.extended_stored id nd r hnd (by rw [ho]; rfl)
    have hh : t.height id = t.height r := t.isRooted.height_eq_of_parent hid hr hpar
    refine ⟨hpar, hr, hh, fun k kr hk hkr => ?_⟩
    obtain ⟨n, hn, -, -, -, hsk⟩ := R.getLinkByID hk
    obtain ⟨nr, hnr, -, -, -, hskr⟩ := R.getLinkByID hkr
    have hnum : s.numParent n = s.numParent nr := by
      rw [R.numParent_num hn, R.numParent_num hnr, hpar]
    exact hsk.eq_of_parent hnum (hh ▸ hskr)

end Refines

/-- **The skip pointers of every reachable database.** -/
theorem reachable_links {gw : Gowaves} {scheme : Proto.Scheme} {genesis : Proto.Block} {l : Linkage}
    {t : BlockTree BlockID} (h : Reachable gw scheme genesis l t) : LinksWellFormed l.st t :=
  h.mirrors.refines.linksWellFormed

/-! ## A sample history -/

namespace Sample

/-- The address of the key of zeros on the main network. -/
def address : Proto.WavesAddress :=
  ⟨[1, 87, 59, 255, 44, 131, 203, 207, 26, 62, 55, 254, 170, 28, 217, 207, 246, 247, 200, 48, 182, 149, 174, 198, 49,
    226]⟩

def publicKey : Proto.PublicKey := List.replicate 32 0

/-- The address functions on the sample key and its address. -/
def gowaves : Gowaves where
  newAddressFromPublicKey scheme pk :=
    if scheme = 87 ∧ pk = publicKey then .ok address else .error (.text "no address")
  newAddressFromBytes b := if b = address.bytes then .ok address else .error (.text "invalid address")

def id (n : UInt8) : BlockID := ⟨n :: List.replicate 31 0, .inl rfl⟩

def block (n p : UInt8) : Proto.Block := ⟨id n, id p, 1700000000000, 100, publicKey⟩

def peer (n : UInt8) : Addr := Addr.from4 10 0 0 n

def key (n p : UInt8) : Call := .putBlock (block n p) (peer n)

def micro (n r : UInt8) : Call := .putMicroBlock ⟨id n, id r⟩ (peer n)

def after (calls : List Call) : Res Linkage := do
  let l ← newLinkage gowaves 87 (block 1 0)
  calls.foldlM (Linkage.call gowaves) l

def tree (calls : List Call) : BlockTree BlockID := calls.foldl BlockTree.call (.single (id 1))

theorem reachable {calls : List Call} {l : Linkage} (h : after calls = .ok l) :
    Reachable gowaves 87 (block 1 0) l (tree calls) := by
  obtain ⟨l0, h0, h⟩ := Go.bind_eq_ok.1 h
  exact (Reachable.start h0).run h

end Sample

/-- Two key blocks and a micro-block on the second. -/
theorem reachable_links_sample : ∃ l, Sample.after [Sample.key 2 1, Sample.key 3 2, Sample.micro 4 3] = .ok l ∧
    LinksWellFormed l.st (Sample.tree [Sample.key 2 1, Sample.key 3 2, Sample.micro 4 3]) := by
  obtain ⟨l, h⟩ := Go.exists_of_isOk (x := Sample.after [Sample.key 2 1, Sample.key 3 2, Sample.micro 4 3])
    (by decide +kernel)
  exact ⟨l, h, reachable_links (Sample.reachable h)⟩

end Chains
end ForkDetector
