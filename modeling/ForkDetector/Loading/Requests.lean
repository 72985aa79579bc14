import ForkDetector.Chains.Placing
import ForkDetector.Loading.Timeout
/-!
# Requests — what a list of IDs makes a peer's loader ask for

The known IDs that a list starts with move the leash of the peer, one after the other, and the rest of the list is
requested block by block.  A list of known IDs ends the batch.
-/
namespace ForkDetector
namespace Loading

open Proto (BlockID)
open Chains (Linkage)
open Machine (Control)

/-- A call of a reporter. -/
inductive Reported where
  | ok (st : State) (peer : Addr)
  | fail (st : State) (peer : Addr)
deriving DecidableEq

/-- A reporter that only records its calls. -/
def recorder : Reporter (List Reported) where
  OK st peer _ r := .ok (r ++ [.ok st peer], false)
  Fail st peer r := r ++ [.fail st peer]

/-- The length of the longest prefix of the IDs whose blocks are all stored. -/
def knownLength (hp : Linkage) (ids : List BlockID) : Nat := (ids.takeWhile fun id => hp.st.nums[id]?.isSome).length

/-- What makes a length the one of the longest prefix of known IDs. -/
structure KnownPrefix (hp : Linkage) (ids : List BlockID) (k : Nat) : Prop where
  le : k ≤ ids.length
  known : ∀ id ∈ ids.take k, hp.Has id
  longest : ∀ id, ids[k]? = some id → ¬ hp.Has id

/-- A linkage after the leash of a peer has followed some known blocks. -/
structure LeashFollowed (peer : Addr) (hp hp' : Linkage) (known : List BlockID) : Prop where
  leash : hp'.leash peer = known.getLast?.elim (hp.leash peer) .ok
  others : ∀ key : Bytes, key ≠ Chains.addrKeyBytes peer → hp'.st.leashRecords[key]? = hp.st.leashRecords[key]?
  rest : hp' = ⟨hp.genesis, { hp.st with leashRecords := hp'.st.leashRecords }⟩

/-- **What a list of IDs leads to**: the leash on the last block of the known prefix, a request for each ID after it in
their order, and the end of the batch when there is none. -/
structure Requests (s : PeerLoader (List Reported)) (ids : List BlockID) (k : Nat)
    (r : Settled (List Reported)) : Prop where
  no_error : r.err = none
  leash_moved : ∀ id, 0 < k → ids[k - 1]? = some id → r.world.hp.leash s.peer = .ok id
  leash_kept : k = 0 → r.world.hp.leash s.peer = s.hp.leash s.peer
  others : ∀ key : Bytes, key ≠ Chains.addrKeyBytes s.peer →
    r.world.hp.st.leashRecords[key]? = s.hp.st.leashRecords[key]?
  sent : r.world.sent = s.sent ++ (ids.drop k).map .block
  waits : k < ids.length → r.control = ⟨.waitingForBlocks, []⟩ ∧
    r.world.queue = (ids.drop k).map (fun id => ⟨id, none⟩) ∧ r.world.r = s.r
  ends : k = ids.length → r.control = ⟨.idle, []⟩ ∧ r.world.r = s.r ++ [.ok .idle s.peer]

/-! ## The known prefix -/

theorem knownPrefix_knownLength (hp : Linkage) : ∀ ids, KnownPrefix hp ids (knownLength hp ids)
  | [] => ⟨Nat.le_refl 0, (fun _ h => nomatch h), (fun _ h => nomatch h)⟩
  | id :: ids => by
    obtain ⟨hle, hknown, hlongest⟩ := knownPrefix_knownLength hp ids
    unfold knownLength at *
    rw [List.takeWhile_cons]
    cases hid : hp.st.nums[id]?.isSome with
    | true =>
      refine ⟨Nat.succ_le_succ hle, fun x hx => ?_, fun x hx => hlongest x hx⟩
      rcases List.mem_cons.1 hx with rfl | hx
      · exact hid
      · exact hknown x hx
    | false =>
      refine ⟨Nat.zero_le _, (fun x hx => nomatch hx), fun x hx hhas => ?_⟩
      obtain rfl := Option.some.inj hx
      rw [Linkage.Has, hid] at hhas
      cases hhas

theorem LeashFollowed.nil (peer : Addr) (hp : Linkage) : LeashFollowed peer hp hp [] :=
  ⟨rfl, fun _ _ => rfl, rfl⟩

/-- One more known block, on which the leash is already or to which it is moved. -/
theorem LeashFollowed.cons {peer : Addr} {hp hp' : Linkage} {id leash : BlockID} {known : List BlockID}
    (hl : hp.leash peer = .ok leash)
    (h : LeashFollowed peer (if id ≠ leash then hp.moveLeash id peer else hp) hp' known) :
    LeashFollowed peer hp hp' (id :: known) := by
  have hid : (if id ≠ leash then hp.moveLeash id peer else hp).leash peer = .ok id := by
    split
    · exact leash_moveLeash hp id peer
    · rename_i he
      rw [hl, not_not.1 he]
  have hothers : ∀ key : Bytes, key ≠ Chains.addrKeyBytes peer →
      (if id ≠ leash then hp.moveLeash id peer else hp).st.leashRecords[key]? = hp.st.leashRecords[key]? := by
    intro key hkey
    split
    · show (hp.st.leashRecords.insert (Chains.addrKeyBytes peer) id)[key]? = _
      rw [Go.getElem?_insert_eq, if_neg hkey]
    · rfl
  refine ⟨?_, fun key hkey => (h.others key hkey).trans (hothers key hkey), ?_⟩
  · rw [h.leash, hid, List.getLast?_cons]
    cases known.getLast? <;> rfl
  · rw [h.rest]
    split <;> rfl

theorem KnownPrefix.zero {hp : Linkage} {id : BlockID} {ids : List BlockID} {k : Nat}
    (h : KnownPrefix hp (id :: ids) k) (hid : ¬ hp.Has id) : k = 0 := by
  cases k with
  | zero => rfl
  | succ k => exact absurd (h.known id (by rw [List.take_succ_cons]; exact List.mem_cons_self)) hid

theorem KnownPrefix.succ {hp hp' : Linkage} {id : BlockID} {ids : List BlockID} {k : Nat}
    (h : KnownPrefix hp (id :: ids) k) (hid : hp.Has id) (hhas : ∀ x, hp'.Has x ↔ hp.Has x) :
    ∃ k', k = k' + 1 ∧ KnownPrefix hp' ids k' := by
  cases k with
  | zero => exact absurd hid (h.longest id rfl)
  | succ k =>
    refine ⟨k, rfl, Nat.le_of_succ_le_succ h.le, fun x hx => ?_, fun x hx => ?_⟩
    · refine (hhas x).2 (h.known x ?_)
      rw [List.take_succ_cons]
      exact List.mem_cons_of_mem _ hx
    · rw [hhas x]
      exact h.longest x hx

/-- **The loop over the IDs** stops behind the known prefix. -/
theorem skipKnown_spec {peer : Addr} : ∀ {ids : List BlockID} {k : Nat} {hp : Linkage}, KnownPrefix hp ids k →
    ∃ hp', skipKnown peer hp ids = .ok (hp', .ok (ids.drop k)) ∧ LeashFollowed peer hp hp' (ids.take k)
  | [], k, hp, _ => ⟨hp, by rw [List.drop_nil]; rfl, by rw [List.take_nil]; exact .nil peer hp⟩
  | id :: ids, k, hp, h => by
    have hhas : hp.hasBlock id = .ok hp.st.nums[id]?.isSome := Chains.Storage.hasBlock_eq hp.st id
    obtain ⟨leash, hl⟩ := exists_leash hp peer
    unfold skipKnown
    rw [hhas, hl]
    cases hid : hp.st.nums[id]?.isSome with
    | false =>
      obtain rfl := h.zero (by unfold Linkage.Has; rw [hid]; exact Bool.false_ne_true)
      exact ⟨hp, rfl, .nil peer hp⟩
    | true =>
      have hsame : ∀ x, (if id ≠ leash then hp.moveLeash id peer else hp).Has x ↔ hp.Has x := fun x => by
        split <;> rfl
      obtain ⟨k, rfl, hk⟩ := h.succ hid hsame
      obtain ⟨hp', hskip, hfollow⟩ := skipKnown_spec hk
      exact ⟨hp', hskip, hfollow.cons hl⟩

/-! ## The event -/

section
variable {ρ : Type} {env : Env} {rep : Reporter ρ} {s : PeerLoader ρ} {ids : List BlockID} {hp : Linkage}

theorem fire_requested {id : BlockID} {req : List BlockID}
    (h : skipKnown s.peer s.hp ids = .ok (hp, .ok (id :: req))) :
    PeerLoader.fire env rep ⟨.waitingForIDs, []⟩ (.ids ids) s = .ok (some (settled .waitingForBlocks { s with
      hp := hp, queue := newQueue (id :: req), sent := s.sent ++ (id :: req).map .block,
      timestamp := some env.now } none)) := by
  have hd : s.requestBlocks env ids = .ok ⟨{ s with
      hp := hp, queue := newQueue (id :: req), sent := s.sent ++ (id :: req).map .block,
      timestamp := some env.now }, [], none⟩ := Go.bind_eq_ok.2 ⟨_, h, rfl⟩
  refine (Machine.drain_cons ((Machine.fireOne_permit (d := State.waitingForBlocks) (a := Action.requestBlocks) rfl
    (by simp) rfl).2 ⟨_, hd, rfl⟩)).trans ?_
  exact Machine.drain_nil

theorem fire_known {r : ρ} (h : skipKnown s.peer s.hp ids = .ok (hp, .ok []))
    (hok : rep.OK .idle s.peer hp s.r = .ok (r, false)) :
    PeerLoader.fire env rep ⟨.waitingForIDs, []⟩ (.ids ids) s = .ok (some (settled .idle { s with
      hp := hp, r := r } none)) := by
  have hd : s.requestBlocks env ids = .ok ⟨{ s with hp := hp }, [.queueReady], none⟩ :=
    Go.bind_eq_ok.2 ⟨_, h, rfl⟩
  have hrep : PeerLoader.reportOK rep .idle { s with hp := hp } = .ok ⟨{ s with hp := hp, r := r }, [], none⟩ :=
    Go.bind_eq_ok.2 ⟨_, hok, rfl⟩
  have hone : Machine.fireOne config (PeerLoader.perform env rep) PeerLoader.unhandled ⟨.waitingForIDs, []⟩
      (.ids ids) s = .ok ⟨⟨.waitingForBlocks, [.queueReady]⟩, { s with hp := hp }, none⟩ :=
    (Machine.fireOne_permit (d := State.waitingForBlocks) (a := Action.requestBlocks) rfl (by simp) rfl).2
      ⟨_, hd, rfl⟩
  have htwo : Machine.fireOne config (PeerLoader.perform env rep) PeerLoader.unhandled ⟨.waitingForBlocks, []⟩
      .queueReady { s with hp := hp } = .ok ⟨⟨.idle, []⟩, { s with hp := hp, r := r }, none⟩ :=
    (Machine.fireOne_permit (d := State.idle) (a := Action.reportOK) rfl (by simp) rfl).2 ⟨_, hrep, rfl⟩
  refine (Machine.drain_cons hone).trans ((Machine.drain_cons htwo).trans ?_)
  exact Machine.drain_nil

end

/-- **A list of IDs in `WaitingForIDs`**, in any state of the storage: what it moves, requests and reports. -/
theorem ids_requested (env : Env) (s : PeerLoader (List Reported)) (ids : List BlockID) :
    ∃ r, PeerLoader.fire env recorder ⟨.waitingForIDs, []⟩ (.ids ids) s = .ok (some r) ∧
      Requests s ids (knownLength s.hp ids) r := by
  have hk := knownPrefix_knownLength s.hp ids
  generalize knownLength s.hp ids = k at hk
  obtain ⟨hp, hskip, hfollow⟩ : ∃ hp, skipKnown s.peer s.hp ids = _ ∧ _ := skipKnown_spec hk
  have hmoved : ∀ id, 0 < k → ids[k - 1]? = some id → hp.leash s.peer = .ok id := fun id hpos hid => by
    have hlast : (ids.take k).getLast? = some id := by
      rw [List.getLast?_take, if_neg (by omega), hid]
      rfl
    rw [hfollow.leash, hlast]
    rfl
  have hkept : k = 0 → hp.leash s.peer = s.hp.leash s.peer := fun h0 => by
    rw [hfollow.leash, h0, List.take_zero]
    rfl
  have hle := hk.le
  cases hdrop : ids.drop k with
  | nil =>
    have hall : k = ids.length := Nat.le_antisymm hle (List.drop_eq_nil_iff.1 hdrop)
    rw [hdrop] at hskip
    refine ⟨_, fire_known hskip rfl, rfl, hmoved, hkept, hfollow.others, ?_, fun hlt => ?_, fun _ => ⟨rfl, rfl⟩⟩
    · rw [hdrop]
      exact (List.append_nil _).symm
    · omega
  | cons id req =>
    have hlt : k < ids.length := by
      by_contra hge
      rw [List.drop_eq_nil_iff.2 (by omega)] at hdrop
      cases hdrop
    rw [hdrop] at hskip
    refine ⟨_, fire_requested hskip, rfl, hmoved, hkept, hfollow.others, ?_, fun _ => ⟨rfl, ?_, rfl⟩, fun hall => ?_⟩
    · rw [hdrop]
      rfl
    · rw [hdrop]
      rfl
    · omega

end Loading
end ForkDetector
