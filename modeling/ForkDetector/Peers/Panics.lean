import ForkDetector.Peers.Listing
/-!
# Panics — the operations of the registry that end the process

The registry answers every operation with an error or without one, whatever is stored.  Two operations panic instead:
`RegisterPeer` reads the last byte of the application name, which a handshake may leave empty, and `SuggestVersion` the
first of the versions, of which there may be none.
-/
namespace ForkDetector
namespace Peers

open Proto (Version Handshake Conn)
open Go (NoPanic NoError)

/-- The addresses of the operation are what texts parse to. -/
def Op.Parsed : Op → Prop
  | .suggestVersion _ addr | .registerPeer _ addr _ _ | .unregisterPeer _ addr | .updatePeerScore addr _ =>
    addr.bytes ≠ []
  | .appendAddresses _ | .takeAvailableAddresses _ => True
  | .markAsHostile addr => ∀ a, addr = some a → a.bytes ≠ []

/-- **A version for a peer, when there is none**, or a handshake with an empty name of the application, of a peer that
the other version does not make hostile. -/
def Registry.Panics (cmpMinor : Version → Version → Int) (r : Registry) : Op → Prop
  | .suggestVersion _ addr => r.versions = [] ∧ ((∃ e, r.storage.peer addr = .error (.err e) ∧ e.is .notFound = true) ∨
      ∃ p, r.storage.peer addr = .ok p ∧ p.state = .unknown)
  | .registerPeer _ addr np _ => addr.is4 = true ∧ addr ≠ r.declared ∧ np.handshake.appName = [] ∧
      ∃ p, r.lookUp addr = some p ∧ cmpMinor np.handshake.version p.version < 2
  | _ => False

/-! ## The storage -/

theorem Storage.peer_noPanic {s : Storage} {a : Addr} (ha : a.bytes ≠ []) : NoPanic (s.peer a) := by
  unfold Storage.peer
  rw [keyBytes_of_valid ha]
  refine .bind (.of_ok rfl) fun k _ => ?_
  split
  · exact .fail _
  · exact .of_ok rfl
  · split
    · exact .fail _
    · exact .of_ok rfl

theorem bytes_ne_nil_of_is4 {a : Addr} (h4 : a.is4 = true) : a.bytes ≠ [] := fun he => by
  have := of_decide_eq_true h4
  rw [he] at this
  cases this

theorem Storage.putPeer_noPanic (s : Storage) (p : Peer) : NoPanic (s.putPeer p) := by
  unfold Storage.putPeer
  split
  · exact .fail _
  · rename_i h4
    split
    · exact .bind (.of_ok (keyBytes_of_is4 (by simpa using h4))) fun _ _ => .of_ok rfl
    · exact .fail _

namespace Registry
variable {cmpMinor : Version → Version → Int} {now : Int} {r : Registry} {addr : Addr} {np : Conn} {hs : Handshake}

theorem exists_store (r : Registry) (p : Peer) : ∃ a, r.store p = .ok a := by
  unfold store
  cases h : r.storage.putPeer p with
  | ok s => exact ⟨_, rfl⟩
  | error f =>
    cases f with
    | err e => exact ⟨_, rfl⟩
    | panic msg => exact absurd h (r.storage.putPeer_noPanic p msg)

theorem listConnections_noPanic (h4 : OnlyIPv4 r) {byName : Peer → Peer → Bool} (srt : Go.UnstableSort Peer byName)
    (rng : Go.MapRange Addr Conn) : NoPanic (r.listConnections rng srt) := by
  refine .bind (.mapM fun e he => .bind (Go.noPanic_wrap.2 (Storage.peer_noPanic (bytes_ne_nil_of_is4 (h4 e.1 ?_))))
    fun _ _ => .of_ok rfl) fun _ _ => .of_ok rfl
  rw [mem_connections.1 (show (e.1, e.2) ∈ _ from (rng.perm _).mem_iff.1 he)]
  simp

/-! ## The operations that answer -/

theorem exists_updatePeerScore (h : addr.bytes ≠ []) (score : Int) : ∃ a, r.updatePeerScore addr score = .ok a := by
  unfold updatePeerScore
  split
  · rename_i msg hp
    exact absurd hp (Storage.peer_noPanic h msg)
  · exact ⟨_, rfl⟩
  · exact exists_store _ _

theorem exists_unregisterPeer (h : addr.bytes ≠ []) (now : Int) : ∃ a, r.unregisterPeer now addr = .ok a := by
  unfold unregisterPeer
  split
  · rename_i msg hp
    exact absurd hp (Storage.peer_noPanic h msg)
  · exact ⟨_, rfl⟩
  · exact exists_store _ _

theorem exists_markAsHostile {o : Option Addr} (h : ∀ a, o = some a → a.bytes ≠ []) :
    ∃ a, r.markAsHostile o = .ok a := by
  unfold markAsHostile
  split
  · exact ⟨_, rfl⟩
  · rename_i a
    simp only
    split
    · rename_i msg hp
      exact absurd hp (Storage.peer_noPanic (h a rfl) msg)
    · split
      · exact ⟨_, rfl⟩
      · exact exists_store _ _
    · exact exists_store _ _

/-! ## The operations that panic -/

theorem index_noError {α : Type} (xs : List α) (i : Nat) : NoError (Go.index xs i : Res α) := fun e h => by
  unfold Go.index at h
  split at h <;> cases h

theorem bestVersion_noPanic_iff {vs : List Version} : NoPanic (bestVersion vs) ↔ vs ≠ [] := by
  cases vs with
  | nil => exact iff_of_false (Go.not_noPanic _) (by simp)
  | cons v vs => exact iff_of_true (.of_ok rfl) (by simp)

theorem nextVersion_noPanic_iff {vs : List Version} (v : Version) : NoPanic (nextVersion vs v) ↔ vs ≠ [] := by
  cases vs with
  | nil => exact iff_of_false (Go.not_noPanic _) (by simp)
  | cons w vs =>
    refine iff_of_true ?_ (by simp)
    unfold nextVersion
    simp only
    split
    · exact .of_ok rfl
    · exact .of_ok (Go.index_eq_ok.2 (List.getElem?_eq_getElem (by omega)))

theorem nextVersion_noError (vs : List Version) (v : Version) : NoError (nextVersion vs v) := by
  unfold nextVersion
  dsimp only
  split
  · exact index_noError _ _
  · exact index_noError _ _

theorem suggestVersion_noPanic_iff (h : addr.bytes ≠ []) :
    NoPanic (r.suggestVersion now addr) ↔ ¬ r.Panics cmpMinor (.suggestVersion now addr) := by
  have hstore : ∀ (wrap : Go.Err Sentinel → Go.Err Sentinel) (v : Version) (p : Peer),
      NoPanic (do let a ← r.store p; .ok (answerVersion wrap v a) : Res (Answer Version)) := fun wrap v p => by
    obtain ⟨a, ha⟩ := exists_store r p
    exact .bind (.of_ok ha) fun _ _ => .of_ok rfl
  unfold suggestVersion Panics
  cases hp : r.storage.peer addr with
  | error f =>
    cases f with
    | panic msg => exact absurd hp (Storage.peer_noPanic h msg)
    | err e =>
      cases hn : e.is .notFound with
      | false => exact iff_of_true (by simp only [hn]; exact .of_ok rfl) (by simp [hp, hn])
      | true =>
        simp only [hn, Bool.not_true, Bool.false_eq_true, if_false]
        rw [Go.noPanic_bind_iff fun v => hstore _ v _, bestVersion_noPanic_iff]
        simp [hp, hn]
  | ok p =>
    simp only
    cases hst : p.state with
    | unknown =>
      rw [Go.noPanic_bind_iff fun v => hstore _ v _, nextVersion_noPanic_iff]
      simp [hp, hst]
    | connected | hostile | other => exact iff_of_true (.of_ok rfl) (by simp [hp, hst])

theorem judge_noPanic_iff {p : Peer} : NoPanic (r.judge cmpMinor now p addr np hs) ↔
    ¬ (cmpMinor np.handshake.version p.version < 2 ∧ np.handshake.appName = []) := by
  have hstore : ∀ (r : Registry) (p : Peer) (closed : Bool),
      NoPanic (do let a ← r.store p; .ok (closed, a) : Res (Bool × Answer Unit)) := fun r p closed => by
    obtain ⟨a, ha⟩ := exists_store r p
    exact .bind (.of_ok ha) fun _ _ => .of_ok rfl
  unfold judge
  by_cases hm : cmpMinor np.handshake.version p.version ≥ 2
  · rw [if_pos hm]
    exact iff_of_true (hstore _ _ _) fun h => absurd h.1 (Int.not_lt.2 hm)
  · rw [if_neg hm]
    cases happ : np.handshake.appName.getLast? with
    | none => exact iff_of_false (Go.not_noPanic _) (not_not.2 ⟨Int.not_le.1 hm, List.getLast?_eq_none_iff.1 happ⟩)
    | some c =>
      refine iff_of_true ?_ fun h => ?_
      · simp only
        split
        · exact hstore _ _ _
        · split
          · exact .of_ok rfl
          · exact hstore _ _ _
      · rw [h.2] at happ
        cases happ

theorem judge_noError {p : Peer} : NoError (r.judge cmpMinor now p addr np hs) := by
  have hstore : ∀ (r : Registry) (p : Peer) (closed : Bool),
      NoError (do let a ← r.store p; .ok (closed, a) : Res (Bool × Answer Unit)) := fun r p closed => by
    obtain ⟨a, ha⟩ := exists_store r p
    exact .bind (.of_ok ha) fun _ _ => .of_ok rfl
  unfold judge
  split
  · exact hstore _ _ _
  · split
    · exact .panic _
    · split
      · exact hstore _ _ _
      · split
        · exact .of_ok rfl
        · exact hstore _ _ _

theorem registerPeer_noError : NoError (r.registerPeer cmpMinor now addr np hs) := by
  unfold registerPeer
  simp only [show ¬ Peer.zero.state = .hostile by decide, if_false]
  split
  · exact .of_ok rfl
  · split
    · exact .of_ok rfl
    · split
      · exact .panic _
      · split
        · exact .of_ok rfl
        · exact judge_noError
      · exact judge_noError

theorem suggestVersion_noError : NoError (r.suggestVersion now addr) := by
  have hstore : ∀ (wrap : Go.Err Sentinel → Go.Err Sentinel) (v : Version) (p : Peer),
      NoError (do let a ← r.store p; .ok (answerVersion wrap v a) : Res (Answer Version)) := fun wrap v p => by
    obtain ⟨a, ha⟩ := exists_store r p
    exact .bind (.of_ok ha) fun _ _ => .of_ok rfl
  unfold suggestVersion
  split
  · exact .panic _
  · split
    · exact .of_ok rfl
    · exact .bind (index_noError _ _) fun v _ => hstore _ v _
  · split
    · exact .bind (nextVersion_noError _ _) fun v _ => hstore _ v _
    · exact .of_ok rfl
    · exact .of_ok rfl
    · exact .of_ok rfl

theorem registerPeer_noPanic_iff :
    NoPanic (r.registerPeer cmpMinor now addr np hs) ↔ ¬ r.Panics cmpMinor (.registerPeer now addr np hs) := by
  have hjudge : ∀ {p : Peer}, addr.is4 = true → addr ≠ r.declared → r.lookUp addr = some p →
      (NoPanic ((r.taken addr).judge cmpMinor now p addr np hs) ↔
        ¬ r.Panics cmpMinor (.registerPeer now addr np hs)) := by
    intro p h4 hd hl
    rw [judge_noPanic_iff, not_iff_not]
    show _ ↔ addr.is4 = true ∧ addr ≠ r.declared ∧ np.handshake.appName = [] ∧
      ∃ p, r.lookUp addr = some p ∧ cmpMinor np.handshake.version p.version < 2
    simp [h4, hd, hl, and_comm]
  unfold registerPeer
  by_cases h4 : addr.is4 = true
  · by_cases hd : addr = r.declared
    · rw [if_neg (by simp [h4]), if_pos hd]
      exact iff_of_true (.of_ok rfl) fun h => h.2.1 hd
    · rw [if_neg (by simp [h4]), if_neg hd]
      simp only
      cases hp : r.storage.peer addr with
      | error f =>
        cases f with
        | panic msg => exact absurd hp (Storage.peer_noPanic (bytes_ne_nil_of_is4 h4) msg)
        | err e =>
          cases hn : e.is .notFound with
          | false =>
            have hl : r.lookUp addr = none := by simp [lookUp, hp, hn]
            refine iff_of_true (by simp only [hn]; exact .of_ok rfl) fun h => ?_
            obtain ⟨-, -, -, p, hlook, -⟩ := h
            rw [hl] at hlook
            cases hlook
          | true =>
            have hl : r.lookUp addr = some .zero := by simp [lookUp, hp, hn]
            simp only [hn, Bool.not_true, Bool.false_eq_true, if_false]
            rw [if_neg (by decide)]
            exact hjudge h4 hd hl
      | ok p =>
        have hl : r.lookUp addr = some p := by simp [lookUp, hp]
        exact hjudge h4 hd hl
  · rw [if_pos (by simpa using h4)]
    exact iff_of_true (.of_ok rfl) fun h => h4 h.1

end Registry

/-- **Exactly when an operation of the registry panics**; otherwise it leaves a registry, whatever it answers. -/
theorem exists_apply_iff {cmpMinor : Version → Version → Int} {r : Registry} (hr : Reachable cmpMinor r) {op : Op}
    (hop : op.Parsed) : (∃ r', r.apply cmpMinor op = .ok r') ↔ ¬ r.Panics cmpMinor op := by
  have hok : ∀ {α : Type} {x : Res α} {f : α → Registry}, (∃ a, x = .ok a) →
      ((∃ r', x >>= (fun a => .ok (f a)) = .ok r') ↔ ¬ False) := fun ⟨a, ha⟩ => by
    rw [ha]
    exact iff_of_true ⟨_, rfl⟩ id
  have hiff : ∀ {α : Type} {x : Res α} {f : α → Registry}, NoError x →
      ((∃ r', x >>= (fun a => .ok (f a)) = .ok r') ↔ NoPanic x) := fun {_ x _} hno => by
    constructor
    · rintro ⟨r', h⟩
      exact Go.noPanic_bind_ok.1 (.of_ok h)
    · intro hp
      obtain ⟨a, ha⟩ := Go.exists_ok hno hp
      exact ⟨_, by rw [ha]; rfl⟩
  cases op with
  | suggestVersion now addr =>
    exact (hiff Registry.suggestVersion_noError).trans (Registry.suggestVersion_noPanic_iff hop)
  | registerPeer now addr np hs => exact (hiff Registry.registerPeer_noError).trans Registry.registerPeer_noPanic_iff
  | unregisterPeer now addr => exact hok (Registry.exists_unregisterPeer hop now)
  | updatePeerScore addr score => exact hok (Registry.exists_updatePeerScore hop score)
  | appendAddresses addresses =>
    obtain ⟨s, news, happend, -⟩ := Registry.appendAddresses_appended addresses r 0
    exact hok ⟨_, happend⟩
  | takeAvailableAddresses now =>
    obtain ⟨ps, hps, -⟩ := hr.written.exists_peers
    refine hok ⟨⟨(Registry.takeFrom now r ps).1, .ok (Registry.takeFrom now r ps).2⟩, ?_⟩
    unfold Registry.takeAvailableAddresses
    rw [hps]
  | markAsHostile addr => exact hok (Registry.exists_markAsHostile hop)

end Peers
end ForkDetector
