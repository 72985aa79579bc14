import Mathlib.Data.List.Induction
import ForkDetector.Peers.Pending
import ForkDetector.Peers.Reachable
/-!
# Keys — the peers database as a map keyed by the address

A record is stored under the first four bytes of an address, and only `putPeer` asks whether there are more.  So the
database is a map keyed by the full address on the IPv4 addresses, and an IPv6 address reads the record of the IPv4
address that it starts with (`keyed_iff`).
-/
namespace ForkDetector
namespace Peers

open Proto (Version Handshake Conn)

/-- The peers that `putPeer` stores, whatever is stored already. -/
def Storable (p : Peer) : Prop := p.addr.is4 = true ∧ validString p.name = true

instance (p : Peer) : Decidable (Storable p) := inferInstanceAs (Decidable (_ ∧ _))

/-- What is stored of a peer: all but its connection. -/
def Peer.stored (p : Peer) : Peer := { p with p := none }

/-- The last peer that was put for an address. -/
def lastPut (puts : List Peer) (a : Addr) : Option Peer := puts.reverse.find? fun p => decide (Storable p ∧ p.addr = a)

/-- The database after a sequence of puts; one that fails writes nothing. -/
def putPeers (puts : List Peer) : Storage :=
  puts.foldl (fun s p => match s.putPeer p with
    | .ok s' => s'
    | .error _ => s) newStorage

/-! ## The last put -/

section
variable {puts : List Peer} {p q : Peer} {a : Addr}

theorem lastPut_concat (puts : List Peer) (p : Peer) (a : Addr) :
    lastPut (puts ++ [p]) a = if Storable p ∧ p.addr = a then some p else lastPut puts a := by
  unfold lastPut
  rw [List.reverse_append, List.reverse_singleton, List.singleton_append, List.find?_cons]
  by_cases h : Storable p ∧ p.addr = a <;> simp [h]

theorem lastPut_eq_some (h : lastPut puts a = some p) : p ∈ puts ∧ Storable p ∧ p.addr = a := by
  unfold lastPut at h
  have hp := List.find?_some h
  exact ⟨List.mem_reverse.1 (List.mem_of_find?_eq_some h), of_decide_eq_true hp⟩

theorem lastPut_eq_none (h : ∀ p ∈ puts, Storable p → p.addr ≠ a) : lastPut puts a = none :=
  List.find?_eq_none.2 fun p hp hd => h p (List.mem_reverse.1 hp) (of_decide_eq_true hd).1 (of_decide_eq_true hd).2

theorem exists_lastPut (hp : p ∈ puts) (hs : Storable p) : ∃ q, lastPut puts p.addr = some q := by
  refine Option.isSome_iff_exists.1 (List.find?_isSome.2 ⟨p, List.mem_reverse.2 hp, ?_⟩)
  exact decide_eq_true ⟨hs, rfl⟩

/-- The puts of other addresses do not matter. -/
theorem lastPut_filter (puts : List Peer) (a : Addr) :
    lastPut (puts.filter fun p => decide (p.addr = a)) a = lastPut puts a := by
  unfold lastPut
  rw [← List.filter_reverse, List.find?_filter]
  congr 1
  funext p
  simp only [Bool.decide_and]
  cases decide (p.addr = a) <;> simp

end

/-! ## The records -/

namespace Storage
variable {s : Storage} {p : Peer}

theorem putPeer_not_storable (h : ¬ Storable p) : s.putPeer p =
    Go.fail (.text (if p.addr.is4 = true then "invalid peer name" else "invalid IP address length")) := by
  unfold putPeer
  by_cases h4 : p.addr.is4 = true
  · rw [show p.addressPort.addr.is4 = true from h4, dif_neg fun hn => h ⟨h4, hn⟩, if_pos h4]
    rfl
  · rw [if_neg h4]
    rw [Bool.not_eq_true] at h4
    rw [show p.addressPort.addr.is4 = false from h4]
    rfl

end Storage

theorem putPeers_concat (puts : List Peer) (p : Peer) : putPeers (puts ++ [p]) =
    match (putPeers puts).putPeer p with
    | .ok s' => s'
    | .error _ => putPeers puts := by
  unfold putPeers
  rw [List.foldl_append]
  rfl

/-- The record that is stored of a peer. -/
def Peer.record (p : Peer) : Record :=
  if h : validString p.name = true then
    .value ⟨p.addressPort.port, p.nonce, p.name, some p.version, p.state, p.nextAttempt, p.score, h⟩
  else .undecodable

theorem putPeer_storable {s : Storage} {p : Peer} (h : Storable p) :
    s.putPeer p = .ok ⟨s.records.insert p.addr.bytes p.record⟩ := by
  refine Storage.putPeer_eq_ok.2 ⟨h.1, h.2, ?_⟩
  unfold Peer.record
  rw [dif_pos h.2]

/-- **The records after a sequence of puts**: those of the last peer put for each address. -/
theorem records_putPeers (puts : List Peer) (k : Bytes) (r : Record) : (putPeers puts).records[k]? = some r ↔
    ∃ p : Peer, lastPut puts p.addr = some p ∧ p.addr.bytes = k ∧ r = p.record := by
  induction puts using List.reverseRecOn with
  | nil =>
    constructor
    · intro h
      rw [show putPeers [] = newStorage from rfl] at h
      simp [newStorage] at h
    · rintro ⟨p, hl, -⟩
      cases hl
  | append_singleton puts p ih =>
    rw [putPeers_concat]
    by_cases hs : Storable p
    · rw [putPeer_storable hs]
      show (Std.ExtTreeMap.insert _ _ _)[k]? = _ ↔ _
      rw [Go.getElem?_insert_eq]
      by_cases hk : k = p.addr.bytes
      · rw [if_pos hk]
        constructor
        · intro h
          exact ⟨p, by rw [lastPut_concat, if_pos ⟨hs, rfl⟩], hk.symm, (Option.some.inj h).symm⟩
        · rintro ⟨q, hl, hqk, rfl⟩
          obtain ⟨-, hq, -⟩ := lastPut_eq_some hl
          rw [lastPut_concat, if_pos ⟨hs, (Addr.eq_of_is4 hq.1 hs.1 (hqk.trans hk)).symm⟩] at hl
          cases hl
          rfl
      · rw [if_neg hk, ih]
        refine exists_congr fun q => ?_
        rw [lastPut_concat]
        by_cases hqk : q.addr.bytes = k
        · rw [if_neg fun h => hk (by rw [← hqk, h.2])]
        · simp [hqk]
    · rw [Storage.putPeer_not_storable hs]
      simp only [Go.fail, lastPut_concat, hs, false_and, if_false]
      exact ih

/-! ## Reads -/

/-- No other address with a record has the key of `a`. -/
def Alone (puts : List Peer) (a : Addr) : Prop :=
  ∀ p ∈ puts, Storable p → p.addr.bytes = a.bytes.take addrSize → p.addr = a

theorem alone_iff {puts : List Peer} {a : Addr} : Alone puts a ↔
    (a.is4 = true ∨ ∀ p ∈ puts, Storable p → p.addr.bytes ≠ a.bytes.take addrSize) := by
  constructor
  · intro h
    by_cases h4 : a.is4 = true
    · exact .inl h4
    · exact .inr fun p hp hs hb => h4 (h p hp hs hb ▸ hs.1)
  · rintro (h4 | h) p hp hs hb
    · exact Addr.eq_of_is4 hs.1 h4 (hb.trans (take_of_is4 h4))
    · exact absurd hb (h p hp hs)

theorem keyBytes_of_valid {a : Addr} (ha : a.bytes ≠ []) : keyBytes a = .ok (a.bytes.take addrSize) := by
  unfold keyBytes
  rw [if_neg]
  have := a.size
  have := List.length_pos_iff.2 ha
  unfold addrSize
  omega

section
variable {puts : List Peer} {a : Addr}

/-- The record under the key of `a` is that of the last put for `a`. -/
theorem record_of_alone (h : Alone puts a) :
    (putPeers puts).records[a.bytes.take addrSize]? = (lastPut puts a).map Peer.record := by
  cases hl : lastPut puts a with
  | some p =>
    obtain ⟨-, hs, rfl⟩ := lastPut_eq_some hl
    exact (records_putPeers _ _ _).2 ⟨p, hl, (take_of_is4 hs.1).symm, rfl⟩
  | none =>
    refine Option.eq_none_iff_forall_ne_some.2 fun r hr => ?_
    obtain ⟨p, hp, hb, -⟩ := (records_putPeers _ _ _).1 hr
    obtain ⟨hmem, hs, -⟩ := lastPut_eq_some hp
    rw [h p hmem hs hb, hl] at hp
    cases hp

theorem peer_putPeers (ha : a.bytes ≠ []) (h : Alone puts a) : (putPeers puts).peer a =
    match lastPut puts a with
    | some p => .ok p.stored
    | none => Go.fail (.sentinel .notFound) := by
  unfold Storage.peer
  rw [keyBytes_of_valid ha]
  simp only [bind, Except.bind, record_of_alone h]
  cases hl : lastPut puts a with
  | none => rfl
  | some p =>
    obtain ⟨-, hs, rfl⟩ := lastPut_eq_some hl
    simp only [Option.map_some, Peer.record, dif_pos hs.2]
    rfl

theorem hasPeer_putPeers (ha : a.bytes ≠ []) (h : Alone puts a) :
    (putPeers puts).hasPeer a = .ok (lastPut puts a).isSome := by
  unfold Storage.hasPeer
  rw [keyBytes_of_valid ha]
  simp only [bind, Except.bind, record_of_alone h, Option.isSome_map]

/-- An address that shares its key with another reads the record of the other. -/
theorem alone_of_peer (ha : a.bytes ≠ []) (h : (putPeers puts).peer a = match lastPut puts a with
    | some p => .ok p.stored
    | none => Go.fail (.sentinel .notFound)) : Alone puts a := by
  refine alone_iff.2 (or_iff_not_imp_left.2 fun h4 p hp hs hb => ?_)
  have hnone : lastPut puts a = none := lastPut_eq_none fun q _ hq he => h4 (he ▸ hq.1)
  obtain ⟨q, hq⟩ := exists_lastPut hp hs
  obtain ⟨-, hqs, hqa⟩ := lastPut_eq_some hq
  have hrec := (records_putPeers puts (a.bytes.take addrSize) q.record).2 ⟨q, hqa ▸ hq, hqa ▸ hb, rfl⟩
  unfold Storage.peer at h
  rw [keyBytes_of_valid ha, hnone] at h
  simp only [bind, Except.bind, hrec, Peer.record, dif_pos hqs.2] at h
  cases h

end

/-! ## The list of peers -/

/-- One round of the loop of `peers`. -/
def Storage.listed (e : Bytes × Record) : Res Peer := do
  let addr ← keyFromBytes e.1
  match e.2 with
  | .undecodable => Go.fail (.wrap "failed to collect peers" (.text "cannot decode"))
  | .value v =>
    match v.version with
    | none => Go.fail (.wrap "failed to collect peers" (.text "invalid version"))
    | some ver => .ok ⟨⟨addr, v.port⟩, v.nonce, v.name, ver, v.state, v.nextAttempt, v.score, none⟩

theorem Storage.peers_eq (s : Storage) : s.peers = s.records.toList.mapM listed := rfl

theorem keyFromBytes_of_is4 {a : Addr} (h : a.is4 = true) : keyFromBytes a.bytes = .ok a := by
  have hlen : a.bytes.length = addrSize := of_decide_eq_true h
  unfold keyFromBytes
  rw [dif_pos hlen]
  exact congrArg Except.ok (Addr.eq_of_is4 (a := ⟨a.bytes, "", .inr (.inl hlen), Addr.not_zoned a.bytes⟩)
    (decide_eq_true hlen) h rfl)

theorem Storage.addr_of_listed {e : Bytes × Record} {q : Peer} (h : listed e = .ok q) : q.addr.bytes = e.1 := by
  obtain ⟨a, ha, h⟩ := Go.bind_eq_ok.1 h
  unfold keyFromBytes at ha
  split at ha
  · cases ha
    split at h
    · cases h
    · split at h <;> cases h
      rfl
  · cases ha

theorem Storage.nodup_peers {s : Storage} {ps : List Peer} (h : s.peers = .ok ps) : (ps.map Peer.addr).Nodup := by
  have hkeys : (ps.map fun q => q.addr.bytes) = s.records.keys := by
    rw [← Std.ExtTreeMap.map_fst_toList_eq_keys]
    exact Go.map_of_mapM ((peers_eq s).symm.trans h) fun _ _ => addr_of_listed
  refine .of_map Addr.bytes ?_
  rw [List.map_map]
  exact hkeys ▸ Std.ExtTreeMap.nodup_keys

theorem listed_record {p : Peer} (h : Storable p) : Storage.listed (p.addr.bytes, p.record) = .ok p.stored := by
  unfold Storage.listed Peer.record
  simp only [keyFromBytes_of_is4 h.1, dif_pos h.2, bind, Except.bind]
  rfl

/-- **What `peers` lists**: the last peer put for each address. -/
theorem peers_putPeers (puts : List Peer) : ∃ ps, (putPeers puts).peers = .ok ps ∧
    ∀ q, q ∈ ps ↔ ∃ p, lastPut puts p.addr = some p ∧ q = p.stored := by
  have hround : ∀ e ∈ (putPeers puts).records.toList, ∃ p : Peer, lastPut puts p.addr = some p ∧
      e = (p.addr.bytes, p.record) ∧ Storage.listed e = .ok p.stored := fun e he => by
    obtain ⟨p, hp, hb, hr⟩ := (records_putPeers puts e.1 e.2).1 (Std.ExtTreeMap.mem_toList_iff_getElem?_eq_some.1 he)
    obtain rfl : e = (p.addr.bytes, p.record) := by rw [hb, ← hr]
    exact ⟨p, hp, rfl, listed_record (lastPut_eq_some hp).2.1⟩
  obtain ⟨ps, hps⟩ := Go.exists_mapM_of_forall fun e he =>
    let ⟨p, _, _, h⟩ := hround e he
    ⟨p.stored, h⟩
  refine ⟨ps, (Storage.peers_eq _).trans hps, fun q => (Go.mem_of_mapM hps q).trans ⟨?_, ?_⟩⟩
  · rintro ⟨e, he, hq⟩
    obtain ⟨p, hp, -, h⟩ := hround e he
    exact ⟨p, hp, Except.ok.inj (hq.symm.trans h)⟩
  · rintro ⟨p, hp, rfl⟩
    have hrec := (records_putPeers puts p.addr.bytes p.record).2 ⟨p, hp, rfl, rfl⟩
    exact ⟨_, Std.ExtTreeMap.mem_toList_iff_getElem?_eq_some.2 hrec, listed_record (lastPut_eq_some hp).2.1⟩

/-! ## Operations on one address -/

namespace Registry
variable {cmpMinor : Version → Version → Int} {now : Int} {r : Registry} {s : Storage} {a : Addr} {p : Peer}

/-- The registry over another database. -/
def withStorage (r : Registry) (s : Storage) : Registry := { r with storage := s }

/-- The operations that look up an address answer the same. -/
structure SameAnswers (cmpMinor : Version → Version → Int) (r r' : Registry) (a : Addr) : Prop where
  suggestVersion : ∀ now, (r.suggestVersion now a).map Answer.result = (r'.suggestVersion now a).map Answer.result
  updatePeerScore : ∀ score,
    (r.updatePeerScore a score).map Answer.result = (r'.updatePeerScore a score).map Answer.result
  unregisterPeer : ∀ now, (r.unregisterPeer now a).map Answer.result = (r'.unregisterPeer now a).map Answer.result
  markAsHostile : (r.markAsHostile (some a)).map Answer.result = (r'.markAsHostile (some a)).map Answer.result
  registerPeer : ∀ now np hs, (r.registerPeer cmpMinor now a np hs).map (fun x => (x.1, x.2.result)) =
    (r'.registerPeer cmpMinor now a np hs).map fun x => (x.1, x.2.result)

theorem store_withStorage (r : Registry) (s : Storage) (p : Peer) :
    ((r.withStorage s).store p).map Answer.result = (r.store p).map Answer.result := by
  unfold store
  by_cases h : Storable p
  · rw [putPeer_storable h, putPeer_storable h]
    rfl
  · rw [Storage.putPeer_not_storable h, Storage.putPeer_not_storable h]
    rfl

/-- A result that depends on another result alone. -/
theorem map_bind_congr {α β γ δ : Type} {x y : Res α} {q : α → β} {f : α → γ} {g : γ → δ} {k : β → δ}
    (h : x.map q = y.map q) (hg : ∀ a, g (f a) = k (q a)) :
    (x >>= fun a => .ok (f a)).map g = (y >>= fun a => .ok (f a)).map g := by
  have hmap : ∀ z : Res α, (z >>= fun a => .ok (f a)).map g = (z.map q).map k := fun z => by
    cases z with
    | error e => rfl
    | ok a => exact congrArg Except.ok (hg a)
  rw [hmap, hmap, h]

theorem suggestVersion_withStorage (h : s.peer a = r.storage.peer a) :
    ((r.withStorage s).suggestVersion now a).map Answer.result = (r.suggestVersion now a).map Answer.result := by
  have hans : ∀ (wrap : Go.Err Sentinel → Go.Err Sentinel) (ver : Version) (b : Answer Unit),
      (answerVersion wrap ver b).result = (b.result.map fun _ => ver).mapError wrap := fun wrap ver b => by
    unfold answerVersion
    split <;> rename_i hb <;> rw [hb] <;> rfl
  have hstore : ∀ (wrap : Go.Err Sentinel → Go.Err Sentinel) (ver : Version) (p : Peer),
      ((r.withStorage s).store p >>= fun b => .ok (answerVersion wrap ver b)).map Answer.result =
        (r.store p >>= fun b => .ok (answerVersion wrap ver b)).map Answer.result := fun wrap ver p =>
    map_bind_congr (k := fun x => (x.map fun _ => ver).mapError wrap) (store_withStorage r s p) (hans wrap ver)
  unfold suggestVersion
  rw [show (r.withStorage s).storage.peer a = r.storage.peer a from h]
  cases r.storage.peer a with
  | error f =>
    cases f with
    | panic msg => rfl
    | err e =>
      simp only
      split
      · rfl
      · show (bestVersion r.versions >>= _).map _ = (bestVersion r.versions >>= _).map _
        cases bestVersion r.versions with
        | error f => rfl
        | ok ver => exact hstore _ ver _
  | ok p =>
    simp only
    cases p.state with
    | unknown =>
      show (nextVersion r.versions p.version >>= _).map _ = (nextVersion r.versions p.version >>= _).map _
      cases nextVersion r.versions p.version with
      | error f => rfl
      | ok ver => exact hstore _ ver _
    | connected => rfl
    | hostile => rfl
    | other => rfl

theorem updatePeerScore_withStorage {score : Int} (h : s.peer a = r.storage.peer a) :
    ((r.withStorage s).updatePeerScore a score).map Answer.result = (r.updatePeerScore a score).map Answer.result := by
  unfold updatePeerScore
  rw [show (r.withStorage s).storage.peer a = r.storage.peer a from h]
  split
  · rfl
  · rfl
  · exact store_withStorage r s _

theorem unregisterPeer_withStorage (h : s.peer a = r.storage.peer a) :
    ((r.withStorage s).unregisterPeer now a).map Answer.result = (r.unregisterPeer now a).map Answer.result := by
  unfold unregisterPeer
  rw [show (r.withStorage s).storage.peer a = r.storage.peer a from h]
  split
  · rfl
  · rfl
  · exact store_withStorage { r with pending := r.pending.erase a, connections := r.connections.erase a } s _

theorem markAsHostile_withStorage (h : s.peer a = r.storage.peer a) :
    ((r.withStorage s).markAsHostile (some a)).map Answer.result = (r.markAsHostile (some a)).map Answer.result := by
  unfold markAsHostile
  simp only
  rw [show (r.withStorage s).storage.peer a = r.storage.peer a from h]
  split
  · rfl
  · split
    · rfl
    · exact store_withStorage { r with pending := r.pending.erase a } s _
  · exact store_withStorage { r with pending := r.pending.erase a } s _

theorem judge_withStorage {np : Conn} {hs : Handshake} (r : Registry) (s : Storage) (p : Peer) :
    ((r.withStorage s).judge cmpMinor now p a np hs).map (fun x => (x.1, x.2.result)) =
      (r.judge cmpMinor now p a np hs).map fun x => (x.1, x.2.result) := by
  unfold judge
  split
  · exact map_bind_congr (k := fun x => (true, x)) (store_withStorage r s _) fun _ => rfl
  · split
    · rfl
    · split <;> rename_i hc
      · rw [if_pos (show _ ≠ r.scheme from hc)]
        exact map_bind_congr (k := fun x => (true, x)) (store_withStorage r s _) fun _ => rfl
      · rw [if_neg (show ¬ _ ≠ r.scheme from hc)]
        split
        · rfl
        · exact map_bind_congr (k := fun x => (_, x))
            (store_withStorage { r with connections := r.connections.insert a np } s _) fun _ => rfl

theorem registerPeer_withStorage {np : Conn} {hs : Handshake} (h : s.peer a = r.storage.peer a) :
    ((r.withStorage s).registerPeer cmpMinor now a np hs).map (fun x => (x.1, x.2.result)) =
      (r.registerPeer cmpMinor now a np hs).map fun x => (x.1, x.2.result) := by
  unfold registerPeer
  simp only
  rw [show (r.withStorage s).storage.peer a = r.storage.peer a from h]
  split
  · rfl
  · split <;> rename_i hd
    · rw [if_pos (show a = r.declared from hd)]
      rfl
    · rw [if_neg (show a ≠ r.declared from hd)]
      split
      · rfl
      · split
        · rfl
        · split
          · rfl
          · exact judge_withStorage { r with pending := r.pending.erase a } s _
      · exact judge_withStorage { r with pending := r.pending.erase a } s _

/-- **What an operation on an address answers** depends on what is read at the address alone. -/
theorem sameAnswers_withStorage (h : s.peer a = r.storage.peer a) : SameAnswers cmpMinor (r.withStorage s) r a :=
  ⟨fun _ => suggestVersion_withStorage h, fun _ => updatePeerScore_withStorage h, fun _ => unregisterPeer_withStorage h,
    markAsHostile_withStorage h, fun _ _ _ => registerPeer_withStorage h⟩

/-- The database is as it was, or with a peer put for the address, one with the property `Q`. -/
structure PutsOn (Q : Peer → Prop) (r r' : Registry) (a : Addr) : Prop where
  versions : r'.versions = r.versions
  storage : r'.storage = r.storage ∨ ∃ p : Peer, p.addr = a ∧ Q p ∧ r.storage.putPeer p = .ok r'.storage

/-- A peer in the state unknown has the version that was read. -/
def KeepsVersion (r : Registry) (a : Addr) (p : Peer) : Prop :=
  p.state = .unknown → ∃ q, r.storage.peer a = .ok q ∧ p.version = q.version

theorem PutsOn.same {Q : Peer → Prop} {r' : Registry} (hv : r'.versions = r.versions) (hs : r'.storage = r.storage) :
    PutsOn Q r r' a := ⟨hv, .inl hs⟩

theorem PutsOn.store {Q : Peer → Prop} {b : Answer Unit} (h : r.store p = .ok b)
    (hp : p.addr = a ∨ p.addr = Peer.zero.addr) (hq : Q p) : PutsOn Q r b.registry a := by
  rcases store_cases h with ⟨s, hs, rfl⟩ | ⟨e, -, rfl⟩
  · rcases hp with hp | hp
    · exact ⟨rfl, .inr ⟨p, hp, hq, hs⟩⟩
    · have h4 := (Storage.putPeer_eq_ok.1 hs).1
      rw [hp] at h4
      cases h4
  · exact .same rfl rfl

theorem addr_of_read (h : r.storage.peer a = .ok p) : p.addr = a ∨ p.addr = Peer.zero.addr :=
  (Storage.addr_of_peer h).imp_right (congrArg Peer.addr)

theorem suggestVersion_putsOn {b : Answer Version} (h : r.suggestVersion now a = .ok b) :
    PutsOn (fun _ => True) r b.registry a := by
  have hans : ∀ (wrap : Go.Err Sentinel → Go.Err Sentinel) ver (b : Answer Unit),
      (answerVersion wrap ver b).registry = b.registry := fun wrap ver b => by
    unfold answerVersion; split <;> rfl
  unfold suggestVersion at h
  split at h
  · cases h
  · split at h
    · cases h
      exact .same rfl rfl
    · obtain ⟨ver, -, h⟩ := Go.bind_eq_ok.1 h
      obtain ⟨c, hc, h⟩ := Go.bind_eq_ok.1 h
      cases h
      rw [hans]
      exact PutsOn.store hc (.inl rfl) trivial
  · rename_i q hq
    split at h
    · obtain ⟨ver, -, h⟩ := Go.bind_eq_ok.1 h
      obtain ⟨c, hc, h⟩ := Go.bind_eq_ok.1 h
      cases h
      rw [hans]
      have haddr := addr_of_read hq
      exact PutsOn.store hc haddr trivial
    all_goals
      cases h
      exact .same rfl rfl

theorem updatePeerScore_putsOn {score : Int} {b : Answer Unit} (h : r.updatePeerScore a score = .ok b) :
    PutsOn (r.KeepsVersion a) r b.registry a := by
  unfold updatePeerScore at h
  split at h
  · cases h
  · cases h
    exact .same rfl rfl
  · rename_i q hq
    have haddr := addr_of_read hq
    exact PutsOn.store h haddr fun _ => ⟨q, hq, rfl⟩

theorem unregisterPeer_putsOn {b : Answer Unit} (h : r.unregisterPeer now a = .ok b) :
    PutsOn (r.KeepsVersion a) r b.registry a := by
  unfold unregisterPeer at h
  split at h
  · cases h
  · cases h
    exact .same rfl rfl
  · rename_i q hq
    have haddr := addr_of_read hq
    obtain ⟨hv, hs⟩ : PutsOn (r.KeepsVersion a) _ b.registry a := PutsOn.store h haddr fun _ => ⟨q, hq, rfl⟩
    exact ⟨hv, hs⟩

theorem markAsHostile_putsOn {b : Answer Unit} (h : r.markAsHostile (some a) = .ok b) :
    PutsOn (r.KeepsVersion a) r b.registry a := by
  have hput : ∀ p : Peer, store { r with pending := r.pending.erase a }
      { p with addressPort := ⟨a, 0⟩, state := .hostile } = .ok b → PutsOn (r.KeepsVersion a) r b.registry a := by
    intro p hp
    obtain ⟨hv, hs⟩ : PutsOn (r.KeepsVersion a) _ b.registry a := PutsOn.store hp (.inl rfl) fun hst => by cases hst
    exact ⟨hv, hs⟩
  unfold markAsHostile at h
  simp only at h
  split at h
  · cases h
  · split at h
    · cases h
      exact .same rfl rfl
    · exact hput _ h
  · exact hput _ h

theorem registerPeer_putsOn {np : Conn} {hs : Handshake} {b : Bool × Answer Unit}
    (h : r.registerPeer cmpMinor now a np hs = .ok b) : PutsOn (r.KeepsVersion a) r b.2.registry a := by
  cases registerPeer_registered h with
  | accepted q port hq hst _ =>
    obtain ⟨hv, hs⟩ : PutsOn (r.KeepsVersion a) _ b.2.registry a :=
      PutsOn.store hst (.inl rfl) fun hst => by cases hst
    exact ⟨hv, hs⟩
  | judged q hj hst _ =>
    have haddr : q.addr = a ∨ q.addr = Peer.zero.addr := (addr_of_lookUp hj.looked).imp_right (congrArg Peer.addr)
    obtain ⟨hv, hs⟩ : PutsOn (r.KeepsVersion a) _ b.2.registry a :=
      PutsOn.store hst haddr fun hst => by cases hst
    exact ⟨hv, hs⟩
  | refused e _ _ hreg => rw [hreg]; exact .same rfl rfl

end Registry

/-- The operations that look up an address. -/
def Op.On : Op → Addr → Prop
  | .suggestVersion _ addr, a => addr = a
  | .registerPeer _ addr _ _, a => addr = a
  | .unregisterPeer _ addr, a => addr = a
  | .updatePeerScore addr _, a => addr = a
  | .markAsHostile addr, a => addr = some a
  | _, _ => False

/-- **What an operation on an address writes**: one peer at most, at that address; but for `SuggestVersion` it keeps
the version of a peer that stays unknown. -/
theorem Step.putsOn {cmpMinor : Version → Version → Int} {r r' : Registry} {op : Op} {a : Addr}
    (h : Step cmpMinor r op r') (ho : op.On a) :
    r.PutsOn (fun p => (∀ now, op ≠ .suggestVersion now a) → r.KeepsVersion a p) r' a := by
  have hother : r.PutsOn (r.KeepsVersion a) r' a →
      r.PutsOn (fun p => (∀ now, op ≠ .suggestVersion now a) → r.KeepsVersion a p) r' a :=
    fun hp => ⟨hp.versions, hp.storage.imp_right fun ⟨p, hpa, hq, hput⟩ => ⟨p, hpa, fun _ => hq, hput⟩⟩
  cases op with
  | suggestVersion now addr =>
    cases ho
    obtain ⟨b, hb, he⟩ := Go.bind_eq_ok.1 h
    cases he
    obtain ⟨hv, hs⟩ := Registry.suggestVersion_putsOn hb
    exact ⟨hv, hs.imp_right fun ⟨p, hpa, _, hput⟩ => ⟨p, hpa, fun hne => absurd rfl (hne now), hput⟩⟩
  | registerPeer now addr np hs =>
    cases ho
    obtain ⟨b, hb, he⟩ := Go.bind_eq_ok.1 h
    cases he
    exact hother (Registry.registerPeer_putsOn hb)
  | unregisterPeer now addr =>
    cases ho
    obtain ⟨b, hb, he⟩ := Go.bind_eq_ok.1 h
    cases he
    exact hother (Registry.unregisterPeer_putsOn hb)
  | updatePeerScore addr score =>
    cases ho
    obtain ⟨b, hb, he⟩ := Go.bind_eq_ok.1 h
    cases he
    exact hother (Registry.updatePeerScore_putsOn hb)
  | appendAddresses addresses => exact ho.elim
  | takeAvailableAddresses now => exact ho.elim
  | markAsHostile addr =>
    cases ho
    obtain ⟨b, hb, he⟩ := Go.bind_eq_ok.1 h
    cases he
    exact hother (Registry.markAsHostile_putsOn hb)

/-- A put leaves the records of other addresses. -/
theorem Storage.peer_putPeer_of_ne {s s' : Storage} {p : Peer} {b : Addr} (hb : b.is4 = true) (h : s.putPeer p = .ok s')
    (hne : p.addr ≠ b) : s'.peer b = s.peer b := by
  obtain ⟨hp, hn, rfl⟩ := putPeer_eq_ok.1 h
  unfold peer
  rw [keyBytes_of_is4 hb]
  simp only [bind, Except.bind, Go.getElem?_insert_eq]
  rw [if_neg fun he => hne (Addr.eq_of_is4 hp hb he.symm)]

/-! ## The map -/

/-- **The database is a map keyed by the full address**, as far as it is seen at the address `a`. -/
structure Keyed (cmpMinor : Version → Version → Int) (puts : List Peer) (a : Addr) : Prop where
  peer : (putPeers puts).peer a = match lastPut puts a with
    | some p => .ok p.stored
    | none => Go.fail (.sentinel .notFound)
  hasPeer : (putPeers puts).hasPeer a = .ok (lastPut puts a).isSome
  listed : ∃ ps, (putPeers puts).peers = .ok ps ∧ (ps.map Peer.addr).Nodup ∧
    (∀ q, q ∈ ps ↔ ∃ p, lastPut puts p.addr = some p ∧ q = p.stored) ∧ ∀ q ∈ ps, (putPeers puts).peer q.addr = .ok q
  reads_own : ∀ r : Registry, r.storage = putPeers puts →
    Registry.SameAnswers cmpMinor (r.withStorage (putPeers (puts.filter fun p => decide (p.addr = a)))) r a
  writes_own : ∀ (r r' : Registry) (op : Op), r.storage = putPeers puts → Step cmpMinor r op r' → op.On a →
    ∀ b p, b ≠ a → lastPut puts b = some p → r'.storage.peer b = .ok p.stored

/-- **When the database is a map at an address**: when that is an IPv4 address, or none of the IPv4 addresses ever put
is the one it starts with. -/
theorem keyed_iff (cmpMinor : Version → Version → Int) (puts : List Peer) {a : Addr} (ha : a.bytes ≠ []) :
    Keyed cmpMinor puts a ↔ (a.is4 = true ∨ ∀ p ∈ puts, Storable p → p.addr.bytes ≠ a.bytes.take addrSize) := by
  rw [← alone_iff]
  refine ⟨fun h => alone_of_peer ha h.peer, fun h => ⟨peer_putPeers ha h, hasPeer_putPeers ha h, ?_, ?_, ?_⟩⟩
  · obtain ⟨ps, hps, hmem⟩ := peers_putPeers puts
    exact ⟨ps, hps, Storage.nodup_peers hps, hmem, fun q hq => Storage.peer_of_mem_peers hps hq⟩
  · intro r hr
    have hown : Alone (puts.filter fun p => decide (p.addr = a)) a := fun p hp _ _ =>
      of_decide_eq_true (List.mem_filter.1 hp).2
    have hread : (putPeers (puts.filter fun p => decide (p.addr = a))).peer a = r.storage.peer a := by
      rw [hr, peer_putPeers ha h, peer_putPeers ha hown, lastPut_filter]
    exact Registry.sameAnswers_withStorage hread
  · intro r r' op hr hstep ho b p hb hp
    obtain ⟨-, hs, rfl⟩ := lastPut_eq_some hp
    have hread : (putPeers puts).peer p.addr = .ok p.stored := by
      have hvalid : p.addr.bytes ≠ [] := fun he => by
        have := of_decide_eq_true hs.1
        rw [he] at this
        cases this
      rw [peer_putPeers hvalid (alone_iff.2 (.inl hs.1)), hp]
    rcases (hstep.putsOn ho).storage with hsame | ⟨q, rfl, -, hput⟩
    · rw [hsame, hr, hread]
    · rw [hr] at hput
      rw [Storage.peer_putPeer_of_ne hs.1 hput hb.symm, hread]

def Sample.addr6 : Addr :=
  ⟨[0x20, 0x01, 0x0d, 0xb8, 0, 0, 0, 0, 0, 0, 0, 0, 0, 0, 0, 1], "", .inr (.inr rfl), Addr.not_zoned _⟩

def Sample.seen (addr : Addr) : Peer := { Peer.zero with addressPort := ⟨addr, 6868⟩, version := ⟨1, 5, 0⟩ }

/-- An IPv4 address, and an IPv6 address that starts with another one. -/
theorem keyed_iff_sample : Keyed Sample.cmpMinor [Sample.seen Sample.addr] Sample.addr ∧
    Keyed Sample.cmpMinor [Sample.seen Sample.addr] Sample.addr6 := by
  refine ⟨(keyed_iff _ _ (by decide)).2 (.inl rfl), (keyed_iff _ _ (by decide)).2 (.inr fun p hp _ => ?_)⟩
  rw [List.mem_singleton.1 hp]
  decide

/-- **An IPv6 address that was never put** reads the record of the IPv4 address that it starts with. -/
theorem prefix_read : lastPut [Sample.seen (.from4 0x20 0x01 0x0d 0xb8)] Sample.addr6 = none ∧
    (putPeers [Sample.seen (.from4 0x20 0x01 0x0d 0xb8)]).hasPeer Sample.addr6 = .ok true ∧
    ¬ Keyed Sample.cmpMinor [Sample.seen (.from4 0x20 0x01 0x0d 0xb8)] Sample.addr6 := by
  have hnone : lastPut [Sample.seen (.from4 0x20 0x01 0x0d 0xb8)] Sample.addr6 = none := by decide
  have hhas : (putPeers [Sample.seen (.from4 0x20 0x01 0x0d 0xb8)]).hasPeer Sample.addr6 = .ok true := by
    decide +kernel
  refine ⟨hnone, hhas, fun h => ?_⟩
  have := h.hasPeer
  rw [hhas, hnone] at this
  cases this

end Peers
end ForkDetector
