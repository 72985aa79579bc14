import ForkDetector.Peers.Connected
/-!
# Reachable — the registries that the detector can hold

A registry starts over an empty database, or over the database that an earlier one left.  The database changes through
`putPeer` only (`Step.storage_of_put`), so that its records decode and a peer is read under its own address, and each
operation puts what it has read, so that a score once told stays there.
-/
namespace ForkDetector
namespace Peers

open Proto (Version Handshake Conn)

/-- The registries reached by operations and restarts. -/
inductive Reachable (cmpMinor : Version → Version → Int) : Registry → Prop where
  | fresh {scheme : Proto.Scheme} {declared : Proto.TCPAddr} {versions : List Version} {r : Registry} :
      newRegistry scheme declared versions newStorage = .ok r → Reachable cmpMinor r
  | restart {scheme : Proto.Scheme} {declared : Proto.TCPAddr} {versions : List Version} {r r' : Registry} :
      Reachable cmpMinor r → newRegistry scheme declared versions r.storage = .ok r' → Reachable cmpMinor r'
  | step {op : Op} {r r' : Registry} : Reachable cmpMinor r → Step cmpMinor r op r' → Reachable cmpMinor r'

/-! ## What the database keeps -/

def Storage.Decodable (s : Storage) : Prop := ∀ k : Bytes, s.records[k]? ≠ some .undecodable

theorem Storage.Decodable.putPeer {s s' : Storage} {p : Peer} (hd : s.Decodable) (h : s.putPeer p = .ok s') :
    s'.Decodable := by
  obtain ⟨-, hn, rfl⟩ := putPeer_eq_ok.1 h
  intro k
  rw [Go.getElem?_insert_eq]
  by_cases hk : k = p.addr.bytes
  · simp [hk]
  · simpa [hk] using hd k

theorem Storage.Decodable.addr_eq {s : Storage} (hd : s.Decodable) {a : Addr} {p : Peer} (ha : a.is4 = true)
    (h : s.peer a = .ok p) : p.addr = a := by
  rcases (peer_eq_ok ha).1 h with ⟨hr, -⟩ | ⟨v, ver, -, -, rfl⟩
  · exact absurd hr (hd _)
  · rfl

/-- Putting the peer leaves no record without a score that had one. -/
def Storage.KeepsScore (s : Storage) (p : Peer) : Prop := ∀ q, s.peer p.addr = .ok q → q.score ≠ none → p.score ≠ none

def Storage.Scored (s : Storage) (a : Addr) : Prop := ∃ p, s.peer a = .ok p ∧ p.score ≠ none

namespace Storage
variable {s s' : Storage} {a : Addr} {p : Peer}

theorem keepsScore_of_error {f : Go.Fault Sentinel} (h : s.peer p.addr = .error f) : s.KeepsScore p := fun q hq => by
  rw [h] at hq
  cases hq

theorem keepsScore_zero {q : Peer} (h : q.addr = Peer.zero.addr) : s.KeepsScore q :=
  keepsScore_of_error (f := .panic "slice bounds out of range") (by rw [h]; rfl)

/-- What was read may be put again, with the score that it had or a new one. -/
theorem keepsScore_of_read {q : Peer} (h : s.peer a = .ok p) (ha : q.addr = a ∨ q.addr = p.addr)
    (hq : p.score ≠ none → q.score ≠ none) : s.KeepsScore q := by
  have hself : q.addr = a → s.KeepsScore q := fun hqa p' hp' hne => by
    rw [hqa, h] at hp'
    cases hp'
    exact hq hne
  rcases ha with ha | ha
  · exact hself ha
  · rcases addr_of_peer h with hp | rfl
    · exact hself (ha.trans hp)
    · exact keepsScore_zero ha

theorem Scored.putPeer (ha : a.is4 = true) (h : s.Scored a) (hk : s.KeepsScore p) (hput : s.putPeer p = .ok s') :
    s'.Scored a := by
  obtain ⟨q, hq, hne⟩ := h
  obtain ⟨h4, hn, rfl⟩ := putPeer_eq_ok.1 hput
  by_cases hap : a = p.addr
  · subst hap
    exact ⟨_, (peer_eq_ok ha).2 (.inr ⟨_, _, by rw [Go.getElem?_insert_eq, if_pos rfl], rfl, rfl⟩), hk q hq hne⟩
  · refine ⟨q, (peer_eq_ok ha).2 ?_, hne⟩
    rw [Go.getElem?_insert_eq, if_neg fun he => hap (Addr.eq_of_is4 ha h4 he)]
    exact (peer_eq_ok ha).1 hq

end Storage

theorem Registry.keepsScore_of_lookUp {r : Registry} {a : Addr} {p q : Peer} (h : r.lookUp a = some p)
    (ha : q.addr = a ∨ q.addr = p.addr) (hq : q.score = p.score) : r.storage.KeepsScore q := by
  unfold lookUp at h
  split at h
  · rename_i p' hp
    cases h
    exact Storage.keepsScore_of_read hp ha fun hne => hq ▸ hne
  · rename_i e he
    split at h
    · cases h
      rcases ha with rfl | ha
      · exact Storage.keepsScore_of_error he
      · exact Storage.keepsScore_zero ha
    · cases h
  · cases h

section
variable {P : Storage → Prop} (hput : ∀ s p s', P s → s.KeepsScore p → s.putPeer p = .ok s' → P s') {r : Registry}
include hput

namespace Registry

theorem store_of_put {p : Peer} {a : Answer Unit} (h : r.store p = .ok a) (hk : r.storage.KeepsScore p)
    (hP : P r.storage) : P a.registry.storage := by
  rcases store_cases h with ⟨s, hs, rfl⟩ | ⟨e, -, rfl⟩
  · exact hput _ _ _ hP hk hs
  · exact hP

theorem suggestVersion_of_put {now : Int} {addr : Addr} {a : Answer Version} (h : r.suggestVersion now addr = .ok a)
    (hP : P r.storage) : P a.registry.storage := by
  have hans : ∀ (wrap : Go.Err Sentinel → Go.Err Sentinel) ver (b : Answer Unit),
      (answerVersion wrap ver b).registry = b.registry := fun wrap ver b => by
    unfold answerVersion; split <;> rfl
  unfold suggestVersion at h
  split at h
  · cases h
  · rename_i e he
    split at h
    · cases h; exact hP
    · obtain ⟨ver, -, h⟩ := Go.bind_eq_ok.1 h
      obtain ⟨b, hb, h⟩ := Go.bind_eq_ok.1 h
      cases h
      rw [hans]
      exact store_of_put hput hb (Storage.keepsScore_of_error he) hP
  · rename_i p hp
    split at h
    · obtain ⟨ver, -, h⟩ := Go.bind_eq_ok.1 h
      obtain ⟨b, hb, h⟩ := Go.bind_eq_ok.1 h
      cases h
      rw [hans]
      exact store_of_put hput hb (Storage.keepsScore_of_read hp (.inr rfl) id) hP
    all_goals
      cases h
      exact hP

theorem appendAddresses_of_put : ∀ {addresses : List (Option AddrPort)} {r : Registry} {count : Nat} {a : Answer Nat},
    r.appendAddresses count addresses = .ok a → P r.storage → P a.registry.storage
  | [], r, count, a, h, hP => by cases h; exact hP
  | none :: addresses, r, count, a, h, hP => by
    unfold appendAddresses at h
    exact appendAddresses_of_put h hP
  | some ap :: addresses, r, count, a, h, hP => by
    unfold appendAddresses at h
    split at h
    · exact appendAddresses_of_put h hP
    · split at h
      · exact appendAddresses_of_put h hP
      · split at h
        · exact appendAddresses_of_put h hP
        · split at h
          · cases h
          · cases h; exact hP
          · exact appendAddresses_of_put h hP
          · rename_i hhas
            obtain ⟨b, hb, h⟩ := Go.bind_eq_ok.1 h
            have hP' := store_of_put hput hb (Storage.keepsScore_of_error (Storage.peer_of_hasPeer hhas)) hP
            split at h
            · cases h; exact hP'
            · exact appendAddresses_of_put h hP'

theorem unregisterPeer_of_put {now : Int} {addr : Addr} {a : Answer Unit} (h : r.unregisterPeer now addr = .ok a)
    (hP : P r.storage) : P a.registry.storage := by
  unfold unregisterPeer at h
  split at h
  · cases h
  · cases h; exact hP
  · rename_i p hp
    exact store_of_put hput h (Storage.keepsScore_of_read hp (.inr rfl) id) hP

theorem updatePeerScore_of_put {addr : Addr} {score : Int} {a : Answer Unit}
    (h : r.updatePeerScore addr score = .ok a) (hP : P r.storage) : P a.registry.storage := by
  unfold updatePeerScore at h
  split at h
  · cases h
  · cases h; exact hP
  · rename_i p hp
    exact store_of_put hput h (Storage.keepsScore_of_read hp (.inr rfl) fun _ => Option.some_ne_none score) hP

theorem markAsHostile_of_put {addr : Option Addr} {a : Answer Unit} (h : r.markAsHostile addr = .ok a)
    (hP : P r.storage) : P a.registry.storage := by
  unfold markAsHostile at h
  split at h
  · cases h; exact hP
  · simp only at h
    split at h
    · cases h
    · rename_i e he
      split at h
      · cases h; exact hP
      · exact store_of_put hput h (Storage.keepsScore_of_error he) hP
    · rename_i p hp
      exact store_of_put hput h (Storage.keepsScore_of_read hp (.inl rfl) id) hP

end Registry

/-- **An operation changes the database through `putPeer` only**: what every `putPeer` keeps, every step keeps. -/
theorem Step.storage_of_put {cmpMinor : Version → Version → Int} {op : Op} {r' : Registry} (h : Step cmpMinor r op r')
    (hP : P r.storage) : P r'.storage := by
  cases op with
  | suggestVersion now addr =>
    obtain ⟨a, ha, he⟩ := Go.bind_eq_ok.1 h
    cases he
    exact Registry.suggestVersion_of_put hput ha hP
  | registerPeer now addr np hs =>
    obtain ⟨a, ha, he⟩ := Go.bind_eq_ok.1 h
    cases he
    cases Registry.registerPeer_registered ha with
    | accepted p port hp hst _ =>
      exact Registry.store_of_put hput hst (Registry.keepsScore_of_lookUp hp.looked (.inl rfl) rfl) hP
    | judged p hj hst _ =>
      exact Registry.store_of_put hput hst (Registry.keepsScore_of_lookUp hj.looked (.inr rfl) rfl) hP
    | refused e _ _ hreg => rw [hreg]; exact hP
  | unregisterPeer now addr =>
    obtain ⟨a, ha, he⟩ := Go.bind_eq_ok.1 h
    cases he
    exact Registry.unregisterPeer_of_put hput ha hP
  | updatePeerScore addr score =>
    obtain ⟨a, ha, he⟩ := Go.bind_eq_ok.1 h
    cases he
    exact Registry.updatePeerScore_of_put hput ha hP
  | appendAddresses addresses =>
    obtain ⟨a, ha, he⟩ := Go.bind_eq_ok.1 h
    cases he
    exact Registry.appendAddresses_of_put hput ha hP
  | takeAvailableAddresses now =>
    obtain ⟨a, ha, he⟩ := Go.bind_eq_ok.1 h
    cases he
    rw [Registry.takeAvailableAddresses_storage ha]
    exact hP
  | markAsHostile addr =>
    obtain ⟨a, ha, he⟩ := Go.bind_eq_ok.1 h
    cases he
    exact Registry.markAsHostile_of_put hput ha hP

end

/-- **A score once told stays there.** -/
theorem step_scored {cmpMinor : Version → Version → Int} {r r' : Registry} {op : Op} (h : Step cmpMinor r op r')
    {a : Addr} (ha : a.is4 = true) (hs : r.storage.Scored a) : r'.storage.Scored a :=
  h.storage_of_put (P := fun s => s.Scored a) (fun _ _ _ hs hk hput => hs.putPeer ha hk hput) hs

/-! ## Reachable registries -/

namespace Reachable
variable {cmpMinor : Version → Version → Int} {r : Registry}

theorem onlyIPv4 (h : Reachable cmpMinor r) : OnlyIPv4 r := by
  have hnew : ∀ {scheme : Proto.Scheme} {declared : Proto.TCPAddr} {versions : List Version} {s : Storage}
      {r : Registry}, newRegistry scheme declared versions s = .ok r → OnlyIPv4 r := fun h a ha => by
    rw [newRegistry_connections h] at ha
    simp at ha
  induction h with
  | fresh h => exact hnew h
  | restart _ h _ => exact hnew h
  | step _ hs ih => exact step_onlyIPv4 hs ih

theorem decodable (h : Reachable cmpMinor r) : r.storage.Decodable := by
  induction h with
  | fresh h =>
    rw [newRegistry_storage h]
    intro k
    simp [newStorage]
  | restart _ h ih => rw [newRegistry_storage h]; exact ih
  | step _ hs ih => exact hs.storage_of_put (fun _ _ _ hd _ h => hd.putPeer h) ih

end Reachable

end Peers
end ForkDetector
