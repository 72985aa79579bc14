import ForkDetector.Lib.Rotation
import ForkDetector.Peers.Keys
/-!
# Versions — the versions suggested to an address

`SuggestVersion` keeps its place in the list of versions in the record of the address.  While the state of the address
is unknown no other operation changes the version there, so that the suggestions follow each other around the list
(`suggested_run`).  They are all of the configured versions when no two of these have the same major and minor number,
and stop at the first such pair otherwise (`rotates_iff`).
-/
namespace ForkDetector
namespace Peers

open Proto (Version Handshake Conn)
open Run (Path Link)

/-- The part of a version that the rotation looks at. -/
def pair (v : Version) : UInt32 × UInt32 := (v.major, v.minor)

/-! ## The list of versions -/

section
variable {vs : List Version} {v w : Version}

theorem nextVersion_eq_ok : nextVersion vs v = .ok w ↔ Rotation.next pair vs (pair v) = some w := by
  have hfind : (fun x : Version => v.major == x.major && v.minor == x.minor) =
      fun x => decide (pair v = pair x) := by
    funext x
    simp [pair, Bool.beq_eq_decide_eq]
  unfold nextVersion Rotation.next
  rw [hfind]
  simp only
  split <;> exact Go.index_eq_ok

theorem bestVersion_eq_ok : bestVersion vs = .ok w ↔ vs[0]? = some w := Go.index_eq_ok

theorem pair_newVersions (vs : List Version) : ((newVersions vs).map pair).Perm (vs.map pair) := by
  unfold newVersions
  rw [List.map_map]
  exact (List.perm_insertionSort Newer vs).map pair

theorem length_newVersions (vs : List Version) : (newVersions vs).length = vs.length := by
  unfold newVersions
  rw [List.length_map, List.length_insertionSort]

/-- The order of pairs, the highest first. -/
def Above (a b : UInt32 × UInt32) : Prop := b.1 < a.1 ∨ a.1 = b.1 ∧ b.2 ≤ a.2

theorem Above.antisymm (a b : UInt32 × UInt32) (h : Above a b) (h' : Above b a) : a = b := by
  obtain ⟨a1, a2⟩ := a
  obtain ⟨b1, b2⟩ := b
  unfold Above at h h'
  simp only [Prod.mk.injEq] at *
  grind

theorem newer_total (v w : Version) : Newer v w ∨ Newer w v := by
  unfold Newer
  grind

theorem newer_trans {u v w : Version} (h : Newer u v) (h' : Newer v w) : Newer u w := by
  unfold Newer at *
  grind

theorem sorted_newVersions (vs : List Version) : ((newVersions vs).map pair).Pairwise Above := by
  have htotal : Std.Total Newer := ⟨newer_total⟩
  have htrans : IsTrans Version Newer := ⟨fun _ _ _ => newer_trans⟩
  unfold newVersions
  rw [List.map_map, List.pairwise_map]
  refine (List.pairwise_insertionSort Newer vs).imp fun {v w} h => ?_
  exact h.imp id fun ⟨hmajor, h⟩ => ⟨hmajor, h.elim UInt32.le_of_lt fun h => UInt32.le_of_eq h.1.symm⟩

end

/-! ## The record of an address that stays unknown -/

/-- What the database holds of an address that stays unknown: nothing yet, or a version. -/
inductive Stands (s : Storage) (a : Addr) : Option Version → Prop where
  | absent : s.records[a.bytes]? = none → Stands s a none
  | unknown (v : Value) (ver : Version) : s.records[a.bytes]? = some (.value v) → v.version = some ver →
      v.state = .unknown → Stands s a (some ver)

/-- The version that is suggested next. -/
def upcoming (vs : List Version) : Option Version → Res Version
  | none => bestVersion vs
  | some ver => nextVersion vs ver

/-- An address that is appended gets a record without a version. -/
def Appends (c c' : Option Version) : Prop := c' = c ∨ c = none ∧ c' = some ⟨0, 0, 0⟩

theorem Appends.trans {c c' c'' : Option Version} (h : Appends c c') (h' : Appends c' c'') : Appends c c'' := by
  rcases h with rfl | ⟨rfl, rfl⟩
  · exact h'
  · rcases h' with rfl | ⟨hc, -⟩
    · exact .inr ⟨rfl, rfl⟩
    · cases hc

namespace Stands
variable {s s' : Storage} {a : Addr} {c : Option Version} {p : Peer}

theorem of_record (h : Stands s a c) (he : s'.records[a.bytes]? = s.records[a.bytes]?) : Stands s' a c := by
  cases h with
  | absent hr => exact .absent (he.trans hr)
  | unknown v ver hr hv hst => exact .unknown v ver (he.trans hr) hv hst

theorem of_put (h : s.putPeer p = .ok s') (hst : p.state = .unknown) : Stands s' p.addr (some p.version) := by
  obtain ⟨-, hn, rfl⟩ := Storage.putPeer_eq_ok.1 h
  exact .unknown _ p.version (by rw [Go.getElem?_insert_eq, if_pos rfl]) rfl hst

theorem of_put_ne (h : Stands s a c) (h4 : a.is4 = true) (hput : s.putPeer p = .ok s') (hne : p.addr ≠ a) :
    Stands s' a c := by
  obtain ⟨hp, hn, rfl⟩ := Storage.putPeer_eq_ok.1 hput
  refine h.of_record ?_
  rw [Go.getElem?_insert_eq, if_neg fun he => hne (Addr.eq_of_is4 hp h4 he.symm)]

/-- What is read at the address. -/
theorem version_of_peer (h : Stands s a c) (h4 : a.is4 = true) (hp : s.peer a = .ok p) : c = some p.version := by
  cases h with
  | absent hr =>
    rw [Storage.peer_of_none h4 hr] at hp
    cases hp
  | unknown v ver hr hv hst =>
    rw [Storage.peer_of_value h4 hr, hv] at hp
    cases hp
    rfl

end Stands

namespace Registry
variable {cmpMinor : Version → Version → Int} {now : Int} {r r' : Registry} {a b : Addr} {c : Option Version}

/-- **A suggestion to an address that stays unknown** is the next version, and is stored. -/
theorem suggestVersion_stands (now : Int) (h4 : a.is4 = true) (hs : Stands r.storage a c) {ver : Version}
    (hup : upcoming r.versions c = .ok ver) : ∃ r', r.suggestVersion now a = .ok ⟨r', .ok ver⟩ ∧
      Stands r'.storage a (some ver) ∧ r'.versions = r.versions := by
  unfold suggestVersion
  cases hs with
  | absent hr =>
    have hput := putPeer_storable (s := r.storage) (p := { Peer.zero with
      addressPort := ⟨a, 0⟩, version := ver, nextAttempt := roundSecond (now + delay), state := .unknown })
      ⟨h4, validString_nil⟩
    rw [Storage.peer_of_none h4 hr, show bestVersion r.versions = .ok ver from hup]
    simp only [Go.fail, store, bind, Except.bind]
    rw [hput]
    exact ⟨_, rfl, .of_put hput rfl, rfl⟩
  | unknown v w hr hv hst =>
    have hput := putPeer_storable (s := r.storage) (p := ⟨⟨a, v.port⟩, v.nonce, v.name, ver, v.state,
      roundSecond (now + delay), v.score, none⟩) ⟨h4, v.name_valid⟩
    rw [Storage.peer_of_value h4 hr, hv]
    simp only [hst] at hput ⊢
    rw [show nextVersion r.versions w = .ok ver from hup]
    simp only [store, bind, Except.bind]
    rw [hput]
    exact ⟨_, rfl, .of_put hput rfl, rfl⟩

theorem PutsOn.stands {Q : Peer → Prop} (h : PutsOn Q r r' b) (h4 : a.is4 = true) (hs : Stands r.storage a c)
    (hQ : b = a → ∀ p, Q p → r.KeepsVersion a p)
    (hu : r'.storage.stateOf a = none ∨ r'.storage.stateOf a = some .unknown) : Stands r'.storage a c := by
  rcases h.storage with hsame | ⟨p, rfl, hq, hput⟩
  · exact hsame ▸ hs
  · by_cases hb : p.addr = a
    · have hstate := Storage.stateOf_putPeer h4 hput
      rw [if_pos hb.symm] at hstate
      have hst : p.state = .unknown := by
        rw [hstate] at hu
        simpa using hu
      obtain ⟨q, hread, hver⟩ := hQ hb p hq hst
      rw [hs.version_of_peer h4 hread, ← hver, ← hb]
      exact .of_put hput hst
    · exact hs.of_put_ne h4 hput hb

theorem appendAddresses_stands (h4 : a.is4 = true) : ∀ {addresses : List (Option AddrPort)} {r : Registry}
    {count : Nat} {ans : Answer Nat} {c : Option Version}, r.appendAddresses count addresses = .ok ans →
    Stands r.storage a c → ans.registry.versions = r.versions ∧
      ∃ c', Appends c c' ∧ Stands ans.registry.storage a c'
  | [], r, count, ans, c, h, hs => by
    cases h
    exact ⟨rfl, c, .inl rfl, hs⟩
  | none :: addresses, r, count, ans, c, h, hs => by
    unfold appendAddresses at h
    exact appendAddresses_stands h4 h hs
  | some ap :: addresses, r, count, ans, c, h, hs => by
    unfold appendAddresses at h
    split at h
    · exact appendAddresses_stands h4 h hs
    · split at h
      · exact appendAddresses_stands h4 h hs
      · split at h
        · exact appendAddresses_stands h4 h hs
        · split at h
          · cases h
          · cases h
            exact ⟨rfl, c, .inl rfl, hs⟩
          · exact appendAddresses_stands h4 h hs
          · rename_i hhas
            obtain ⟨b, hb, h⟩ := Go.bind_eq_ok.1 h
            obtain ⟨hv, c1, hc1, hs1⟩ : b.registry.versions = r.versions ∧
                ∃ c', Appends c c' ∧ Stands b.registry.storage a c' := by
              rcases store_cases hb with ⟨s, hput, rfl⟩ | ⟨e, -, rfl⟩
              · refine ⟨rfl, ?_⟩
                by_cases hap : ap.addr = a
                · cases hs with
                  | absent hr => exact ⟨_, .inr ⟨rfl, rfl⟩, hap ▸ Stands.of_put hput rfl⟩
                  | unknown v ver hr hv hst =>
                    rw [hap, Storage.hasPeer, keyBytes_of_is4 h4] at hhas
                    simp [bind, Except.bind, hr] at hhas
                · exact ⟨c, .inl rfl, hs.of_put_ne h4 hput hap⟩
              · exact ⟨rfl, c, .inl rfl, hs⟩
            split at h
            · cases h
              exact ⟨hv, c1, hc1, hs1⟩
            · obtain ⟨hv2, c2, hc2, hs2⟩ := appendAddresses_stands h4 h hs1
              exact ⟨hv2.trans hv, c2, hc1.trans hc2, hs2⟩

theorem takeFrom_versions {now : Int} : ∀ (ps : List Peer) (r : Registry),
    (takeFrom now r ps).1.versions = r.versions
  | [], r => rfl
  | p :: ps, r => by
    unfold takeFrom
    split
    · exact takeFrom_versions ps r
    · exact takeFrom_versions ps { r with pending := r.pending.insert p.addr }

theorem takeAvailableAddresses_versions {ans : Answer (List AddrPort)} (h : r.takeAvailableAddresses now = .ok ans) :
    ans.registry.versions = r.versions := by
  unfold takeAvailableAddresses at h
  split at h
  · cases h
  · cases h
    rfl
  · cases h
    exact takeFrom_versions _ r

end Registry

/-- **What a step leaves of the version of an address that stays unknown**, but for a suggestion to it. -/
theorem Step.stands {cmpMinor : Version → Version → Int} {r r' : Registry} {op : Op} {a : Addr} {c : Option Version}
    (h : Step cmpMinor r op r') (h4 : a.is4 = true) (hs : Stands r.storage a c)
    (hne : ∀ now, op ≠ .suggestVersion now a)
    (hu : r'.storage.stateOf a = none ∨ r'.storage.stateOf a = some .unknown) :
    r'.versions = r.versions ∧ ∃ c', Appends c c' ∧ Stands r'.storage a c' := by
  have hon : ∀ b, op.On b → r'.versions = r.versions ∧ ∃ c', Appends c c' ∧ Stands r'.storage a c' := fun b hb =>
    have hputs := h.putsOn hb
    ⟨hputs.versions, c, .inl rfl, hputs.stands h4 hs (fun hba p hq => hba ▸ hq (hba ▸ hne)) hu⟩
  cases op with
  | suggestVersion now addr => exact hon addr rfl
  | registerPeer now addr np hs => exact hon addr rfl
  | unregisterPeer now addr => exact hon addr rfl
  | updatePeerScore addr score => exact hon addr rfl
  | appendAddresses addresses =>
    obtain ⟨ans, hans, he⟩ := Go.bind_eq_ok.1 h
    cases he
    exact Registry.appendAddresses_stands h4 hans hs
  | takeAvailableAddresses now =>
    obtain ⟨ans, hans, he⟩ := Go.bind_eq_ok.1 h
    cases he
    exact ⟨Registry.takeAvailableAddresses_versions hans, c, .inl rfl,
      Registry.takeAvailableAddresses_storage hans ▸ hs⟩
  | markAsHostile addr =>
    cases addr with
    | some b => exact hon b rfl
    | none =>
      obtain ⟨ans, hans, he⟩ := Go.bind_eq_ok.1 h
      cases hans
      cases he
      exact ⟨rfl, c, .inl rfl, hs⟩

/-! ## Runs -/

/-- The version that a step suggests to the address. -/
def suggestion (a : Addr) (x : Link Registry Op) : Option Version :=
  match x.input with
  | .suggestVersion now addr =>
    if addr = a then
      match x.pre.suggestVersion now addr with
      | .ok ⟨_, .ok ver⟩ => some ver
      | _ => none
    else none
  | _ => none

/-- The versions suggested to the address along a run. -/
def suggested (a : Addr) (tr : List (Link Registry Op)) : List Version := tr.filterMap (suggestion a)

/-- In every state reached the address is unknown, or has no record. -/
def StaysUnknown (a : Addr) (tr : List (Link Registry Op)) : Prop :=
  ∀ x ∈ tr, x.post.storage.stateOf a = none ∨ x.post.storage.stateOf a = some .unknown

/-- Suggestions around the list, from the version that the address has. -/
structure Around (vs : List Version) (c : Option Version) (l : List Version) : Prop where
  first : ∀ v, l.head? = some v → upcoming vs c = .ok v
  follows : Rotation.Follows pair vs l

theorem exists_upcoming {vs : List Version} (hne : vs ≠ []) (c : Option Version) : ∃ v, upcoming vs c = .ok v := by
  cases c with
  | none => exact ⟨_, bestVersion_eq_ok.2 (List.getElem?_eq_getElem (List.length_pos_iff.2 hne))⟩
  | some w =>
    obtain ⟨v, hv⟩ : ∃ v, Rotation.next pair vs (pair w) = some v := Rotation.exists_next hne (pair w)
    exact ⟨v, nextVersion_eq_ok.2 hv⟩

theorem upcoming_mem {vs : List Version} {c : Option Version} {v : Version} (h : upcoming vs c = .ok v) : v ∈ vs := by
  cases c with
  | none => exact List.mem_of_getElem? (bestVersion_eq_ok.1 h)
  | some w => exact Rotation.next_mem (nextVersion_eq_ok.1 h)

theorem Around.mem {vs l : List Version} {c : Option Version} (h : Around vs c l) : ∀ v ∈ l, v ∈ vs := by
  refine h.follows.induction (fun v => v ∈ vs) l (fun _ _ hn _ => Rotation.next_mem hn) fun hne => ?_
  exact upcoming_mem (h.first _ (List.head?_eq_some_head hne))

theorem Around.cons {vs l : List Version} {c : Option Version} {v : Version} (hup : upcoming vs c = .ok v)
    (h : Around vs (some v) l) : Around vs c (v :: l) := by
  refine ⟨fun w hw => by cases hw; exact hup, ?_⟩
  exact List.IsChain.cons h.follows fun w hw => nextVersion_eq_ok.1 (h.first w hw)

/-- **The suggestions of a run go around the list**, whatever else happens in between. -/
theorem suggested_run {cmpMinor : Version → Version → Int} {r r' : Registry} {tr : List (Link Registry Op)} {a : Addr}
    {c : Option Version} (h : Path (Step cmpMinor) r tr r') (h4 : a.is4 = true) (hne : r.versions ≠ [])
    (hs : Stands r.storage a c) (hu : StaysUnknown a tr) :
    (∀ x ∈ tr, ∀ now, x.input = .suggestVersion now a → ∃ v, suggestion a x = some v) ∧
      ∃ c', Appends c c' ∧ Around r.versions c' (suggested a tr) := by
  induction h generalizing c with
  | nil => exact ⟨fun x hx => (List.not_mem_nil hx).elim, c, .inl rfl, ⟨fun _ hv => (nomatch hv), .nil⟩⟩
  | @cons r1 r2 r3 op tr hstep _ ih =>
    obtain ⟨hu1, hutr⟩ := List.forall_mem_cons.1 hu
    by_cases hop : ∃ now, op = .suggestVersion now a
    · obtain ⟨now, rfl⟩ := hop
      obtain ⟨v, hv⟩ := exists_upcoming hne c
      obtain ⟨r2', hsug, hs', hvers⟩ := Registry.suggestVersion_stands now h4 hs hv
      obtain rfl : r2' = r2 := by
        obtain ⟨ans, hans, he⟩ := Go.bind_eq_ok.1 hstep
        rw [hsug] at hans
        cases hans
        cases he
        rfl
      have hx : suggestion a ⟨r1, .suggestVersion now a, r2'⟩ = some v := by
        unfold suggestion
        simp only [if_true, hsug]
      obtain ⟨hall, c', hc', har⟩ := ih (hvers ▸ hne) hs' hutr
      obtain rfl : c' = some v := hc'.elim id fun hc => by cases hc.1
      refine ⟨List.forall_mem_cons.2 ⟨fun _ _ => ⟨v, hx⟩, hall⟩, c, .inl rfl, ?_⟩
      unfold suggested
      rw [List.filterMap_cons_some hx]
      exact (hvers ▸ har).cons hv
    · obtain ⟨hvers, c1, hc1, hs1⟩ := Step.stands hstep h4 hs (fun now he => hop ⟨now, he⟩) hu1
      have hx : suggestion a ⟨r1, op, r2⟩ = none := by
        unfold suggestion
        split
        · rename_i now addr he
          rw [if_neg]
          rintro rfl
          exact hop ⟨now, he⟩
        · rfl
      obtain ⟨hall, c', hc', har⟩ := ih (hvers ▸ hne) hs1 hutr
      refine ⟨List.forall_mem_cons.2 ⟨fun now he => (hop ⟨now, he⟩).elim, hall⟩, c', hc1.trans hc', ?_⟩
      unfold suggested
      rw [List.filterMap_cons_none hx]
      exact hvers ▸ har

/-! ## The rotation -/

/-- The version that is highest by its pair, without its patch number. -/
structure Highest (vs : List Version) (u : Version) : Prop where
  patch : u.patch = 0
  configured : pair u ∈ vs.map pair
  highest : ∀ v ∈ vs, Above (pair u) (pair v)

/-- **The suggestions of a run**: each call answers, they start with the highest version at an address that had no
record (`new`), and as many in a row as there are versions are all of the pairs. -/
structure Rotates (vs : List Version) (a : Addr) (new : Prop) (tr : List (Link Registry Op)) : Prop where
  answered : ∀ x ∈ tr, ∀ now, x.input = .suggestVersion now a → ∃ v, suggestion a x = some v
  starts : new → ∀ u, (suggested a tr).head? = some u → Highest vs u
  covers : ∀ before w after, suggested a tr = before ++ w ++ after → w.length = vs.length →
    ∀ v ∈ vs, ∃ u ∈ w, pair u = pair v

/-- So it is in every run over any database in which the address stays unknown. -/
def AlwaysRotates (vs : List Version) (a : Addr) : Prop :=
  ∀ cmpMinor scheme declared (s : Storage) (c : Option Version) (r r' : Registry) tr,
    newRegistry scheme declared vs s = .ok r → Stands s a c → Path (Step cmpMinor) r tr r' → StaysUnknown a tr →
    Rotates vs a (c = none) tr

section
variable {vs : List Version} {a : Addr} {u : Version}

theorem newRegistry_versions {scheme : Proto.Scheme} {declared : Proto.TCPAddr} {s : Storage} {r : Registry}
    (h : newRegistry scheme declared vs s = .ok r) : r.versions = newVersions vs := by
  unfold newRegistry at h
  split at h
  · cases h
    rfl
  · split at h
    · cases h
    · cases h
      rfl

theorem newVersions_ne_nil (hne : vs ≠ []) : newVersions vs ≠ [] := fun h => hne <| by
  rw [← List.length_eq_zero_iff, ← length_newVersions, h, List.length_nil]

theorem patch_newVersions (hu : u ∈ newVersions vs) : u.patch = 0 := by
  obtain ⟨v, -, rfl⟩ := List.mem_map.1 hu
  rfl

theorem mem_pairs {p : UInt32 × UInt32} : p ∈ (newVersions vs).map pair ↔ p ∈ vs.map pair :=
  (pair_newVersions vs).mem_iff

theorem highest_first (h : (newVersions vs)[0]? = some u) : Highest vs u := by
  have hmem := List.mem_of_getElem? h
  refine ⟨patch_newVersions hmem, mem_pairs.1 (List.mem_map_of_mem hmem), fun v hv => ?_⟩
  obtain ⟨x, hx, hxv⟩ := List.mem_map.1 (mem_pairs.2 (List.mem_map_of_mem hv))
  have hsort := sorted_newVersions vs
  obtain ⟨y, xs, hxs⟩ := List.exists_cons_of_ne_nil (List.ne_nil_of_mem hmem)
  rw [hxs] at h hsort hx
  cases h
  rw [← hxv]
  rcases List.mem_cons.1 hx with rfl | hx
  · exact .inr ⟨rfl, UInt32.le_refl _⟩
  · exact List.rel_of_pairwise_cons hsort (List.mem_map_of_mem hx)

/-- Without a version the rotation starts at the highest one too, as the pair of zeros can only be the last. -/
theorem highest_after_zero (hd : (vs.map pair).Nodup) (h : nextVersion (newVersions vs) ⟨0, 0, 0⟩ = .ok u) :
    Highest vs u := by
  have hd' : ((newVersions vs).map pair).Nodup := (pair_newVersions vs).nodup_iff.2 hd
  refine highest_first ((Rotation.next_of_last fun i hi he => ?_).symm.trans (nextVersion_eq_ok.1 h))
  have habove := List.pairwise_iff_getElem.1 (sorted_newVersions vs) i (i + 1) (by simp; omega) (by simpa using hi)
    (Nat.lt_succ_self i)
  rw [List.getElem_map, List.getElem_map, he] at habove
  have hzero : pair (newVersions vs)[i + 1] = pair ⟨0, 0, 0⟩ := by
    unfold Above at habove
    unfold pair at *
    simp only [Prod.mk.injEq] at *
    grind
  have := Rotation.eq_of_key hd' (by omega) hi (he.trans hzero.symm)
  omega

theorem highest_of_same (hsame : ∀ v ∈ vs, ∀ w ∈ vs, pair v = pair w) (hu : u ∈ newVersions vs) : Highest vs u := by
  have hmem := mem_pairs.1 (List.mem_map_of_mem hu)
  refine ⟨patch_newVersions hu, hmem, fun v hv => ?_⟩
  obtain ⟨w, hw, hwu⟩ := List.mem_map.1 hmem
  rw [← hwu, hsame w hw v hv]
  exact .inr ⟨rfl, UInt32.le_refl _⟩

/-- The suggestions of a run, over distinct pairs or a single one. -/
theorem rotates_of (hne : vs ≠ []) (hcond : (vs.map pair).Nodup ∨ ∀ v ∈ vs, ∀ w ∈ vs, pair v = pair w)
    (h4 : a.is4 = true) : AlwaysRotates vs a := by
  intro cmpMinor scheme declared s c r r' tr hnew hs htr hu
  have hvers := newRegistry_versions hnew
  obtain ⟨hall, c', hc', har⟩ := suggested_run htr h4 (hvers ▸ newVersions_ne_nil hne)
    (newRegistry_storage hnew ▸ hs) hu
  rw [hvers] at har
  refine ⟨hall, fun hc u hu => ?_, fun before w after he hlen v hv => ?_⟩
  · have hup := har.first u hu
    rcases hcond with hd | hsame
    · rcases hc' with rfl | ⟨-, rfl⟩
      · rw [hc] at hup
        exact highest_first (bestVersion_eq_ok.1 hup)
      · exact highest_after_zero hd hup
    · exact highest_of_same hsame (upcoming_mem hup)
  · have hw : ∀ u ∈ w, u ∈ newVersions vs := fun u hu => har.mem u (he ▸ by simp [hu])
    rcases hcond with hd | hsame
    · have hfollows : Rotation.Follows pair (newVersions vs) w :=
        List.IsChain.infix (he ▸ har.follows) ⟨before, after, rfl⟩
      obtain ⟨x, hx, hxv⟩ := List.mem_map.1 (mem_pairs.2 (List.mem_map_of_mem hv))
      exact ⟨x, Rotation.mem_of_window ((pair_newVersions vs).nodup_iff.2 hd) hfollows hw
        (hlen.trans (length_newVersions vs).symm) hx, hxv⟩
    · obtain ⟨u, hu⟩ := List.exists_mem_of_length_pos (hlen ▸ List.length_pos_iff.2 hne)
      obtain ⟨v', hv', huv⟩ := List.mem_map.1 (mem_pairs.1 (List.mem_map_of_mem (hw u hu)))
      exact ⟨u, hu, huv.symm.trans (hsame v' hv' v hv)⟩

/-- Any number of calls in a row, each of them answered. -/
theorem exists_suggestions (cmpMinor : Version → Version → Int) (h4 : a.is4 = true) :
    ∀ (m : Nat) {r : Registry} {c : Option Version}, r.versions ≠ [] → Stands r.storage a c →
      ∃ tr r', Path (Step cmpMinor) r tr r' ∧ StaysUnknown a tr ∧ (suggested a tr).length = m
  | 0, r, _, _, _ => ⟨[], r, .nil r, fun _ hx => (List.not_mem_nil hx).elim, rfl⟩
  | m + 1, r, c, hne, hs => by
    obtain ⟨v, hv⟩ := exists_upcoming hne c
    obtain ⟨r1, hsug, hs1, hvers⟩ := Registry.suggestVersion_stands 0 h4 hs hv
    obtain ⟨tr, r', htr, hu, hlen⟩ := exists_suggestions cmpMinor h4 m (hvers ▸ hne) hs1
    have hstep : Step cmpMinor r (.suggestVersion 0 a) r1 := Go.bind_eq_ok.2 ⟨_, hsug, rfl⟩
    have hx : suggestion a ⟨r, .suggestVersion 0 a, r1⟩ = some v := by
      unfold suggestion
      simp only [if_true, hsug]
    have hstate : r1.storage.stateOf a = some .unknown := by
      cases hs1 with
      | unknown w ver hr hver hst => rw [Storage.stateOf_of_is4 h4, hr, ← hst]
    refine ⟨_, r', .cons hstep htr, List.forall_mem_cons.2 ⟨.inr hstate, hu⟩, ?_⟩
    unfold suggested at hlen ⊢
    rw [List.filterMap_cons_some hx, List.length_cons, hlen]

/-- A list with two entries of one pair and one of another is not gone around. -/
theorem of_alwaysRotates (hne : vs ≠ []) (h4 : a.is4 = true) (h : AlwaysRotates vs a) :
    (vs.map pair).Nodup ∨ ∀ v ∈ vs, ∀ w ∈ vs, pair v = pair w := by
  refine or_iff_not_imp_left.2 fun hdup => ?_
  obtain ⟨x, hx, hstuck⟩ := Rotation.exists_stuck Above.antisymm (sorted_newVersions vs)
    fun hd => hdup ((pair_newVersions vs).nodup_iff.1 hd)
  obtain ⟨r, hr⟩ : ∃ r, newRegistry 0 ⟨true, none⟩ vs newStorage = .ok r := ⟨_, rfl⟩
  have hs : Stands newStorage a none := .absent Std.ExtTreeMap.getElem?_empty
  have hvers := newRegistry_versions hr
  have hvne : r.versions ≠ [] := hvers ▸ newVersions_ne_nil hne
  have hs' : Stands r.storage a none := newRegistry_storage hr ▸ hs
  obtain ⟨tr, r', htr, hu, hlen⟩ := exists_suggestions (fun _ _ => 0) h4 (vs.length + vs.length) hvne hs'
  obtain ⟨-, c', -, har⟩ := suggested_run htr h4 hvne hs' hu
  have hcovers := (h _ _ _ _ _ _ _ _ hr hs htr hu).covers
  -- the first half comes to the pair that is stuck, and the second half does not leave it
  obtain ⟨w1, w2, hsplit, hlen1, hlen2⟩ : ∃ w1 w2, suggested a tr = w1 ++ w2 ∧ w1.length = vs.length ∧
      w2.length = vs.length :=
    ⟨_, _, (List.take_append_drop vs.length _).symm, by rw [List.length_take, hlen]; omega,
      by rw [List.length_drop, hlen]; omega⟩
  obtain ⟨v0, hv0, hvx⟩ := List.mem_map.1 (mem_pairs.1 (List.mem_map_of_mem hx))
  obtain ⟨u, hu1, huv⟩ := hcovers [] w1 w2 hsplit hlen1 v0 hv0
  obtain ⟨before, after, rfl⟩ := List.append_of_mem hu1
  have hux : pair u = pair x := huv.trans hvx
  have htail : Rotation.Follows pair (newVersions vs) (u :: (after ++ w2)) :=
    List.IsChain.suffix (hvers ▸ har.follows) ⟨before, by rw [hsplit]; simp⟩
  have hstays := Rotation.stays (fun y hy => (hstuck y (hux ▸ hy)).trans hux.symm) htail
  have hall : ∀ v ∈ vs, pair v = pair u := fun v hv => by
    obtain ⟨y, hy, hyv⟩ := hcovers (before ++ u :: after) w2 [] (by rw [hsplit, List.append_nil]) hlen2 v hv
    exact hyv.symm.trans (hstays y (List.mem_append_right _ hy))
  exact fun v hv w hw => (hall v hv).trans (hall w hw).symm

end

/-- **When the suggestions go around all versions**: when no two of these have the same major and minor number, or all
have. -/
theorem rotates_iff {vs : List Version} {a : Addr} (hne : vs ≠ []) (h4 : a.is4 = true) :
    AlwaysRotates vs a ↔ (vs.map pair).Nodup ∨ ∀ v ∈ vs, ∀ w ∈ vs, pair v = pair w :=
  ⟨of_alwaysRotates hne h4, fun h => rotates_of hne h h4⟩

/-- Two versions, as by default. -/
theorem rotates_iff_sample : AlwaysRotates [⟨1, 4, 18⟩, ⟨1, 5, 4⟩] Sample.addr :=
  (rotates_iff (by decide) rfl).2 (.inl (by decide))

def Sample.branches : List Version := [⟨1, 5, 0⟩, ⟨1, 4, 3⟩, ⟨1, 4, 1⟩]

/-- **Two releases of one branch** stop the rotation there. -/
theorem rotation_stops : ¬ AlwaysRotates Sample.branches Sample.addr ∧
    ∃ r tr r', newRegistry 87 ⟨true, none⟩ Sample.branches newStorage = .ok r ∧ Path (Step Sample.cmpMinor) r tr r' ∧
      suggested Sample.addr tr = [⟨1, 5, 0⟩, ⟨1, 4, 0⟩, ⟨1, 4, 0⟩, ⟨1, 4, 0⟩] := by
  refine ⟨fun h => ?_, ?_⟩
  · have := of_alwaysRotates (by decide) rfl h
    revert this
    decide
  · obtain ⟨r, hr⟩ : ∃ r, newRegistry 87 ⟨true, none⟩ Sample.branches newStorage = .ok r := ⟨_, rfl⟩
    obtain ⟨r', hr'⟩ := Go.exists_of_isOk (x := (List.replicate 4 (Op.suggestVersion 0 Sample.addr)).foldlM
      (Registry.apply Sample.cmpMinor) r) (by cases hr; decide +kernel)
    exact ⟨r, _, r', hr, (Path.of_links hr').1, by cases hr; decide +kernel⟩

end Peers
end ForkDetector
