import ForkDetector.Peers.Hostile
/-!
# Connected — whether connections and records agree

`RegisterPeer` writes the connections before the record, and judges a peer hostile without looking at the connections.
So an address in the connections has a connected record except after a name that cannot be stored, or after a second
connection from the address that is judged hostile.
-/
namespace ForkDetector
namespace Peers

open Proto (Version Handshake Conn)
open Run (Path Link)

/-- **Connections and records agree**: the address of every connection is stored as connected, and `Connections` lists
connected peers only. -/
structure InStep (r : Registry) : Prop where
  stored : ∀ a : Addr, r.connections[a]? ≠ none → r.storage.stateOf a = some .connected
  listed : ∀ (byName : Peer → Peer → Bool) (rng : Go.MapRange Addr Conn) (srt : Go.UnstableSort Peer byName),
    ∃ ps, r.listConnections rng srt = .ok ps ∧ ∀ p ∈ ps, p.state = .connected

def OnlyIPv4 (r : Registry) : Prop := ∀ a : Addr, r.connections[a]? ≠ none → a.is4 = true

/-- A registration that passes the checks with a name that cannot be stored while the address is not yet stored as
connected, or one that is judged hostile, and can be stored so, on an address with a connection. -/
def Splits (cmpMinor : Version → Version → Int) (r : Registry) : Op → Prop
  | .registerPeer _ addr np hs =>
    (∃ p port, r.Passes cmpMinor addr np hs p port) ∧ validString hs.nodeName = false ∧
        r.storage.stateOf addr ≠ some .connected ∨
      (∃ p, r.Judged cmpMinor addr np p) ∧ validString (Registry.combinedName np.handshake) = true ∧
        r.connections[addr]? ≠ none
  | _ => False

def ReadsConnected (r : Registry) : Prop :=
  ∀ a : Addr, r.connections[a]? ≠ none → ∃ p, r.storage.peer a = .ok p ∧ p.state = .connected

theorem readsConnected_of_stored {r : Registry} {a : Addr} (h4 : a.is4 = true) (hr : ∃ p, r.storage.peer a = .ok p)
    (hs : r.storage.stateOf a = some .connected) : ∃ p, r.storage.peer a = .ok p ∧ p.state = .connected := by
  obtain ⟨p, hp⟩ := hr
  exact ⟨p, hp, (Storage.stateOf_of_peer h4 hp hs).1⟩

theorem mem_connections {r : Registry} {a : Addr} {c : Conn} :
    (a, c) ∈ r.connections.toList ↔ r.connections[a]? = some c :=
  Std.ExtTreeMap.mem_toList_iff_getElem?_eq_some

theorem mem_of_listConnections {r : Registry} {byName : Peer → Peer → Bool} {rng : Go.MapRange Addr Conn}
    {srt : Go.UnstableSort Peer byName} {ps : List Peer} (h : r.listConnections rng srt = .ok ps) {p : Peer}
    (hp : p ∈ ps) : ∃ a c sp, r.connections[a]? = some c ∧ r.storage.peer a = .ok sp ∧ p = { sp with p := some c } := by
  obtain ⟨l, hl, h⟩ := Go.bind_eq_ok.1 h
  cases h
  obtain ⟨e, he, hpe⟩ := (Go.mem_of_mapM hl p).1 ((srt.perm l).mem_iff.1 hp)
  obtain ⟨sp, hsp, hpe⟩ := Go.bind_eq_ok.1 hpe
  cases hpe
  exact ⟨e.1, e.2, sp, mem_connections.1 ((rng.perm _).mem_iff.1 he), Go.wrap_eq_ok.1 hsp, rfl⟩

theorem inStep_iff {r : Registry} (h4 : OnlyIPv4 r) : InStep r ↔ ReadsConnected r := by
  constructor
  · intro h a ha
    refine readsConnected_of_stored (h4 a ha) ?_ (h.stored a ha)
    obtain ⟨ps, hps, -⟩ := h.listed (fun _ _ => false) (.listed Addr Conn)
      ⟨id, fun l => .refl l, fun l => List.pairwise_of_forall fun _ _ => rfl⟩
    obtain ⟨c, hc⟩ := Option.ne_none_iff_exists'.1 ha
    obtain ⟨l, hl, -⟩ := Go.bind_eq_ok.1 hps
    obtain ⟨q, hq⟩ := Go.exists_of_mapM hl (mem_connections.2 hc)
    obtain ⟨p, hp, -⟩ := Go.bind_eq_ok.1 hq
    exact ⟨p, Go.wrap_eq_ok.1 hp⟩
  · intro h
    constructor
    · intro a ha
      obtain ⟨p, hp, hst⟩ := h a ha
      rw [Storage.stateOf_of_known (h4 a ha) hp (by rw [hst]; simp), hst]
    · intro byName rng srt
      have hread : ∀ e ∈ rng.entries r.connections.toList, ∃ p, r.storage.peer e.1 = .ok p ∧ p.state = .connected :=
        fun e he => h e.1 (by rw [mem_connections.1 ((rng.perm _).mem_iff.1 he)]; simp)
      obtain ⟨ps, hps⟩ := Go.exists_mapM_of_forall (f := fun e : Addr × Conn => (do
          let sp ← Go.wrap "failed to get active connetcions" (r.storage.peer e.1)
          .ok { sp with p := some e.2 } : Res Peer)) fun e he => by
        obtain ⟨p, hp, -⟩ := hread e he
        exact ⟨_, Go.bind_eq_ok.2 ⟨p, Go.wrap_eq_ok.2 hp, rfl⟩⟩
      have hlist : r.listConnections rng srt = .ok (srt.sort ps) := Go.bind_eq_ok.2 ⟨ps, hps, rfl⟩
      refine ⟨srt.sort ps, hlist, fun p hp => ?_⟩
      obtain ⟨a, c, q, hc, hq, rfl⟩ := mem_of_listConnections hlist hp
      obtain ⟨q', hq', hst⟩ := h a (by rw [hc]; simp)
      obtain rfl : q = q' := Except.ok.inj (hq.symm.trans hq')
      exact hst

/-! ## One step -/

theorem step_onlyIPv4 {cmpMinor : Version → Version → Int} {r r' : Registry} {op : Op} (h : Step cmpMinor r op r')
    (h4 : OnlyIPv4 r) : OnlyIPv4 r' := by
  have hsame : r'.connections = r.connections → OnlyIPv4 r' := fun hc a ha => h4 a (hc ▸ ha)
  cases step_effect h with
  | quiet _ _ _ _ hc _ => exact hsame hc
  | unregistered now b hc _ =>
    rcases hc with ⟨-, hc⟩ | ⟨-, hc⟩
    · intro a ha
      rw [hc, Go.getElem?_erase_eq] at ha
      split at ha
      · exact absurd rfl ha
      · exact h4 a ha
    · exact hsame hc
  | marked _ hc _ => exact hsame hc
  | registered now addr np hs a ha he =>
    cases he
    cases ha with
    | accepted p port hp hst _ =>
      intro b hb
      rw [(Registry.store_accepted hp.is4 hst).1, Go.getElem?_insert_eq] at hb
      split at hb
      · rename_i hba
        rw [hba]
        exact hp.is4
      · exact h4 b hb
    | judged p _ hst _ => exact hsame (Registry.store_judged hst).1
    | refused e _ _ hreg => exact hsame (by rw [hreg]; rfl)

theorem ReadsConnected.kept {r r' : Registry} (h4 : OnlyIPv4 r) (h : ReadsConnected r)
    (hk : StatesKept r.storage r'.storage) (hc : ∀ a : Addr, r'.connections[a]? ≠ none → r.connections[a]? ≠ none) :
    ReadsConnected r' := by
  intro a ha
  obtain ⟨p, hp, hst⟩ := h a (hc a ha)
  have ha4 := h4 a (hc a ha)
  have hs := Storage.stateOf_of_known ha4 hp (by rw [hst]; simp)
  rw [hst] at hs
  exact readsConnected_of_stored ha4 (hk.readable a ha4 ⟨p, hp⟩) (hk.state a _ ha4 hs)

section Registrations
variable {cmpMinor : Version → Version → Int} {now : Int} {r : Registry} {addr : Addr} {np : Conn} {hs : Handshake}

/-- After an accepted peer, connections read connected when its record was written, or was connected before. -/
theorem accepted_reads_iff {p : Peer} {port : UInt16} {a : Answer Unit} (hp : r.Passes cmpMinor addr np hs p port)
    (hst : Registry.store { r.taken addr with connections := r.connections.insert addr np }
      (Registry.acceptedPeer p now addr port np hs) = .ok a) (h4 : OnlyIPv4 r) (hin : InStep r) :
    ReadsConnected a.registry ↔ validString hs.nodeName = true ∨ r.storage.stateOf addr = some .connected := by
  obtain ⟨hconn, hstored⟩ := Registry.store_accepted hp.is4 hst
  have hread := (inStep_iff h4).1 hin
  have hself : a.registry.connections[addr]? ≠ none := by
    rw [hconn, Go.getElem?_insert_eq, if_pos rfl]
    simp
  have hothers : ∀ b, a.registry.connections[b]? ≠ none → b ≠ addr → r.connections[b]? ≠ none := fun b hb hne => by
    rwa [hconn, Go.getElem?_insert_eq, if_neg hne] at hb
  rcases hstored with ⟨hn, -, hr, hstate⟩ | ⟨hn, -, hsame⟩
  · refine iff_of_true (fun b hb => ?_) (.inl hn)
    by_cases hba : b = addr
    · subst hba
      exact readsConnected_of_stored hp.is4 hr (by rw [hstate b hp.is4, if_pos rfl])
    · have hb' := hothers b hb hba
      obtain ⟨q, hq, -⟩ := hread b hb'
      refine readsConnected_of_stored (h4 b hb') (Registry.store_readable hst (h4 b hb') ⟨q, hq⟩) ?_
      rw [hstate b (h4 b hb'), if_neg hba]
      exact hin.stored b hb'
  · constructor
    · intro h'
      obtain ⟨q, hq, hqst⟩ := h' addr hself
      rw [hsame] at hq
      exact .inr (by rw [Storage.stateOf_of_known hp.is4 hq (by rw [hqst]; simp), hqst])
    · rintro (hn' | hs)
      · rw [hn] at hn'; cases hn'
      · intro b hb
        rw [hsame]
        by_cases hba : b = addr
        · subst hba
          obtain ⟨hpst, -, hpeer⟩ := Registry.state_of_lookUp hp.is4 hp.looked hs
          exact ⟨p, hpeer, hpst⟩
        · exact hread b (hothers b hb hba)

/-- After a peer judged hostile, connections read connected unless its record was written under a connection. -/
theorem judged_reads_iff {p : Peer} {a : Answer Unit} (hj : r.Judged cmpMinor addr np p)
    (hst : (r.taken addr).store (Registry.hostilePeer p np) = .ok a) (h4 : OnlyIPv4 r) (hin : InStep r) :
    ReadsConnected a.registry ↔
      ¬ (validString (Registry.combinedName np.handshake) = true ∧ r.connections[addr]? ≠ none) := by
  obtain ⟨hconn, hstored⟩ := Registry.store_judged hst
  have hread := (inStep_iff h4).1 hin
  have hiff : ReadsConnected a.registry ↔
      ∀ b : Addr, r.connections[b]? ≠ none → ∃ p, a.registry.storage.peer b = .ok p ∧ p.state = .connected := by
    unfold ReadsConnected
    rw [hconn]
  rw [hiff]
  rcases hstored with ⟨hp4, hn, hstate⟩ | ⟨hno, hsame⟩
  · have haddr : p.addr = addr := by
      rcases Registry.addr_of_lookUp hj.looked with ha | rfl
      · exact ha
      · cases hp4
    by_cases hin' : r.connections[addr]? = none
    · refine iff_of_true (fun b hb => ?_) fun h => h.2 hin'
      obtain ⟨q, hq, -⟩ := hread b hb
      refine readsConnected_of_stored (h4 b hb) (Registry.store_readable hst (h4 b hb) ⟨q, hq⟩) ?_
      rw [hstate b (h4 b hb), if_neg]
      · exact hin.stored b hb
      · rintro rfl
        exact hb (haddr ▸ hin')
    · refine iff_of_false (fun h' => ?_) (not_not.2 ⟨hn, hin'⟩)
      obtain ⟨q, hq, hqst⟩ := h' addr hin'
      have := Storage.stateOf_of_known hj.is4 hq (by rw [hqst]; simp)
      rw [hstate addr hj.is4, if_pos haddr.symm, hqst] at this
      cases this
  · rw [hsame]
    refine iff_of_true hread fun ⟨hn, hne⟩ => ?_
    obtain ⟨-, haddr, -⟩ := Registry.state_of_lookUp hj.is4 hj.looked (hin.stored addr hne)
    exact hno ⟨by rw [haddr]; exact hj.is4, hn⟩

end Registrations

/-- **The operations that keep connections and records in step**, one by one. -/
theorem step_inStep_iff {cmpMinor : Version → Version → Int} {r r' : Registry} {op : Op} (h : Step cmpMinor r op r')
    (hop : ∀ a, op ≠ .markAsHostile a) (h4 : OnlyIPv4 r) (hin : InStep r) : InStep r' ↔ ¬ Splits cmpMinor r op := by
  have hread := (inStep_iff h4).1 hin
  rw [inStep_iff (step_onlyIPv4 h h4)]
  cases step_effect h with
  | quiet _ _ hreg _ hc hk =>
    refine iff_of_true (hread.kept h4 hk fun a ha => hc ▸ ha) fun hs => ?_
    cases op with
    | registerPeer now addr np hs => exact hreg _ _ _ _ rfl
    | _ => exact hs
  | unregistered now b hc hk =>
    refine iff_of_true (hread.kept h4 hk fun a ha => ?_) id
    rcases hc with ⟨-, hc⟩ | ⟨-, hc⟩
    · rw [hc, Go.getElem?_erase_eq] at ha
      split at ha
      · exact absurd rfl ha
      · exact ha
    · rwa [hc] at ha
  | marked a => exact absurd rfl (hop a)
  | registered now addr np hs a ha he =>
    cases he
    unfold Splits
    cases ha with
    | accepted p port hp hst _ =>
      rw [accepted_reads_iff hp hst h4 hin]
      have hnj : ¬ ∃ q, r.Judged cmpMinor addr np q := fun ⟨q, hq⟩ => hp.not_judged hq
      have hpass : ∃ p port, r.Passes cmpMinor addr np hs p port := ⟨p, port, hp⟩
      simp only [hnj, hpass, false_and, or_false, true_and, not_and, not_not]
      cases validString hs.nodeName <;> simp
    | judged p hj hst _ =>
      rw [judged_reads_iff hj hst h4 hin]
      have hnp : ¬ ∃ q port, r.Passes cmpMinor addr np hs q port := fun ⟨q, port, hq⟩ => hq.not_judged hj
      have hjudged : ∃ p, r.Judged cmpMinor addr np p := ⟨p, hj⟩
      simp only [hnp, hjudged, false_and, false_or, true_and]
    | refused e hno hnoj hreg =>
      rw [hreg]
      refine iff_of_true hread ?_
      rintro (⟨⟨p, port, hp⟩, -, -⟩ | ⟨⟨p, hj⟩, -, -⟩)
      · exact hno p port hp
      · exact hnoj p hj

/-! ## A whole run -/

/-- **When connections and records stay in step**, for every run of a registry in which nobody is marked as hostile. -/
theorem in_step_iff {cmpMinor : Version → Version → Int} {scheme : Proto.Scheme} {declared : Proto.TCPAddr}
    {versions : List Version} {s : Storage} {r r' : Registry} {tr : List (Link Registry Op)}
    (hnew : newRegistry scheme declared versions s = .ok r) (h : Path (Step cmpMinor) r tr r')
    (hops : ∀ x ∈ tr, ∀ a, x.input ≠ .markAsHostile a) :
    (∀ x ∈ tr, InStep x.post) ↔ ∀ x ∈ tr, ¬ Splits cmpMinor x.pre x.input := by
  have hempty : ∀ a : Addr, r.connections[a]? = none := fun a => by rw [newRegistry_connections hnew]; simp
  have h4 : OnlyIPv4 r := fun a ha => absurd (hempty a) ha
  have hin : InStep r := (inStep_iff h4).2 fun a ha => absurd (hempty a) ha
  have hpath : Path (fun r op r' => Step cmpMinor r op r' ∧ ∀ a, op ≠ .markAsHostile a) r tr r' := h.restrict hops
  exact Path.good_iff (fun r op r' (hinv : OnlyIPv4 r) (hgood : InStep r) hs =>
    ⟨step_onlyIPv4 hs.1 hinv, step_inStep_iff hs.1 hs.2 hinv hgood⟩) h4 hin hpath

/-- A first connection from an address. -/
theorem in_step_iff_sample : ∃ r r' tr, Path (Step Sample.cmpMinor) Sample.registry tr r' ∧
    tr = [⟨Sample.registry, .suggestVersion 0 Sample.addr, r⟩, ⟨r, Sample.register 0 Sample.waves, r'⟩] ∧
    ∀ x ∈ tr, InStep x.post := by
  let ops : List Op := [.suggestVersion 0 Sample.addr]
  obtain ⟨r, h1⟩ := Go.exists_of_isOk (x := Sample.run ops) (by decide +kernel)
  obtain ⟨r', h2⟩ := Go.exists_of_isOk (x := Sample.run (ops ++ [Sample.register 0 Sample.waves])) (by decide +kernel)
  have hnone : r.connections[Sample.addr]? = none :=
    Sample.run_reads (fun r => r.connections[Sample.addr]?) h1 (by decide +kernel)
  have hpath := Path.cons (Path.first_of_foldlM h1) (.cons (Sample.run_step h1 h2) (.nil r'))
  refine ⟨r, r', _, hpath, rfl, (in_step_iff Sample.registry_new hpath ?_).2 ?_⟩
  · intro x hx a
    simp only [List.mem_cons, List.not_mem_nil, or_false] at hx
    rcases hx with rfl | rfl <;> exact Op.noConfusion
  · intro x hx
    simp only [List.mem_cons, List.not_mem_nil, or_false] at hx
    rcases hx with rfl | rfl
    · exact id
    · rintro (⟨-, hn, -⟩ | ⟨-, -, hc⟩)
      · exact absurd hn (by decide +kernel)
      · exact hc hnone

/-- A second connection from an address, judged hostile while the first one is up. -/
theorem out_of_step : ¬ ∀ tr r', Path (Step Sample.cmpMinor) Sample.registry tr r' →
    (∀ x ∈ tr, ∀ a, x.input ≠ .markAsHostile a) → ∀ x ∈ tr, InStep x.post := by
  intro hall
  let ops : List Op := [.suggestVersion 0 Sample.addr]
  obtain ⟨r, h1⟩ := Go.exists_of_isOk (x := Sample.run ops) (by decide +kernel)
  obtain ⟨r', h2⟩ := Go.exists_of_isOk (x := Sample.run (ops ++ [Sample.register 0 Sample.waves])) (by decide +kernel)
  obtain ⟨r'', h3⟩ := Go.exists_of_isOk
    (x := Sample.run (ops ++ [Sample.register 0 Sample.waves] ++ [Sample.register 1 Sample.other])) (by decide +kernel)
  have hconn : r''.connections[Sample.addr]? = some (Sample.conn 0 Sample.waves) :=
    Sample.run_reads (fun r => r.connections[Sample.addr]?) h3 (by decide +kernel)
  have hhost : r''.storage.stateOf Sample.addr = some .hostile :=
    Sample.run_reads (fun r => r.storage.stateOf Sample.addr) h3 (by decide +kernel)
  have hpath := Path.cons (Path.first_of_foldlM h1)
    (.cons (Sample.run_step h1 h2) (.cons (Sample.run_step h2 h3) (.nil r'')))
  have hin := (hall _ _ hpath fun x hx a => by
    simp only [List.mem_cons, List.not_mem_nil, or_false] at hx
    rcases hx with rfl | rfl | rfl <;> exact Op.noConfusion) ⟨r', Sample.register 1 Sample.other, r''⟩ (by simp)
  have := hin.stored Sample.addr (by rw [hconn]; simp)
  exact absurd (hhost.symm.trans this) (by simp)

end Peers
end ForkDetector
