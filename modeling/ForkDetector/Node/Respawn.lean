import ForkDetector.Node.Messages
import ForkDetector.Peers.Pending
/-!
# Respawn — the dials of the detector

`respawn.go`: when its timer fires, the respawn takes the available addresses and dials them, each in a goroutine of its
own, and it unregisters an address whose dial fails.  A taken address is pending until an operation releases it, and a
dial that ends without an error releases nothing.
-/
namespace ForkDetector
namespace Peers

open Proto (Version Handshake Conn)

/-! ## What is taken -/

/-- A stored peer that may be dialled. -/
def Registry.Available (r : Registry) (now : Int) (ap : AddrPort) : Prop :=
  ∃ p : Peer, p.addressPort = ap ∧ p.addr.is4 = true ∧ r.storage.peer p.addr = .ok p ∧ r.unavailable now p = false

namespace Registry
variable {cmpMinor : Version → Version → Int} {now : Int} {r r' : Registry}

/-- Another address that becomes pending makes no peer unavailable. -/
theorem unavailable_insert {a : Addr} {p : Peer} (h : p.addr ≠ a) :
    unavailable now { r with pending := r.pending.insert a } p = r.unavailable now p := by
  have hc : (r.pending.insert a).contains p.addr = r.pending.contains p.addr := by
    rw [Bool.eq_iff_iff, ← Std.ExtTreeSet.mem_iff_contains, ← Std.ExtTreeSet.mem_iff_contains,
      Std.ExtTreeSet.mem_insert, Std.LawfulEqCmp.compare_eq_iff_eq]
    exact or_iff_right h.symm
  unfold unavailable
  rw [hc]

/-- **The loop of `TakeAvailableAddresses`**, over peers with different addresses, takes those that are available. -/
theorem takeFrom_eq : ∀ {ps : List Peer} {r : Registry}, (ps.map Peer.addr).Nodup →
    (takeFrom now r ps).2 = (ps.filter fun p => !r.unavailable now p).map Peer.addressPort
  | [], _, _ => rfl
  | p :: ps, r, hnd => by
    rw [List.map_cons, List.nodup_cons] at hnd
    unfold takeFrom
    cases hp : r.unavailable now p with
    | true =>
      rw [if_pos rfl, List.filter_cons_of_neg (by simp [hp])]
      exact takeFrom_eq hnd.2
    | false =>
      rw [if_neg (by simp), List.filter_cons_of_pos (by simp [hp]), List.map_cons]
      show p.addressPort :: (takeFrom now _ ps).2 = _
      rw [takeFrom_eq hnd.2]
      refine congrArg (List.cons _ ∘ List.map _) (List.filter_congr fun q hq => ?_)
      have hne : q.addr ≠ p.addr := fun he => hnd.1 (he ▸ List.mem_map_of_mem hq)
      rw [unavailable_insert hne]

end Registry

/-- **Exactly the available addresses are taken**, each once, over a database that only puts have written. -/
theorem Storage.Written.exists_takes {r : Registry} (hw : r.storage.Written) (now : Int) :
    ∃ a addresses, r.takeAvailableAddresses now = .ok a ∧ a.result = .ok addresses ∧
      (addresses.map AddrPort.addr).Nodup ∧ ∀ ap, ap ∈ addresses ↔ r.Available now ap := by
  obtain ⟨ps, hps, hnd, hmem⟩ := hw.exists_peers
  refine ⟨⟨(Registry.takeFrom now r ps).1, .ok (Registry.takeFrom now r ps).2⟩, _, ?_, rfl, ?_, fun ap => ?_⟩
  · unfold Registry.takeAvailableAddresses
    rw [hps]
  · rw [Registry.takeFrom_eq hnd, List.map_map]
    exact hnd.sublist (List.filter_sublist.map _)
  · rw [Registry.takeFrom_eq hnd]
    unfold Registry.Available
    simp only [List.mem_map, List.mem_filter, hmem, Bool.not_eq_true']
    exact exists_congr fun p => by tauto

/-! ## The pending addresses -/

/-- Only `TakeAvailableAddresses` makes addresses pending. -/
theorem mem_pending_of_step {cmpMinor : Version → Version → Int} {r r' : Registry} {op : Op}
    (h : Step cmpMinor r op r') (hop : ∀ now, op ≠ .takeAvailableAddresses now) {a : Addr} (ha : a ∈ r'.pending) :
    a ∈ r.pending := by
  cases op with
  | suggestVersion now addr =>
    obtain ⟨b, hb, he⟩ := Go.bind_eq_ok.1 h
    cases he
    exact (Registry.suggestVersion_kept hb).1.pending ▸ ha
  | registerPeer now addr np hs =>
    obtain ⟨b, hb, he⟩ := Go.bind_eq_ok.1 h
    cases he
    have hp : b.2.registry.pending = r.pending.erase addr := by
      cases Registry.registerPeer_registered hb with
      | accepted p port _ hst _ => exact (Registry.store_untouched hst).pending
      | judged p _ hst _ => exact (Registry.store_untouched hst).pending
      | refused e _ _ hreg =>
        rw [hreg]
        rfl
    rw [hp] at ha
    exact Std.ExtTreeSet.mem_of_mem_erase ha
  | unregisterPeer now addr =>
    obtain ⟨b, hb, he⟩ := Go.bind_eq_ok.1 h
    cases he
    unfold Registry.unregisterPeer at hb
    split at hb
    · cases hb
    · cases hb
      exact ha
    · rw [(Registry.store_untouched hb).pending] at ha
      exact Std.ExtTreeSet.mem_of_mem_erase ha
  | updatePeerScore addr score =>
    obtain ⟨b, hb, he⟩ := Go.bind_eq_ok.1 h
    cases he
    exact (Registry.updatePeerScore_kept hb).1.pending ▸ ha
  | appendAddresses addresses =>
    obtain ⟨b, hb, he⟩ := Go.bind_eq_ok.1 h
    cases he
    exact (Registry.appendAddresses_kept hb).1.pending ▸ ha
  | takeAvailableAddresses now => exact absurd rfl (hop now)
  | markAsHostile addr =>
    obtain ⟨b, hb, he⟩ := Go.bind_eq_ok.1 h
    cases he
    unfold Registry.markAsHostile at hb
    split at hb
    · cases hb
      exact ha
    · simp only at hb
      split at hb
      · cases hb
      · split at hb
        · cases hb
          exact Std.ExtTreeSet.mem_of_mem_erase ha
        · rw [(Registry.store_untouched hb).pending] at ha
          exact Std.ExtTreeSet.mem_of_mem_erase ha
      · rw [(Registry.store_untouched hb).pending] at ha
        exact Std.ExtTreeSet.mem_of_mem_erase ha

/-- A stored address is not pending once it is unregistered. -/
theorem not_mem_pending_of_unregister {now : Int} {addr : Addr} {r : Registry} {a : Answer Unit}
    (hread : ∃ p, r.storage.peer addr = .ok p) (h : r.unregisterPeer now addr = .ok a) :
    addr ∉ a.registry.pending := by
  obtain ⟨p, hp⟩ := hread
  unfold Registry.unregisterPeer at h
  rw [hp] at h
  rw [(Registry.store_untouched h).pending]
  intro hmem
  exact (Std.ExtTreeSet.mem_erase.1 hmem).1 Std.ReflCmp.compare_self

/-- Every pending address is stored. -/
def Registry.PendingStored (r : Registry) : Prop :=
  ∀ a : Addr, a ∈ r.pending → a.is4 = true ∧ ∃ p, r.storage.peer a = .ok p

theorem step_pendingStored {cmpMinor : Version → Version → Int} {r r' : Registry} {op : Op}
    (hw : r.storage.Written) (h : Step cmpMinor r op r') (hp : r.PendingStored) : r'.PendingStored := by
  intro a ha
  have hstored : a.is4 = true ∧ ∃ p, r.storage.peer a = .ok p := by
    by_cases hop : ∃ now, op = .takeAvailableAddresses now
    · obtain ⟨now, rfl⟩ := hop
      obtain ⟨b, hb, he⟩ := Go.bind_eq_ok.1 h
      cases he
      obtain ⟨b', addresses, hb', hres, -, hmem⟩ := hw.exists_takes now
      obtain rfl := Except.ok.inj (hb.symm.trans hb')
      obtain ⟨-, ⟨⟨e, he⟩, -⟩ | ⟨addresses', hres', -, hpend⟩⟩ := Registry.takeAvailableAddresses_spec hb
      · rw [hres] at he
        cases he
      · obtain rfl := Except.ok.inj (hres.symm.trans hres')
        rcases (hpend a).1 ha with ha | ha
        · exact hp a ha
        · obtain ⟨ap, hap, rfl⟩ := List.mem_map.1 ha
          obtain ⟨p, rfl, h4, hread, -⟩ := (hmem ap).1 hap
          exact ⟨h4, p, hread⟩
    · exact hp a (mem_pending_of_step h (fun now he => hop ⟨now, he⟩) ha)
  exact ⟨hstored.1, step_readable h hstored.1 hstored.2⟩

end Peers

namespace Node

open Proto (Version Conn)
open Peers (Registry)
open Run (Path Link)

namespace Net
variable {cmpMinor : Version → Version → Int} {s s' : Net}

/-- Every pending address is being dialled. -/
def Dialling (s : Net) : Prop := ∀ a : Addr, a ∈ s.registry.pending → ∃ ap ∈ s.dials, ap.addr = a

/-- The last dial to an address ends without an error while the address is still pending. -/
def Loses (s : Net) : Event → Prop
  | .dialEnded ap => ap.addr ∈ s.registry.pending ∧ ∀ ap' ∈ s.dials.erase ap, ap'.addr ≠ ap.addr
  | _ => False

/-- The timer is armed over a database that only puts have written. -/
structure Armed (cmpMinor : Version → Version → Int) (s : Net) : Prop where
  armed : s.armed = true
  registry : Peers.Reachable cmpMinor s.registry
  pending : s.registry.PendingStored

/-- The timer fires: exactly the available addresses are dialled, each once. -/
structure Respawned (s : Net) (now : Int) (s' : Net) : Prop where
  armed : s'.armed = true
  dials : ∃ addresses, s'.dials = s.dials ++ addresses ∧ (addresses.map AddrPort.addr).Nodup ∧
    (∀ ap, ap ∈ addresses ↔ s.registry.Available now ap) ∧
    ∀ a : Addr, a ∈ s'.registry.pending ↔ a ∈ s.registry.pending ∨ a ∈ addresses.map AddrPort.addr

theorem respawned {now : Int} (hw : s.registry.storage.Written) (harmed : s.armed = true)
    (h : s.apply cmpMinor (.respawn now) = .ok s') : s.Respawned now s' := by
  obtain ⟨a, addresses, ha, hres, hnd, hmem⟩ := hw.exists_takes now
  obtain ⟨-, ⟨⟨e, he⟩, -⟩ | ⟨addresses', hres', -, hpend⟩⟩ := Peers.Registry.takeAvailableAddresses_spec ha
  · rw [hres] at he
    cases he
  · obtain rfl := Except.ok.inj (hres.symm.trans hres')
    obtain ⟨a', ha', h⟩ := Go.bind_eq_ok.1 h
    obtain rfl := Except.ok.inj (ha.symm.trans ha')
    rw [hres] at h
    cases h
    exact ⟨harmed, addresses, rfl, hnd, hmem, hpend⟩

/-- The dials and the timer after an event other than a respawn. -/
theorem apply_dials {e : Event} (h : s.apply cmpMinor e = .ok s') (he : ∀ now, e ≠ .respawn now) :
    s'.armed = s.armed ∧ s'.dials = match e with
      | .dialEnded ap | .dialFailed _ ap _ => s.dials.erase ap
      | _ => s.dials := by
  cases e with
  | connected now np =>
    rcases connected_cases h with ⟨-, rfl⟩ | ⟨ap, a, -, -, rfl⟩
    · exact ⟨rfl, rfl⟩
    · split <;> exact ⟨rfl, rfl⟩
  | respawn now => exact absurd rfl (he now)
  | dialEnded ap =>
    cases h
    exact ⟨rfl, rfl⟩
  | _ =>
    obtain ⟨a, -, h⟩ := Go.bind_eq_ok.1 h
    cases h
    exact ⟨rfl, rfl⟩

theorem step_armed {e : Event} (h : Step cmpMinor s e s') (hi : s.Armed cmpMinor) : s'.Armed cmpMinor := by
  have harmed : s'.armed = true := by
    by_cases he : ∃ now, e = .respawn now
    · obtain ⟨now, rfl⟩ := he
      exact (respawned hi.registry.written hi.armed h.2).armed
    · rw [(apply_dials h.2 fun now hn => he ⟨now, hn⟩).1]
      exact hi.armed
  rcases apply_registry h.2 with hr | ⟨op, hop⟩
  · exact ⟨harmed, hr ▸ hi.registry, hr ▸ hi.pending⟩
  · exact ⟨harmed, .step hi.registry hop, Peers.step_pendingStored hi.registry.written hop hi.pending⟩

/-- **The events that leave a pending address without a dial**, one by one. -/
theorem step_dialling_iff {e : Event} (h : Step cmpMinor s e s') (hi : s.Armed cmpMinor) (hd : s.Dialling) :
    s'.Armed cmpMinor ∧ (s'.Dialling ↔ ¬ s.Loses e) := by
  refine ⟨step_armed h hi, ?_⟩
  -- an event that starts and ends no dial makes no address pending
  have hsame : (∀ now, e ≠ .respawn now) → s'.dials = s.dials → s'.Dialling := by
    intro he hdials a ha
    rw [hdials]
    rcases apply_op h.2 with ⟨-, hr⟩ | ⟨op, hop, hr⟩
    · exact hd a (hr ▸ ha)
    · refine hd a (Peers.mem_pending_of_step hr (fun now hn => ?_) ha)
      subst hn
      cases e with
      | respawn now => exact absurd rfl (he now)
      | connected _ np | internalErr _ np | scoreMessage np =>
        obtain ⟨ap, -, hap⟩ := Option.map_eq_some_iff.1 hop
        cases hap
      | peersMessage | suggestVersion | dialFailed => cases Option.some.inj hop
      | dialEnded => cases hop
  cases e with
  | connected | internalErr | scoreMessage | peersMessage | suggestVersion =>
    exact iff_of_true (hsame (fun _ he => by cases he) (apply_dials h.2 fun _ he => by cases he).2) id
  | respawn now =>
    obtain ⟨-, addresses, hdials, -, -, hpend⟩ := respawned hi.registry.written hi.armed h.2
    refine iff_of_true (fun a ha => ?_) id
    rw [hdials]
    rcases (hpend a).1 ha with ha | ha
    · obtain ⟨ap, hap, he⟩ := hd a ha
      exact ⟨ap, List.mem_append_left _ hap, he⟩
    · obtain ⟨ap, hap, he⟩ := List.mem_map.1 ha
      exact ⟨ap, List.mem_append_right _ hap, he⟩
  | dialEnded ap =>
    obtain ⟨-, h⟩ := h
    cases h
    constructor
    · rintro hd' ⟨hpend, hno⟩
      obtain ⟨ap', hap', he⟩ := hd' ap.addr hpend
      exact hno ap' hap' he
    · intro hno a ha
      obtain ⟨ap', hap', rfl⟩ := hd a ha
      by_cases hsame : ap' = ap
      · subst hsame
        by_contra hlost
        exact hno ⟨ha, fun ap hap he => hlost ⟨ap, hap, he⟩⟩
      · exact ⟨ap', (List.mem_erase_of_ne hsame).2 hap', rfl⟩
  | dialFailed now ap own =>
    refine iff_of_true (fun a ha => ?_) id
    obtain ⟨b, hb, he⟩ := Go.bind_eq_ok.1 h.2
    cases he
    have hs : Peers.Step cmpMinor s.registry (.unregisterPeer now ap.addr) b.registry :=
      Go.bind_eq_ok.2 ⟨b, hb, rfl⟩
    have hold : a ∈ s.registry.pending := Peers.mem_pending_of_step hs (fun _ he => by cases he) ha
    -- the address of the dial itself is released
    have hne : a ≠ ap.addr := by
      rintro rfl
      exact Peers.not_mem_pending_of_unregister (hi.pending _ hold).2 hb ha
    obtain ⟨ap', hap', rfl⟩ := hd a hold
    exact ⟨ap', (List.mem_erase_of_ne fun he => hne (congrArg AddrPort.addr he)).2 hap', rfl⟩

end Net

/-- **The dials of a run**, from a registry at its start.  The timer is armed for ever, each time it fires exactly the
available addresses are dialled, each once, and every pending address has its dial under way as long as no dial ends
without an error, as the last one to an address that is still pending. -/
theorem run_dials {cmpMinor : Version → Version → Int} {r : Registry} {tr : List (Link Net Event)} {s' : Net}
    (hr : Peers.Reachable cmpMinor r) (hp : ∀ a : Addr, a ∉ r.pending)
    (h : Path (Step cmpMinor) (.start r) tr s') :
    (∀ x ∈ tr, x.post.armed = true ∧ ∀ now, x.input = .respawn now → x.pre.Respawned now x.post) ∧
      ((∀ x ∈ tr, x.post.Dialling) ↔ ∀ x ∈ tr, ¬ x.pre.Loses x.input) := by
  have hstart : (Net.start r).Armed cmpMinor := ⟨rfl, hr, fun a ha => absurd ha (hp a)⟩
  have hd : (Net.start r).Dialling := fun a ha => absurd ha (hp a)
  have hstep : ∀ (s : Net) (e : Event) (s' : Net), s.Armed cmpMinor → Step cmpMinor s e s' → s'.Armed cmpMinor :=
    fun _ _ _ hi hs => Net.step_armed hs hi
  obtain ⟨harmed, -⟩ := h.invariant hstep hstart
  refine ⟨fun x hx => ⟨(harmed x hx).2.armed, fun now hin => ?_⟩, ?_⟩
  · have hs := (h.step_of_mem hx).2
    rw [hin] at hs
    exact Net.respawned (harmed x hx).1.registry.written (harmed x hx).1.armed hs
  · have hgood : ∀ (s : Net) (e : Event) (s' : Net), s.Armed cmpMinor → s.Dialling → Step cmpMinor s e s' →
        s'.Armed cmpMinor ∧ (s'.Dialling ↔ ¬ s.Loses e) := fun _ _ _ hi hd hs => Net.step_dialling_iff hs hi hd
    exact Path.good_iff hgood hstart hd h

/-- A peer is told of, dialled, and lost when the dial ends. -/
theorem run_dials_sample : ∃ (s1 s2 s3 : Net) (tr : List (Link Net Event)),
    Path (Step Peers.Sample.cmpMinor) (Net.start Peers.Sample.registry) tr s3 ∧
    s2.dials = [⟨Peers.Sample.addr, 6868⟩] ∧ s1.Respawned 0 s2 ∧ ¬ ∀ x ∈ tr, x.post.Dialling := by
  let told : Event := .peersMessage [some ⟨Peers.Sample.addr, 6868⟩]
  let fired : Event := .respawn 0
  let ended : Event := .dialEnded ⟨Peers.Sample.addr, 6868⟩
  obtain ⟨s1, h1⟩ := Go.exists_of_isOk (x := Sample.run [told]) (by decide +kernel)
  obtain ⟨s2, h2⟩ := Go.exists_of_isOk (x := Sample.run ([told] ++ [fired])) (by decide +kernel)
  obtain ⟨s3, h3⟩ := Go.exists_of_isOk (x := Sample.run ([told] ++ [fired] ++ [ended])) (by decide +kernel)
  have harmed : s1.armed = true := Sample.run_reads Net.armed h1 (by decide +kernel)
  have hdials : s2.dials = [⟨Peers.Sample.addr, 6868⟩] := Sample.run_reads Net.dials h2 (by decide +kernel)
  have hpend : s2.registry.pending.contains Peers.Sample.addr = true :=
    Sample.run_reads (fun s => s.registry.pending.contains Peers.Sample.addr) h2 (by decide +kernel)
  have hempty : ∀ a : Addr, a ∉ Peers.Sample.registry.pending := fun a ha => by
    simp [Peers.Sample.registry] at ha
  have hends : s2.Enabled ended := by
    show _ ∈ s2.dials
    rw [hdials]
    exact List.mem_singleton.2 rfl
  have hpath : Path (Step Peers.Sample.cmpMinor) (Net.start Peers.Sample.registry) _ s3 :=
    .cons (i := told) ⟨trivial, Path.first_of_foldlM h1⟩
      (.cons (i := fired) ⟨harmed, Path.step_of_foldlM h1 h2⟩
        (.cons (i := ended) ⟨hends, Path.step_of_foldlM h2 h3⟩ (.nil s3)))
  obtain ⟨hresp, hiff⟩ := run_dials (.fresh Peers.Sample.registry_new) hempty hpath
  refine ⟨s1, s2, s3, _, hpath, hdials, (hresp ⟨s1, fired, s2⟩ (by simp)).2 0 rfl, fun hall => ?_⟩
  refine hiff.1 hall ⟨s2, ended, s3⟩ (by simp) ⟨hpend, fun ap hap => ?_⟩
  change ap ∈ s2.dials.erase _ at hap
  rw [hdials] at hap
  simp at hap

end Node
end ForkDetector
