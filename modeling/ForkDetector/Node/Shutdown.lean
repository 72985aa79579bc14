import ForkDetector.Node.Service
/-!
# Shutdown — whether the loops of the program can still end

The loader may end while the distributor waits to send to it, and the distributor may go on to send after the loader has
ended.  Nothing takes what it sends then, so that its own loop never ends and `run` does not return.
-/
namespace ForkDetector
namespace Node

open Proto (Gowaves Version)
open Chains (Linkage)
open Peers (Registry Peer)
open Loading (Calling Own)
open Run (Path Link)

namespace Service
variable {gw : Gowaves} {cmpMinor : Version → Version → Int} {byName : Peer → Peer → Bool} {s s' : Service byName}

/-- Every loop has ended, so that `run` returns. -/
def Ended (s : Service byName) : Prop := s.distributing = false ∧ s.loading = false ∧ s.respawning = false

/-- The distributor waits for a loader that has ended. -/
def Stranded (s : Service byName) : Prop := s.loading = false ∧ s.sending ≠ none

/-- The loader panics in what it handles. -/
def Crashes (gw : Gowaves) (s : Service byName) : Prop := s.loading = true ∧ ∃ msg, s.load gw = Go.panic msg

/-- The loader ends while the distributor sends to it, or the distributor goes on to send after that. -/
def Strands (gw : Gowaves) (s : Service byName) : ServiceEvent byName → Prop
  | .message np srt m => s.loading = false ∧
    ∃ x, handleMessage gw srt s.net.registry s.linkage np m = .ok x ∧ x.package ≠ none
  | .loaderStops => s.sending ≠ none
  | _ => False

/-- The distributor sends only while its loop runs. -/
def Sends (s : Service byName) : Prop := s.sending ≠ none → s.distributing = true

/-- The loops are as they were, and only the loader has gone on. -/
structure SameLoops (s s' : Service byName) : Prop where
  sending : s'.sending = s.sending
  cancelled : s'.cancelled = s.cancelled
  distributing : s'.distributing = s.distributing
  loading : s'.loading = s.loading
  respawning : s'.respawning = s.respawning

namespace SameLoops

theorem refl (s : Service byName) : SameLoops s s := ⟨rfl, rfl, rfl, rfl, rfl⟩

theorem trans {s'' : Service byName} (h : SameLoops s s') (h' : SameLoops s' s'') : SameLoops s s'' :=
  ⟨h'.sending.trans h.sending, h'.cancelled.trans h.cancelled, h'.distributing.trans h.distributing,
    h'.loading.trans h.loading, h'.respawning.trans h.respawning⟩

theorem sends (h : SameLoops s s') (hs : s.Sends) : s'.Sends := by
  unfold Sends
  rw [h.sending, h.distributing]
  exact hs

theorem stranded_iff (h : SameLoops s s') : s'.Stranded ↔ s.Stranded := by
  unfold Stranded
  rw [h.sending, h.loading]

end SameLoops

theorem load_sameLoops (h : s.load gw = .ok s') : SameLoops s s' := by
  unfold load at h
  split at h
  · cases h
    exact .refl s
  · cases h
    exact ⟨rfl, rfl, rfl, rfl, rfl⟩
  · cases h
  · obtain ⟨⟨a, o⟩, -, h⟩ := Go.bind_eq_ok.1 h
    cases h
    exact ⟨rfl, rfl, rfl, rfl, rfl⟩

theorem connect_eq {e : Event} (h : s.connect cmpMinor e = .ok s') : ∃ net, s' = { s with net := net } := by
  obtain ⟨net, -, h⟩ := Go.bind_eq_ok.1 h
  cases h
  exact ⟨net, rfl⟩

/-- **The steps that strand the distributor**, one by one. -/
theorem step_stranded_iff {e : ServiceEvent byName} (h : ServiceStep gw cmpMinor s e s') (hs : s.Sends)
    (hno : ¬ s.Stranded) : s'.Sends ∧ (¬ s'.Stranded ↔ ¬ s.Strands gw e) := by
  obtain ⟨hen, h⟩ := h
  cases e with
  | message np srt m =>
    obtain ⟨x, hx, h⟩ := Go.bind_eq_ok.1 h
    cases h
    refine ⟨fun _ => hen.1, not_congr (and_congr_right fun _ => ⟨fun hp => ⟨x, hx, hp⟩, ?_⟩)⟩
    rintro ⟨x', hx', hp⟩
    rw [hx] at hx'
    cases hx'
    exact hp
  | handoff now =>
    obtain ⟨package, hp⟩ := Option.ne_none_iff_exists'.1 hen.2
    simp only [apply, hp] at h
    cases h
    exact ⟨fun hp => absurd rfl hp, iff_of_true (fun hst => hst.2 rfl) fun hc => hc⟩
  | loads =>
    have hsame := load_sameLoops h
    exact ⟨hsame.sends hs, iff_of_true (fun hst => hno (hsame.stranded_iff.1 hst)) fun hc => hc⟩
  | connected | internalErr | suggestVersion | respawn | dialEnded | dialFailed =>
    obtain ⟨net, rfl⟩ := connect_eq h
    exact ⟨hs, iff_of_true hno fun hc => hc⟩
  | sync | tick | interrupt | respawnStops =>
    cases h
    exact ⟨hs, iff_of_true hno fun hc => hc⟩
  | distributorStops =>
    cases h
    exact ⟨fun hp => absurd hen.2.2 hp, iff_of_true hno fun hc => hc⟩
  | loaderStops =>
    cases h
    exact ⟨hs, not_congr (and_iff_right rfl)⟩

/-- **Nothing takes what a stranded distributor sends.** -/
theorem step_stranded {e : ServiceEvent byName} (h : ServiceStep gw cmpMinor s e s') (hs : s.Sends)
    (hst : s.Stranded) : s'.Sends ∧ s'.Stranded := by
  obtain ⟨hen, h⟩ := h
  cases e with
  | message | connected | internalErr => exact absurd hen.2 hst.2
  | distributorStops => exact absurd hen.2.2 hst.2
  | handoff | sync | tick | loads | loaderStops => simp [Enabled, Waits, hst.1] at hen
  | suggestVersion | respawn | dialEnded | dialFailed =>
    obtain ⟨net, rfl⟩ := connect_eq h
    exact ⟨hs, hst⟩
  | interrupt | respawnStops =>
    cases h
    exact ⟨hs, hst⟩

theorem Stranded.not_ended (hst : s.Stranded) (hs : s.Sends) : ¬ s.Ended := fun he => by
  have hd := hs hst.2
  rw [he.1] at hd
  cases hd

/-- **The loader gets through with what it handles**, or panics in it. -/
theorem exists_settled (gw : Gowaves) (cmpMinor : Version → Version → Int) : ∀ {s : Service byName}
    {p : Calling byName Own}, s.handling = some p → s.loading = true →
    ∃ tr s', Path (ServiceStep gw cmpMinor) s tr s' ∧ SameLoops s s' ∧ (s'.handling = none ∨ s'.Crashes gw) := by
  intro s p hp hl
  induction p generalizing s with
  | done own =>
    have hload : s.load gw = .ok { s with own := own, handling := none } := by
      unfold load
      rw [hp]
    have hstep : ServiceStep gw cmpMinor s .loads { s with own := own, handling := none } := ⟨⟨hl, by simp [hp]⟩, hload⟩
    exact ⟨_, _, .cons hstep (.nil _), load_sameLoops hload, .inl rfl⟩
  | fault msg =>
    refine ⟨[], s, .nil s, .refl s, .inr ⟨hl, msg, ?_⟩⟩
    unfold load
    rw [hp]
  | call c next ih =>
    have hload : s.load gw = Loading.serve gw c s.shared >>= fun x => .ok { s with
        net := { s.net with registry := x.2.registry }, linkage := x.2.linkage, handling := some (next x.1) } := by
      unfold load
      rw [hp]
    cases hc : Loading.serve gw c s.shared with
    | error f =>
      cases f with
      | err e => exact absurd hc (Loading.serve_noError c s.shared e)
      | panic msg =>
        refine ⟨[], s, .nil s, .refl s, .inr ⟨hl, msg, ?_⟩⟩
        rw [hload, hc]
        rfl
    | ok x =>
      rw [hc] at hload
      let s1 : Service byName := { s with
        net := { s.net with registry := x.2.registry }, linkage := x.2.linkage, handling := some (next x.1) }
      have hstep : ServiceStep gw cmpMinor s .loads s1 := ⟨⟨hl, by simp [hp]⟩, hload⟩
      obtain ⟨tr, s', htr, hsame, hend⟩ := ih x.1 (s := s1) rfl hl
      exact ⟨_, s', .cons hstep htr, (load_sameLoops hload).trans hsame, hend⟩

/-- How many steps are left until all loops have ended. -/
def remaining (s : Service byName) : Nat :=
  (!s.cancelled).toNat + s.distributing.toNat + s.loading.toNat + s.respawning.toNat

/-- Nothing is being handled or sent. -/
def Rests (s : Service byName) : Prop := s.handling = none ∧ s.sending = none

/-- **The loops end one after the other**, when nothing is being handled or sent. -/
theorem exists_remaining (gw : Gowaves) (cmpMinor : Version → Version → Int) (hs : s.Rests) (hend : ¬ s.Ended) :
    ∃ (e : ServiceEvent byName) (s' : Service byName), ServiceStep gw cmpMinor s e s' ∧ s'.Rests ∧
      s'.remaining < s.remaining := by
  by_cases hc : s.cancelled = true
  · by_cases hl : s.loading = true
    · exact ⟨.loaderStops, _, ⟨⟨hc, hl, hs.1⟩, rfl⟩, hs, by simp [remaining, hl]⟩
    · by_cases hd : s.distributing = true
      · exact ⟨.distributorStops, _, ⟨⟨hc, hd, hs.2⟩, rfl⟩, hs, by simp [remaining, hd]⟩
      · by_cases hr : s.respawning = true
        · exact ⟨.respawnStops, _, ⟨⟨hc, hr⟩, rfl⟩, hs, by simp [remaining, hr]⟩
        · exact absurd ⟨Bool.eq_false_iff.2 hd, Bool.eq_false_iff.2 hl, Bool.eq_false_iff.2 hr⟩ hend
  · have hc' : s.cancelled = false := Bool.eq_false_iff.2 hc
    exact ⟨.interrupt, _, ⟨hc', rfl⟩, hs, by simp [remaining, hc']⟩

/-- **A loader that runs can come to rest**, with what it handles and with what the distributor sends, or panics. -/
theorem exists_rest (gw : Gowaves) (cmpMinor : Version → Version → Int) (hl : s.loading = true) :
    ∃ tr s', Path (ServiceStep gw cmpMinor) s tr s' ∧ (s'.Rests ∨ s'.Crashes gw) := by
  have hfree : ∃ tr s1, Path (ServiceStep gw cmpMinor) s tr s1 ∧ SameLoops s s1 ∧
      (s1.handling = none ∨ s1.Crashes gw) := by
    cases hp : s.handling with
    | none => exact ⟨[], s, .nil s, .refl s, .inl hp⟩
    | some p => exact exists_settled gw cmpMinor hp hl
  obtain ⟨tr, s1, htr, hsame, hfree | hcrash⟩ := hfree
  · have hl1 : s1.loading = true := hsame.loading.trans hl
    cases hsend : s1.sending with
    | none => exact ⟨tr, s1, htr, .inl ⟨hfree, hsend⟩⟩
    | some package =>
      let s2 : Service byName := { s1 with sending := none }.handle gw (package.received 0)
      have htakes : ServiceStep gw cmpMinor s1 (.handoff 0) s2 := by
        refine ⟨⟨⟨hl1, hfree⟩, by simp [hsend]⟩, ?_⟩
        simp only [apply, hsend]
        rfl
      obtain ⟨tr', s3, htr', hsame', hfree' | hcrash⟩ := exists_settled (s := s2) gw cmpMinor rfl hl1
      · exact ⟨_, s3, htr.append (.cons htakes htr'), .inl ⟨hfree', hsame'.sending⟩⟩
      · exact ⟨_, s3, htr.append (.cons htakes htr'), .inr hcrash⟩
  · exact ⟨tr, s1, htr, .inr hcrash⟩

/-- What the loader has begun it ends before its loop does. -/
def Finishes (s : Service byName) : Prop := s.handling ≠ none → s.loading = true

theorem step_finishes {e : ServiceEvent byName} (h : ServiceStep gw cmpMinor s e s') (hs : s.Finishes) :
    s'.Finishes := by
  obtain ⟨hen, h⟩ := h
  cases e with
  | message np srt m =>
    obtain ⟨x, -, h⟩ := Go.bind_eq_ok.1 h
    cases h
    exact hs
  | handoff now =>
    obtain ⟨package, hp⟩ := Option.ne_none_iff_exists'.1 hen.2
    simp only [apply, hp] at h
    cases h
    exact fun _ => hen.1.1
  | loads => exact fun _ => (load_sameLoops h).loading.trans hen.1
  | connected | internalErr | suggestVersion | respawn | dialEnded | dialFailed =>
    obtain ⟨net, rfl⟩ := connect_eq h
    exact hs
  | sync | tick =>
    cases h
    exact fun _ => hen.1
  | interrupt | respawnStops | distributorStops =>
    cases h
    exact hs
  | loaderStops =>
    cases h
    exact fun hne => absurd hen.2.2 hne

/-- **A program whose distributor is not stranded can come to rest**, or its loader panics. -/
theorem exists_rest_of_not_stranded (gw : Gowaves) (cmpMinor : Version → Version → Int) (hs : s.Finishes)
    (hno : ¬ s.Stranded) :
    ∃ tr s', Path (ServiceStep gw cmpMinor) s tr s' ∧ (s'.Rests ∨ s'.Crashes gw) := by
  by_cases hl : s.loading = true
  · exact exists_rest gw cmpMinor hl
  · have hhandling : s.handling = none := by
      by_contra hne
      exact hl (hs hne)
    have hsending : s.sending = none := by
      by_contra hne
      exact hno ⟨Bool.eq_false_iff.2 hl, hne⟩
    exact ⟨[], s, .nil s, .inl ⟨hhandling, hsending⟩⟩

end Service

/-- **When the program can still be shut down**: some continuation of a run ends, or leads to a panic of the loader in
what it handles, exactly when no step of the run has stranded the distributor. -/
theorem shutdown_iff {gw : Gowaves} {cmpMinor : Version → Version → Int} {byName : Peer → Peer → Bool} {r : Registry}
    {hp : Linkage} {tr : List (Link (Service byName) (ServiceEvent byName))} {s' : Service byName}
    (h : Path (ServiceStep gw cmpMinor) (.start byName r hp) tr s') :
    (∃ (tr' : List (Link (Service byName) (ServiceEvent byName))) (s'' : Service byName),
      Path (ServiceStep gw cmpMinor) s' tr' s'' ∧ (s''.Ended ∨ s''.Crashes gw)) ↔
        ∀ x ∈ tr, ¬ x.pre.Strands gw x.input := by
  have hstart : (Service.start byName r hp).Sends ∧ ¬ (Service.start byName r hp).Stranded :=
    ⟨fun hne => absurd rfl hne, fun hst => hst.2 rfl⟩
  have hstep : ∀ (s : Service byName) (e : ServiceEvent byName) (s' : Service byName), s.Sends → ¬ s.Stranded →
      ServiceStep gw cmpMinor s e s' → s'.Sends ∧ (¬ s'.Stranded ↔ ¬ s.Strands gw e) :=
    fun _ _ _ hs hno hstep => Service.step_stranded_iff hstep hs hno
  have hstays : ∀ (s : Service byName) (e : ServiceEvent byName) (s' : Service byName), s.Sends ∧ s.Stranded →
      ServiceStep gw cmpMinor s e s' → s'.Sends ∧ s'.Stranded :=
    fun _ _ _ hst hstep => Service.step_stranded hstep hst.1 hst.2
  have hsends : ∀ (s : Service byName) (e : ServiceEvent byName) (s' : Service byName), s.Sends →
      ServiceStep gw cmpMinor s e s' → s'.Sends := by
    intro s e s' hs h
    by_cases hst : s.Stranded
    · exact (hstays s e s' ⟨hs, hst⟩ h).1
    · exact (hstep s e s' hs hst h).1
  obtain ⟨hsent, -⟩ := h.invariant hsends hstart.1
  rw [← Path.good_iff hstep hstart.1 hstart.2 h]
  constructor
  · rintro ⟨tr', s'', h', hend⟩ x hx hst
    -- a stranded state stays stranded up to the end of the continuation
    obtain ⟨rest, hrest⟩ := h.rest_of_mem hx
    obtain ⟨hs'', hst''⟩ := ((hrest.append h').invariant hstays ⟨(hsent x hx).2, hst⟩).2
    rcases hend with hend | ⟨hload, -⟩
    · exact hst''.not_ended hs'' hend
    · rw [hst''.1] at hload
      cases hload
  · intro hno
    have hst' : ¬ s'.Stranded := h.at_end (P := fun s => ¬ s.Stranded) hstart.2 hno
    have hkeeps : ∀ (s : Service byName) (e : ServiceEvent byName) (s' : Service byName), s.Finishes →
        ServiceStep gw cmpMinor s e s' → s'.Finishes := fun _ _ _ hs hstep => Service.step_finishes hstep hs
    obtain ⟨-, hfinishes⟩ := h.invariant hkeeps fun hne => absurd rfl hne
    obtain ⟨tr1, s1, h1, hrests | hcrash⟩ := Service.exists_rest_of_not_stranded gw cmpMinor hfinishes hst'
    · have hnext : ∀ s : Service byName, s.Rests → ¬ s.Ended → ∃ (e : ServiceEvent byName) (s' : Service byName),
          ServiceStep gw cmpMinor s e s' ∧ s'.Rests ∧ s'.remaining < s.remaining :=
        fun s hs hd => Service.exists_remaining gw cmpMinor hs hd
      obtain ⟨tr2, s2, h2, -, hend⟩ := Path.exists_done Service.remaining hnext hrests
      exact ⟨_, s2, h1.append h2, .inl hend⟩
    · exact ⟨tr1, s1, h1, .inr hcrash⟩

/-- The user interrupts the program while the distributor sends, and the loader ends first. -/
theorem shutdown_iff_sample : ∃ (hp : Linkage)
    (tr : List (Link (Service Loading.Sample.anyName) (ServiceEvent Loading.Sample.anyName)))
    (s : Service Loading.Sample.anyName), Path Sample.Serves (Sample.idle hp) tr s ∧ s.cancelled = true ∧
    ¬ ∃ (tr' : List (Link (Service Loading.Sample.anyName) (ServiceEvent Loading.Sample.anyName)))
      (s'' : Service Loading.Sample.anyName), Path Sample.Serves s tr' s'' ∧
      (s''.Ended ∨ s''.Crashes Chains.Sample.gowaves) := by
  obtain ⟨hp, -⟩ := Go.exists_of_isOk (x := Chains.Sample.after []) (by decide +kernel)
  let s1 : Service Loading.Sample.anyName := { Sample.sending hp with cancelled := true }
  let s2 : Service Loading.Sample.anyName := { s1 with loading := false }
  have hinterrupt : Sample.Serves (Sample.sending hp) .interrupt s1 := ⟨rfl, rfl⟩
  have hstops : Sample.Serves s1 .loaderStops s2 := ⟨⟨rfl, rfl, rfl⟩, rfl⟩
  have hpath := Path.cons (Sample.listed_sends hp) (.cons hinterrupt (.cons hstops (.nil _)))
  refine ⟨hp, _, s2, hpath, rfl, fun hend => ?_⟩
  have hsent : s1.sending ≠ none := by simp [s1, Sample.sending]
  exact (shutdown_iff hpath).1 hend ⟨s1, .loaderStops, s2⟩ (by simp) hsent

end Node
end ForkDetector
