import ForkDetector.Loading.Wedge
import ForkDetector.Peers.Reachable
/-!
# Scores — the peer that the loader holds has a score

`reportOK` panics on a peer without a score.  `sync` chooses peers with one, and no operation of the registry takes it
away, so that the peer held has a score in every state of the loader.
-/
namespace ForkDetector
namespace Loading

open Proto (Gowaves Version Conn)
open Chains (Linkage)
open Peers (Registry Peer)
open Run (Path Link)

/-! ## One event -/

/-- **The peer held has a score**, and an address that no other key of the database spells. -/
structure Loader.Scores (l : Loader) : Prop where
  onlyIPv4 : Peers.OnlyIPv4 l.registry
  held : ∀ pl, l.pl = some pl → pl.control.pending = [] ∧ pl.peer.is4 = true ∧ l.registry.storage.Scored pl.peer

section
variable {env : Env} {l l' : Loader} {pl : Held} {e : Event}

theorem fire_scores (hs : l.Scores) (hpl : l.pl = some pl) {err : Option (Go.Err Sentinel)}
    (h : l.fire env pl e = .ok (l', err)) (hext : e.External) : l'.Scores := by
  obtain ⟨hpend, h4, hscored⟩ := hs.held pl hpl
  obtain ⟨r, hr, rfl⟩ := fire_fires hpend hext h
  obtain ⟨hpend', hpeer, hreg⟩ := hr.kept (f := Report.registry)
    (fun _ _ _ _ _ _ hok => reportOK_registry hok) reportFail_registry
  have hpeer' : r.world.peer = pl.peer := hpeer
  have hreg' : r.world.r.registry = l.registry := hreg
  refine ⟨by rw [keep_registry, hreg']; exact hs.onlyIPv4, fun pl' hpl' => ?_⟩
  obtain ⟨hcontrol, hp⟩ := keep_held hpl'
  exact ⟨by rw [hcontrol]; exact hpend', by rw [hp, hpeer']; exact h4,
    by rw [keep_registry, hreg', hp, hpeer']; exact hscored⟩

theorem continueSync_scores (hs : l.Scores) (h : l.continueSync env = .ok l') : l'.Scores := by
  obtain ⟨pl, err, hpl, hr⟩ := continueSync_fires h
  exact fire_scores hs hpl hr trivial

theorem restartSync_scores (hs : l.Scores) (h : l.restartSync env = .ok l') : l'.Scores := by
  obtain ⟨pl, err, hpl, hr⟩ := restartSync_fires h
  exact fire_scores (l := { l with fc := l.fc.reset pl.peer }) ⟨hs.onlyIPv4, hs.held⟩ hpl hr trivial

theorem sync_scores {byName : Peer → Peer → Bool} {conns : Go.MapRange Addr Conn} {srt : Go.UnstableSort Peer byName}
    {pick : Nat} (hs : l.Scores) (h : l.sync env conns srt pick = .ok l') : l'.Scores := by
  rcases sync_chooses hs.onlyIPv4 h with rfl | ⟨p, sp, l2, h4, hsp, hscore, h2, hnext⟩
  · exact hs
  · have hs1 : Loader.Scores { l with pl := some ⟨⟨.idle, []⟩, p, none, [], []⟩ } :=
      ⟨hs.onlyIPv4, fun pl hpl => by
        cases hpl
        exact ⟨rfl, h4, sp, hsp, hscore⟩⟩
    rcases h2 with h2 | rfl
    · exact continueSync_scores (restartSync_scores hs1 h2) hnext
    · exact continueSync_scores hs1 hnext

end

/-! ## Every run -/

section
variable {byName : Peer → Peer → Bool} {gw : Gowaves} {cmpMinor : Version → Version → Int} {l l' : Loader}

theorem step_scores {e : LoaderEvent byName} (h : LoaderStep gw cmpMinor l e l') (hs : l.Scores) : l'.Scores := by
  cases e with
  | sync now rng conns srt pick => exact sync_scores hs h
  | tick now =>
    rcases tick_fires h with ⟨-, rfl⟩ | ⟨pl, err, hpl, hr⟩
    · exact hs
    · exact fire_scores hs hpl hr trivial
  | ids now peer ids =>
    rcases handleIDs_fires h with rfl | ⟨pl, err, hpl, hr⟩
    · exact hs
    · exact fire_scores hs hpl hr trivial
  | block now peer block =>
    rcases handleBlock_fires h with rfl | ⟨pl, err, hpl, hr⟩
    · exact hs
    · exact fire_scores hs hpl hr trivial
  | linkage c =>
    obtain ⟨hp, -, h⟩ := Go.bind_eq_ok.1 h
    cases h
    exact ⟨hs.onlyIPv4, hs.held⟩
  | registry op =>
    obtain ⟨registry, hop, h⟩ := Go.bind_eq_ok.1 h
    cases h
    refine ⟨Peers.step_onlyIPv4 hop hs.onlyIPv4, fun pl hpl => ?_⟩
    obtain ⟨hpend, h4, hscored⟩ := hs.held pl hpl
    exact ⟨hpend, h4, Peers.step_scored hop h4 hscored⟩

/-- **The peer held has a score in every state of the loader.** -/
theorem run_scored {registry : Registry} {linkage : Linkage} {tr : List (Link Loader (LoaderEvent byName))}
    (hr : Peers.Reachable cmpMinor registry) (h : Path (LoaderStep gw cmpMinor) (newLoader registry linkage) tr l')
    {pl : Held} (hpl : l'.pl = some pl) : l'.registry.storage.Scored pl.peer := by
  have hs : (newLoader registry linkage).Scores := ⟨hr.onlyIPv4, fun pl hpl => by cases hpl⟩
  have hstep : ∀ (l : Loader) (e : LoaderEvent byName) (l' : Loader), l.Scores → LoaderStep gw cmpMinor l e l' →
      l'.Scores := fun _ _ _ hs h => step_scores h hs
  exact ((Path.invariant hstep hs h).2.held pl hpl).2.2

end

end Loading
end ForkDetector
