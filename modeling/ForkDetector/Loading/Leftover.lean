import ForkDetector.Loading.Sessions
/-!
# Leftover — the lag that a session leaves to the next one

`Fail` lets the peer go without forgetting the lag of its last continuation, as `resetLoadingPeer` does.  So the first
call of `OK` of a session stops short exactly when the session before ended after a continuation by the same lag.
-/
namespace ForkDetector
namespace Loading

open Proto (BlockID Gowaves Version)
open Chains (Linkage Reachable)
open Peers (Registry Peer)
open Run (Path Link)

/-- What a call decides from the scores, when the log is `before`. -/
def Decides (before : List Mark) (c : OKCall) : Prop :=
  ∃ peerScore leashScore, c.broadcast = some peerScore ∧ c.leash = some leashScore ∧
    (c.again = true ↔ leashScore < peerScore ∧ remembered before ≠ some (peerScore - leashScore))

theorem Decides.lag_of_again {before : List Mark} {c : OKCall} (h : Decides before c) (ha : c.again = true) :
    ∃ d, c.lag = some d ∧ 0 < d := by
  obtain ⟨ps, ls, hps, hls, hiff⟩ := h
  refine ⟨ps - ls, by simp [OKCall.lag, hps, hls], ?_⟩
  have := (hiff.1 ha).1
  omega

/-- **What the loader remembers in every run**: the lag of the last call, if it continued. -/
structure Remembers (h : List Mark) (l : Loader) : Prop where
  prevDiff : l.prevDiff = remembered h
  decides : ∀ before c, At h before c → Decides before c

section
variable {byName : Peer → Peer → Bool} {gw : Gowaves} {cmpMinor : Version → Version → Int} {scheme : Proto.Scheme}
  {genesis : Proto.Block} {l l' : Loader} {e : LoaderEvent byName} {h : List Mark}

theorem Remembers.quiet {ts : List Mark} (hrem : Remembers h l) (hq : Quiet ts) (hprev : l'.prevDiff = l.prevDiff) :
    Remembers (h ++ ts) l' :=
  ⟨by rw [hprev, hq.remembered_append, hrem.prevDiff], fun before c ha => hrem.decides before c (hq.at_append ha)⟩

theorem Remembers.decided {c : OKCall} (hrem : Remembers h l) (hc : Decides h c)
    (hprev : l'.prevDiff = if c.again then c.lag else none) : Remembers (h ++ [.decided c]) l' := by
  refine ⟨by rw [hprev, remembered_decided], fun before c' ha => ?_⟩
  rcases at_decided ha with ⟨rfl, rfl⟩ | ha
  · exact hc
  · exact hrem.decides before c' ha

theorem step_remembers (hlink : ∃ t, Reachable gw scheme genesis l.linkage t) (hs : l.Scores)
    (hstep : Stepped gw l e l') (hrem : Remembers h l) : Remembers (h ++ l.marks gw e l') l' := by
  have hpend := fun pl hpl => (hs.held pl hpl).1
  obtain ⟨t', ht'⟩ := hstep.keeps reachable_keptByCalls hpend hlink
  cases hstep with
  | started pl' hmarks hpl hpl' hcontrol hprev hlinkage =>
    rw [hmarks]
    refine hrem.quiet (fun m hm => ?_) hprev
    obtain rfl := List.mem_singleton.1 hm
    rfl
  | called hmarks hpl hprev hlinkage =>
    rw [hmarks]
    exact hrem.quiet (fun m hm => nomatch hm) hprev
  | fired env pl ev err hmarks hpl hgw hext _ hfire =>
    rw [hmarks]
    have htold := (onlyTold_told pl ev).quiet
    have hhandled := fire_handled (hpend pl hpl) hext hfire
    generalize l.okCalled env pl ev = called at hhandled
    cases hhandled with
    | silent hprev _ =>
      rw [List.map_nil, List.append_nil]
      exact hrem.quiet htold hprev
    | ended hp again rep hend hok hlinkage hprev _ _ =>
      obtain ⟨-, -, sp, hsp, hscore⟩ := hs.held pl hpl
      obtain ⟨ps, hps⟩ := Option.ne_none_iff_exists'.1 hscore
      obtain ⟨ls, hls⟩ := (hlinkage ▸ ht'.mirrors).exists_leashScore pl.peer
      obtain ⟨hiff, -, hprev'⟩ := reportOK_decides (r := (l.view pl).r) hsp hps hls rfl hok
      have hb : OKCall.broadcast ⟨pl.peer, hp, (l.view pl).r, again⟩ = some ps := by
        unfold OKCall.broadcast
        rw [show (l.view pl).r.registry.storage.peer pl.peer = .ok sp from hsp]
        exact hps
      have hl : OKCall.leash ⟨pl.peer, hp, (l.view pl).r, again⟩ = some ls := by
        unfold OKCall.leash
        rw [show hp.leashScore pl.peer = .ok ls from hls]
      rw [List.map_singleton, ← List.append_assoc]
      refine Remembers.decided (l := l) (hrem.quiet htold rfl) ⟨ps, ls, hb, hl, ?_⟩ ?_
      · rw [htold.remembered_append, ← hrem.prevDiff]
        exact hiff
      · rw [hprev, hprev']
        simp [OKCall.lag, hb, hl]

/-- **The loader remembers the lag of the last call in every run.** -/
theorem run_remembers {t : Chains.BlockTree BlockID} {registry : Registry} {linkage : Linkage}
    {tr : List (Link Loader (LoaderEvent byName))} (hl : Reachable gw scheme genesis linkage t)
    (hr : Peers.Reachable cmpMinor registry) (h : Path (LoaderStep gw cmpMinor) (newLoader registry linkage) tr l') :
    Remembers (log gw tr) l' :=
  run_log hl hr ⟨rfl, fun _ _ ha => absurd (List.prefix_nil.1 ha) (by simp)⟩
    (fun _ _ _ _ hlink hs hst hrem => step_remembers hlink hs hst hrem) h

/-- **When the first call of `OK` of a session decides by the scores alone**, for every run over a linkage and a
registry in reachable states: unless the last call before the session continued, and by the same lag. -/
theorem first_ok_iff {t : Chains.BlockTree BlockID} {registry : Registry} {linkage : Linkage}
    {tr : List (Link Loader (LoaderEvent byName))} (hl : Reachable gw scheme genesis linkage t)
    (hr : Peers.Reachable cmpMinor registry) (h : Path (LoaderStep gw cmpMinor) (newLoader registry linkage) tr l') :
    (∀ before c, FirstOK (log gw tr) before c → ∃ peerScore leashScore, c.broadcast = some peerScore ∧
        c.leash = some leashScore ∧ (c.again = true ↔ leashScore < peerScore)) ↔
      ∀ before c last, FirstOK (log gw tr) before c → (calls before).getLast? = some last → last.again = true →
        last.lag ≠ c.lag := by
  have hrem := run_remembers hl hr h
  have hfirst : ∀ before c, FirstOK (log gw tr) before c → ∃ ps ls, c.broadcast = some ps ∧ c.leash = some ls ∧
      c.lag = some (ps - ls) ∧ (c.again = true ↔ ls < ps ∧ remembered before ≠ some (ps - ls)) := by
    rintro before c ⟨mid, hmid, ha⟩
    obtain ⟨ps, ls, hps, hls, hiff⟩ := hrem.decides _ c ha
    rw [hmid.quiet.started.remembered_append] at hiff
    exact ⟨ps, ls, hps, hls, by simp [OKCall.lag, hps, hls], hiff⟩
  constructor
  · rintro hall before c last hf hlast hagain hlag
    obtain ⟨ps, ls, hps, hls, hlag', hiff⟩ := hfirst before c hf
    obtain ⟨ps', ls', hps', hls', hiff'⟩ := hall before c hf
    obtain rfl : ps = ps' := Option.some.inj (hps.symm.trans hps')
    obtain rfl : ls = ls' := Option.some.inj (hls.symm.trans hls')
    obtain ⟨mid, -, ha⟩ := hf
    obtain ⟨b, hb⟩ := exists_at (List.mem_of_getLast? hlast)
    -- the last call continued, so that its lag is positive
    obtain ⟨d, hd, hpos⟩ := (hrem.decides b last (hb.trans ha.start)).lag_of_again hagain
    have heq : d = ps - ls := Option.some.inj (hd.symm.trans (hlag.trans hlag'))
    have hrem' : remembered before = some (ps - ls) := by
      unfold remembered
      rw [hlast, ← hlag', ← hlag]
      exact if_pos hagain
    have hlt : ls < ps := by omega
    exact (hiff.1 (hiff'.2 hlt)).2 hrem'
  · intro hcond before c hf
    obtain ⟨ps, ls, hps, hls, hlag, hiff⟩ := hfirst before c hf
    refine ⟨ps, ls, hps, hls, hiff.trans (and_iff_left fun hsame => ?_)⟩
    obtain ⟨last, hlast, hl⟩ := Option.bind_eq_some_iff.1 hsame
    split at hl
    · rename_i hagain
      exact hcond before c last hf hlast hagain (hl.trans hlag.symm)
    · cases hl

end

/-- After a session that continued and failed, one with another lag decides by the scores. -/
theorem first_ok_iff_sample : ∃ (hp : Linkage) (l' : Loader) (tr : List (Link Loader (LoaderEvent Sample.anyName)))
    (c0 c : OKCall), Chains.Sample.after [] = .ok hp ∧
    Path (LoaderStep Chains.Sample.gowaves Peers.Sample.cmpMinor) (newLoader Peers.Sample.registry hp) tr l' ∧
    calls (log Chains.Sample.gowaves tr) = [c0, c] ∧ c0.again = true ∧ c.again = true ∧
    ∀ before c, FirstOK (log Chains.Sample.gowaves tr) before c → ∃ peerScore leashScore,
      c.broadcast = some peerScore ∧ c.leash = some leashScore ∧ (c.again = true ↔ leashScore < peerScore) := by
  obtain ⟨hp, hhp⟩ := Go.exists_of_isOk (x := Chains.Sample.after []) (by decide +kernel)
  obtain ⟨tr, l', hpath, -, hlog⟩ := Sample.exists_log (e := Sample.twoSessions
    [.registry (.updatePeerScore Peers.Sample.addr 2000000000000000000000)]) (v := [.started,
      .told [Chains.Sample.id 1], .decided (some 1000000000000000000000) (some 184467440737095516) true, .started,
      .told [Chains.Sample.id 1], .decided (some 2000000000000000000000) (some 184467440737095516) true]) hhp
    (by decide +kernel) (by decide +kernel)
  simp only [List.map_eq_cons_iff, List.map_eq_nil_iff] at hlog
  obtain ⟨m1, _, hlog, h1, m2, _, rfl, h2, m3, _, rfl, h3, m4, _, rfl, h4, m5, _, rfl, h5, m6, _, rfl, h6, rfl⟩ := hlog
  obtain rfl := Sample.eq_started h1
  obtain rfl := Sample.eq_told h2
  obtain ⟨c0, rfl, hb0, hl0, ha0⟩ := Sample.eq_decided h3
  obtain rfl := Sample.eq_started h4
  obtain rfl := Sample.eq_told h5
  obtain ⟨c, rfl, hb, hl, ha⟩ := Sample.eq_decided h6
  have hcalls : calls (log Chains.Sample.gowaves tr) = [c0, c] := by rw [hlog]; rfl
  refine ⟨hp, l', tr, c0, c, hhp, hpath, hcalls, ha0, ha,
    (first_ok_iff (Chains.Sample.reachable hhp) Sample.registry_reachable hpath).2 fun before c' last hf hlast _ => ?_⟩
  have hpre : calls before ++ [c'] <+: [c0, c] := hcalls ▸ FirstOK.calls hf
  match hc : calls before, hpre, hlast with
  | [x], hpre, hlast =>
    obtain ⟨rfl, rfl⟩ : x = c0 ∧ c' = c := by simpa using hpre
    obtain rfl := Option.some.inj hlast
    simp [OKCall.lag, hb0, hl0, hb, hl]
  | x :: y :: rest, hpre, _ =>
    have := hpre.length_le
    simp at this

/-- After a session that continued and failed, one with the same lag gives up at once. -/
theorem first_ok_gives_up : ∃ hp, Chains.Sample.after [] = .ok hp ∧
    ¬ ∀ (tr : List (Link Loader (LoaderEvent Sample.anyName))) l',
      Path (LoaderStep Chains.Sample.gowaves Peers.Sample.cmpMinor) (newLoader Peers.Sample.registry hp) tr l' →
      ∀ before c, FirstOK (log Chains.Sample.gowaves tr) before c → ∃ peerScore leashScore,
        c.broadcast = some peerScore ∧ c.leash = some leashScore ∧ (c.again = true ↔ leashScore < peerScore) := by
  obtain ⟨hp, hhp⟩ := Go.exists_of_isOk (x := Chains.Sample.after []) (by decide +kernel)
  obtain ⟨tr, l', hpath, -, hlog⟩ := Sample.exists_log (e := Sample.twoSessions []) (v := [.started,
      .told [Chains.Sample.id 1], .decided (some 1000000000000000000000) (some 184467440737095516) true, .started,
      .told [Chains.Sample.id 1], .decided (some 1000000000000000000000) (some 184467440737095516) false]) hhp
    (by decide +kernel) (by decide +kernel)
  simp only [List.map_eq_cons_iff, List.map_eq_nil_iff] at hlog
  obtain ⟨m1, _, hlog, h1, m2, _, rfl, h2, m3, _, rfl, h3, m4, _, rfl, h4, m5, _, rfl, h5, m6, _, rfl, h6, rfl⟩ := hlog
  obtain rfl := Sample.eq_started h4
  obtain rfl := Sample.eq_told h5
  obtain ⟨c, rfl, hb, hl, ha⟩ := Sample.eq_decided h6
  refine ⟨hp, hhp, fun hall => ?_⟩
  have hf : FirstOK (log Chains.Sample.gowaves tr) [m1, m2, m3] c :=
    ⟨[.told [Chains.Sample.id 1]], fun m hm => ⟨_, List.mem_singleton.1 hm⟩, [], by rw [hlog]; rfl⟩
  obtain ⟨ps, ls, hps, hls, hiff⟩ := hall tr l' hpath _ c hf
  obtain rfl : 1000000000000000000000 = ps := Option.some.inj (hb.symm.trans hps)
  obtain rfl : 184467440737095516 = ls := Option.some.inj (hl.symm.trans hls)
  rw [ha] at hiff
  exact absurd (hiff.2 (by decide)) (by decide)

end Loading
end ForkDetector
