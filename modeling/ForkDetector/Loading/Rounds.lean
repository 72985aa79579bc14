import ForkDetector.Chains.Contributions
import ForkDetector.Chains.Reads
import ForkDetector.Loading.Leftover
/-!
# Rounds — how long a peer keeps a session going

The lag goes down from one continuation to the next as long as no call of `OK` finds the leash of the peer at a lower
score than the call before.  At every call the leash is on the last ID of the list that began the batch (`run_leashed`),
and nothing keeps a peer from sending a list that ends lower: `isLagging` only asks for another lag than the last one.
-/
namespace ForkDetector
namespace Loading

open Proto (BlockID Gowaves Version)
open Chains (Linkage Reachable)
open Peers (Registry Peer)
open Run (Path Link)

/-! ## The leash at the end of a batch -/

section
variable {peer : Addr} {hp hp' : Linkage} {ids req : List BlockID}

theorem skipKnown_suffix (h : skipKnown peer hp ids = .ok (hp', .ok req)) : req <:+ ids := by
  obtain ⟨hp1, hskip, -⟩ : ∃ hp1, skipKnown peer hp ids = _ ∧ _ := skipKnown_spec (knownPrefix_knownLength hp ids)
  rw [hskip] at h
  cases h
  exact List.drop_suffix _ _

theorem leash_skipKnown (h : skipKnown peer hp ids = .ok (hp', .ok [])) {x : BlockID} (hx : ids.getLast? = some x) :
    hp'.leash peer = .ok x := by
  obtain ⟨hp1, hskip, hfollow⟩ : ∃ hp1, skipKnown peer hp ids = _ ∧ LeashFollowed peer hp hp1 _ :=
    skipKnown_spec (knownPrefix_knownLength hp ids)
  rw [hskip] at h
  obtain ⟨rfl, hdrop⟩ : hp1 = hp' ∧ ids.drop (knownLength hp ids) = [] := by simpa using h
  rw [hfollow.leash, List.take_of_length_le (List.drop_eq_nil_iff.1 hdrop), hx]
  rfl

/-- The blocks of a ready queue are the requested ones. -/
theorem Queue.blocks_of_ready : ∀ {q : Queue}, q.ready = true → q.blocks.map Proto.Block.blockID = q.map Item.requested
  | [], _ => rfl
  | ⟨id, r⟩ :: q, h => by
    obtain ⟨hone, hall⟩ : Item.isReceived ⟨id, r⟩ = true ∧ Queue.ready q = true := by
      simpa [Queue.ready] using h
    have ih := Queue.blocks_of_ready hall
    cases r with
    | none => cases hone
    | some b =>
      obtain rfl : b.blockID = id := by simpa [Item.isReceived] using hone
      rw [List.map_cons, ← ih]
      rfl

theorem leash_ready {gw : Gowaves} {q : Queue} (hready : q.ready = true)
    (h : putBlocks gw peer hp q.blocks = .ok (hp', none)) {x : BlockID}
    (hx : (q.map Item.requested).getLast? = some x) : hp'.leash peer = .ok x := by
  rw [leash_putBlocks h]
  rw [← Queue.blocks_of_ready hready, List.getLast?_map] at hx
  obtain ⟨b, hb, rfl⟩ := Option.map_eq_some_iff.1 hx
  rw [hb]

theorem leashScore_of_leash {x : BlockID} {score : Int} (hx : hp.leash peer = .ok x)
    (h : hp.leashScore peer = .ok score) : score = hp.scoreOf x := by
  have hread : ∀ y, (do
      let b ← Go.wrap "failed to get block by ID '%s'" (hp.st.block y)
      .ok b.score : Res Int) = .ok score → score = hp.scoreOf y := by
    intro y hy
    obtain ⟨b, hb, hs⟩ := Go.bind_eq_ok.1 hy
    cases hs
    exact (Chains.Linkage.scoreOf_eq (Go.wrap_eq_ok.1 hb)).symm
  unfold Linkage.leash at hx
  unfold Linkage.leashScore at h
  rw [Chains.Storage.getLeash_eq] at hx h
  cases hr : hp.st.leashRecords[Chains.addrKeyBytes peer]? with
  | none =>
    rw [hr] at hx h
    cases hx
    exact hread _ h
  | some id =>
    rw [hr] at hx h
    cases hx
    exact hread _ h

end

/-! ## The log -/

theorem target_told (h : List Mark) (ids : List BlockID) : target (h ++ [.told ids]) = ids.getLast? := by
  unfold target
  rw [List.filterMap_append]
  show ((h.filterMap Mark.ids? ++ [ids]).getLast?).bind _ = _
  rw [List.getLast?_concat]
  rfl

/-- **Where the session stands**: the last mark that is no list of IDs is the call `c`. -/
def LastOK (h : List Mark) (c : OKCall) : Prop := ∃ before mid, OnlyTold mid ∧ h = before ++ [.decided c] ++ mid

theorem LastOK.of_told {h ts : List Mark} {c : OKCall} (hq : Quiet ts) (hl : LastOK (h ++ ts) c) : LastOK h c := by
  obtain ⟨before, mid, hmid, he⟩ := hl
  rcases List.append_eq_append_iff.1 he.symm with ⟨a, hh, rfl⟩ | ⟨a, hh, hts⟩
  · exact ⟨before, a, fun m hm => hmid m (List.mem_append_left _ hm), hh⟩
  · obtain rfl : a = [] := Quiet.eq_nil (fun m hm => hq m (by rw [hts]; exact List.mem_append_left _ hm)) hh
    exact ⟨before, [], (fun _ hm => nomatch hm), by rw [List.append_nil, hh, List.append_nil]⟩

theorem LastOK.eq_of_decided {h : List Mark} {c c' : OKCall} (hl : LastOK (h ++ [.decided c]) c') : c' = c := by
  obtain ⟨before, mid, hmid, he⟩ := hl
  obtain rfl : mid = [] := hmid.quiet.eq_nil he
  rw [List.append_nil] at he
  obtain ⟨-, hc⟩ := List.append_inj' he rfl
  simpa using hc.symm

theorem not_lastOK_started {h : List Mark} {c : OKCall} : ¬ LastOK (h ++ [.started]) c := by
  rintro ⟨before, mid, hmid, he⟩
  rcases List.eq_nil_or_concat mid with rfl | ⟨init, m, rfl⟩
  · rw [List.append_nil] at he
    obtain ⟨-, hc⟩ := List.append_inj' he rfl
    simp at hc
  · obtain ⟨ids, rfl⟩ := hmid m (by simp)
    rw [List.concat_eq_append, ← List.append_assoc] at he
    obtain ⟨-, hc⟩ := List.append_inj' he rfl
    simp at hc

/-- A call that is made when the log is `before`, seen from a later linkage. -/
structure CalledAt (hp : Linkage) (before : List Mark) (c : OKCall) : Prop where
  leash : ∃ x, target before = some x ∧ hp.Has x ∧ c.leash = some (hp.scoreOf x)
  session : ∀ c0, LastOK before c0 → c0.again = true

/-- **What holds of the log and the loader in every run**: the session is on only after a continuation, the queue ends
with the last ID told, and at every call the leash was on the last ID told. -/
structure Leashed (h : List Mark) (l : Loader) : Prop where
  continued : l.pl.isSome = true → ∀ c, LastOK h c → c.again = true
  asked : ∀ pl, l.pl = some pl → pl.control.state = .waitingForBlocks →
    ∃ x, target h = some x ∧ (pl.queue.map Item.requested).getLast? = some x
  calls : ∀ before c, At h before c → CalledAt l.linkage before c

section
variable {byName : Peer → Peer → Bool} {gw : Gowaves} {cmpMinor : Version → Version → Int} {scheme : Proto.Scheme}
  {genesis : Proto.Block} {l l' : Loader} {e : LoaderEvent byName} {h : List Mark}

theorem scoreOf_keptByCalls (x : BlockID) (score : Int) : KeptByCalls gw fun hp =>
    (∃ t, Reachable gw scheme genesis hp t) ∧ hp.Has x ∧ hp.scoreOf x = score := by
  rintro hp c hp' ⟨⟨t, ht⟩, hx, hs⟩ hc
  have K := ht.kept_call hc
  obtain ⟨n, hn⟩ := Option.isSome_iff_exists.1 hx
  refine ⟨⟨_, ht.call c hc⟩, Option.isSome_iff_exists.2 ⟨n, K.num x n hn⟩, ?_⟩
  rw [K.scoreOf ht.stands (ht.mirrors.refines.stored_iff.2 hx), hs]

/-- A score that a call has read stays the score of the block. -/
theorem CalledAt.later (hlink : ∃ t, Reachable gw scheme genesis l.linkage t) (hs : l.Scores)
    (hstep : Stepped gw l e l') {before : List Mark} {c : OKCall} (hc : CalledAt l.linkage before c) :
    CalledAt l'.linkage before c := by
  obtain ⟨⟨x, hx, hhas, hscore⟩, hsession⟩ := hc
  obtain ⟨-, hhas', hscore'⟩ := hstep.keeps (scoreOf_keptByCalls x (l.linkage.scoreOf x))
    (fun pl hpl => (hs.held pl hpl).1) ⟨hlink, hhas, rfl⟩
  exact ⟨⟨x, hx, hhas', by rw [hscore', hscore]⟩, hsession⟩

theorem Leashed.quiet {ts : List Mark} (hlink : ∃ t, Reachable gw scheme genesis l.linkage t) (hs : l.Scores)
    (hstep : Stepped gw l e l') (hlsh : Leashed h l) (hq : Quiet ts)
    (hcont : l'.pl.isSome = true → ∀ c, LastOK (h ++ ts) c → l.pl.isSome = true)
    (hasked : ∀ pl, l'.pl = some pl → pl.control.state = .waitingForBlocks →
      ∃ x, target (h ++ ts) = some x ∧ (pl.queue.map Item.requested).getLast? = some x) : Leashed (h ++ ts) l' :=
  ⟨fun hpl c hc => hlsh.continued (hcont hpl c hc) c (hc.of_told hq), hasked,
    fun before c ha => (hlsh.calls before c (hq.at_append ha)).later hlink hs hstep⟩

/-- The list that is taken, if the event is one, is the last one told. -/
theorem target_of_told {pl : Held} {ids : List BlockID} (hst : pl.control.state = .waitingForIDs) :
    target (h ++ pl.told (.ids ids)) = ids.getLast? := by
  have htold : pl.told (.ids ids) = [.told ids] := if_pos hst
  rw [htold]
  exact target_told h ids

theorem told_of_waitingForBlocks {pl : Held} {ev : Event} (hst : pl.control.state = .waitingForBlocks) :
    pl.told ev = [] := by
  unfold Held.told
  cases ev with
  | ids ids => simp [hst]
  | _ => rfl

theorem StillAsks.target {pl pl' : Held} {ev : Event} (hlsh : Leashed h l) (hpl : l.pl = some pl)
    (hne : ∀ ids, ev = .ids ids → ids ≠ []) (ha : StillAsks l pl pl' ev) :
    ∃ x, target (h ++ pl.told ev) = some x ∧ (pl'.queue.map Item.requested).getLast? = some x := by
  cases ha with
  | same ev hst hq =>
    rw [told_of_waitingForBlocks hst, List.append_nil, hq]
    exact hlsh.asked pl hpl hst
  | asked ids hp id req hst hskip hq =>
    obtain ⟨skipped, hids⟩ := skipKnown_suffix hskip
    obtain ⟨x, hx⟩ : ∃ x, ids.getLast? = some x := Option.ne_none_iff_exists'.1 fun hn =>
      hne ids rfl (List.getLast?_eq_none_iff.1 hn)
    refine ⟨x, by rw [target_of_told hst, hx], ?_⟩
    have hreq : pl'.queue.map Item.requested = id :: req := by
      rw [hq]
      simp [newQueue, Function.comp_def]
    rw [hreq, ← hx, ← hids, List.getLast?_append]
    simp [List.getLast?_cons]

theorem EndsBatch.target {env : Env} {pl : Held} {ev : Event} {hp : Linkage} (hlsh : Leashed h l) (hpl : l.pl = some pl)
    (hne : ∀ ids, ev = .ids ids → ids ≠ []) (hend : EndsBatch env l pl hp ev) :
    ∃ x, target (h ++ pl.told ev) = some x ∧ hp.leash pl.peer = .ok x := by
  cases hend with
  | known ids hst hskip =>
    obtain ⟨x, hx⟩ : ∃ x, ids.getLast? = some x := Option.ne_none_iff_exists'.1 fun hn =>
      hne ids rfl (List.getLast?_eq_none_iff.1 hn)
    exact ⟨x, by rw [target_of_told hst, hx], leash_skipKnown hskip hx⟩
  | loaded b hst hready hput =>
    obtain ⟨x, hx, hlast⟩ := hlsh.asked pl hpl hst
    rw [told_of_waitingForBlocks hst, List.append_nil]
    exact ⟨x, hx, leash_ready hready hput (by rw [Queue.put_requested, hlast])⟩

theorem step_leashed (hlink : ∃ t, Reachable gw scheme genesis l.linkage t) (hs : l.Scores)
    (hstep : Stepped gw l e l') (hlsh : Leashed h l) : Leashed (h ++ l.marks gw e l') l' := by
  have hpend := fun pl hpl => (hs.held pl hpl).1
  obtain ⟨t', ht'⟩ := hstep.keeps reachable_keptByCalls hpend hlink
  cases hstep with
  | started pl' hmarks hpl hpl' hcontrol hprev hlinkage =>
    rw [hmarks]
    refine hlsh.quiet hlink hs (.started pl' hmarks hpl hpl' hcontrol hprev hlinkage) (fun m hm => ?_)
      (fun _ c hc => absurd hc not_lastOK_started) fun pl hpl hw => ?_
    · obtain rfl := List.mem_singleton.1 hm
      rfl
    · obtain rfl : pl' = pl := Option.some.inj (hpl'.symm.trans hpl)
      rw [hcontrol] at hw
      cases hw
  | called hmarks hpl hprev hlinkage =>
    rw [hmarks]
    refine hlsh.quiet hlink hs (.called hmarks hpl hprev hlinkage) (fun m hm => nomatch hm)
      (fun hsome _ _ => by rwa [hpl] at hsome) fun pl hpl' hw => ?_
    rw [List.append_nil]
    exact hlsh.asked pl (hpl.symm.trans hpl') hw
  | fired env pl ev err hmarks hpl hgw hext hne hfire =>
    have hstep := Stepped.fired env pl ev err hmarks hpl hgw hext hne hfire
    rw [hmarks]
    have htold := (onlyTold_told pl ev).quiet
    have hhandled := fire_handled (hpend pl hpl) hext hfire
    have hsome : l.pl.isSome = true := by rw [hpl]; rfl
    generalize l.okCalled env pl ev = called at hhandled hmarks
    cases hhandled with
    | silent hprev hasks =>
      rw [List.map_nil, List.append_nil]
      exact hlsh.quiet hlink hs hstep htold (fun _ _ _ => hsome) fun pl' hpl' hw =>
        (hasks pl' hpl' hw).target hlsh hpl hne
    | ended hp again rep hend hok hlinkage hprev hheld hstate =>
      rw [List.map_singleton, ← List.append_assoc]
      obtain ⟨x, hx, hleash⟩ := hend.target hlsh hpl hne
      obtain ⟨-, -, sp, hsp, -⟩ := hs.held pl hpl
      have hmirrors := hlinkage ▸ ht'.mirrors
      refine ⟨fun hpl' c hc => ?_, fun pl' hpl' hw => absurd hw (hstate pl' hpl'), fun before c ha => ?_⟩
      · obtain rfl := hc.eq_of_decided
        have hagain : rep.held = again := reportOK_held hmirrors ⟨sp, hsp⟩ rfl hok
        rw [← hagain, ← hheld]
        exact hpl'
      · rcases at_decided ha with ⟨rfl, rfl⟩ | ha
        · refine ⟨⟨x, hx, ?_, ?_⟩, fun c0 hc0 => hlsh.continued hsome c0 (hc0.of_told htold)⟩
          · obtain ⟨k, hk, hstored⟩ := hmirrors.leash_stored pl.peer
            obtain rfl : x = k := Except.ok.inj (hleash.symm.trans hk)
            rw [hlinkage]
            exact hmirrors.refines.stored_iff.1 hstored
          · obtain ⟨score, hscore⟩ := hmirrors.exists_leashScore pl.peer
            rw [hlinkage, ← leashScore_of_leash hleash hscore]
            unfold OKCall.leash
            rw [show hp.leashScore pl.peer = .ok score from hscore]
        · exact (hlsh.calls before c (htold.at_append ha)).later hlink hs hstep

theorem run_leashed {t : Chains.BlockTree BlockID} {registry : Registry} {linkage : Linkage}
    {tr : List (Link Loader (LoaderEvent byName))} (hl : Reachable gw scheme genesis linkage t)
    (hr : Peers.Reachable cmpMinor registry) (h : Path (LoaderStep gw cmpMinor) (newLoader registry linkage) tr l') :
    Leashed (log gw tr) l' :=
  run_log hl hr ⟨(fun hsome => nomatch hsome), (fun _ hpl => nomatch hpl),
      fun _ _ ha => absurd (List.prefix_nil.1 ha) (by simp)⟩
    (fun _ _ _ _ hlink hs hst hlsh => step_leashed hlink hs hst hlsh) h

end

/-! ## The rounds of a session -/

/-- The lag is another one at every continuation of a session. -/
def LagChanges (h : List Mark) : Prop :=
  ∀ before c mid c', NextOK h before c mid c' → c'.again = true → c'.lag ≠ c.lag

/-- **The lag goes down** from one continuation of a session to the next while the broadcast score is the same. -/
def LagDecreases (h : List Mark) : Prop :=
  ∀ before c mid c', NextOK h before c mid c' → c'.again = true → c.broadcast = c'.broadcast →
    ∃ d d', c.lag = some d ∧ c'.lag = some d' ∧ d' < d

/-- The continuations in a part of a log. -/
def continuations (seg : List Mark) : List OKCall := (calls seg).filter OKCall.again

/-- **A session does not go on forever**: while the broadcast score is the same, there are no more continuations than
the lag at the first of them. -/
def RoundsBounded (h : List Mark) : Prop :=
  ∀ seg broadcast, seg <:+: h → Mark.started ∉ seg → (∀ c ∈ calls seg, c.broadcast = broadcast) →
    ∀ first d, (continuations seg).head? = some first → first.lag = some d → (continuations seg).length ≤ d.toNat

/-- No call of a session finds the leash at a lower score than the call before it. -/
def LeashesRise (h : List Mark) : Prop :=
  ∀ before c mid c', NextOK h before c mid c' → c.broadcast = c'.broadcast →
    ∃ s s', c.leash = some s ∧ c'.leash = some s' ∧ s ≤ s'

/-- No list of a session ends at a block of a lower score than the list before it. -/
def TargetsRise (hp : Linkage) (h : List Mark) : Prop :=
  ∀ before c mid c', NextOK h before c mid c' → c.broadcast = c'.broadcast →
    ∃ x x', target before = some x ∧ target (before ++ .decided c :: mid) = some x' ∧ hp.scoreOf x ≤ hp.scoreOf x'

/-- What one call of a session says of the next. -/
def Follows (c c' : OKCall) : Prop :=
  c.again = true ∧ (c'.again = true → ∃ d d', c.lag = some d ∧ c'.lag = some d' ∧ d' < d)

theorem exists_first : ∀ (seg : List Mark) {c : OKCall} {cs : List OKCall}, Mark.started ∉ seg → calls seg = c :: cs →
    ∃ mid rest, seg = mid ++ .decided c :: rest ∧ OnlyTold mid
  | .started :: seg, c, cs, hno, _ => absurd List.mem_cons_self hno
  | .told ids :: seg, c, cs, hno, h => by
    obtain ⟨mid, rest, rfl, hmid⟩ := exists_first seg (fun hm => hno (List.mem_cons_of_mem _ hm)) h
    refine ⟨.told ids :: mid, rest, rfl, fun m hm => ?_⟩
    rcases List.mem_cons.1 hm with rfl | hm
    · exact ⟨ids, rfl⟩
    · exact hmid m hm
  | .decided c' :: seg, c, cs, _, h => by
    obtain ⟨rfl, -⟩ := List.cons.inj (show c' :: calls seg = c :: cs from h)
    exact ⟨[], seg, rfl, fun _ hm => nomatch hm⟩

/-- The calls of a session, one after the other. -/
theorem isChain_calls {R : OKCall → OKCall → Prop} : ∀ (seg : List Mark), Mark.started ∉ seg →
    (∀ before c mid c' rest, seg = before ++ .decided c :: (mid ++ .decided c' :: rest) → OnlyTold mid → R c c') →
    (calls seg).IsChain R
  | [], _, _ => .nil
  | .started :: seg, hno, _ => absurd List.mem_cons_self hno
  | .told ids :: seg, hno, hR =>
    isChain_calls seg (fun hm => hno (List.mem_cons_of_mem _ hm)) fun before c mid c' rest he =>
      hR (.told ids :: before) c mid c' rest (by rw [he]; rfl)
  | .decided c :: seg, hno, hR => by
    have hno' : Mark.started ∉ seg := fun hm => hno (List.mem_cons_of_mem _ hm)
    have ih := isChain_calls seg hno' fun before c' mid c'' rest he =>
      hR (.decided c :: before) c' mid c'' rest (by rw [he]; rfl)
    show (c :: calls seg).IsChain R
    cases hc : calls seg with
    | nil => exact .singleton c
    | cons c' cs =>
      obtain ⟨mid, rest, hseg, hmid⟩ := exists_first seg hno' hc
      rw [hc] at ih
      exact List.isChain_cons_cons.2 ⟨hR [] c mid c' rest (by rw [hseg]; rfl) hmid, ih⟩

/-- **A decreasing positive lag bounds the continuations.** -/
theorem length_continuations_le : ∀ {cs : List OKCall}, cs.IsChain Follows →
    (∀ c ∈ cs, c.again = true → ∃ d, c.lag = some d ∧ 0 < d) → ∀ {first : OKCall} {d : Int},
    (cs.filter OKCall.again).head? = some first → first.lag = some d → (cs.filter OKCall.again).length ≤ d.toNat
  | [], _, _, _, _, hfirst, _ => nomatch hfirst
  | [c], _, hpos, first, d, hfirst, hd => by
    cases hc : c.again with
    | false =>
      rw [List.filter_cons_of_neg (by simp [hc])] at hfirst
      cases hfirst
    | true =>
      rw [List.filter_cons_of_pos hc] at hfirst ⊢
      obtain rfl : c = first := Option.some.inj hfirst
      obtain ⟨d0, hd0, h0⟩ := hpos c List.mem_cons_self hc
      obtain rfl : d0 = d := Option.some.inj (hd0.symm.trans hd)
      show 1 ≤ d0.toNat
      omega
  | c :: c' :: cs, hchain, hpos, first, d, hfirst, hd => by
    obtain ⟨⟨hc, hdown⟩, hchain⟩ := List.isChain_cons_cons.1 hchain
    have hpos' := fun x hx => hpos x (List.mem_cons_of_mem c hx)
    rw [List.filter_cons_of_pos hc] at hfirst ⊢
    obtain rfl : c = first := Option.some.inj hfirst
    obtain ⟨d0, hd0, h0⟩ := hpos c List.mem_cons_self hc
    obtain rfl : d0 = d := Option.some.inj (hd0.symm.trans hd)
    rw [List.length_cons]
    cases hc' : c'.again with
    | true =>
      obtain ⟨d1, d', hd1, hd', hlt⟩ := hdown hc'
      obtain rfl : d0 = d1 := Option.some.inj (hd0.symm.trans hd1)
      have hhead : ((c' :: cs).filter OKCall.again).head? = some c' := by rw [List.filter_cons_of_pos hc']; rfl
      have ih := length_continuations_le hchain hpos' hhead hd'
      obtain ⟨d2, hd2, h2⟩ := hpos' c' List.mem_cons_self hc'
      obtain rfl : d2 = d' := Option.some.inj (hd2.symm.trans hd')
      omega
    | false =>
      -- a call that does not continue is the last one
      have hnil : cs = [] := by
        cases cs with
        | nil => rfl
        | cons c'' cs =>
          have hagain := (List.isChain_cons_cons.1 hchain).1.1
          rw [hc'] at hagain
          cases hagain
      rw [hnil, List.filter_cons_of_neg (by simp [hc'])]
      show 1 ≤ d0.toNat
      omega

section
variable {byName : Peer → Peer → Bool} {gw : Gowaves} {cmpMinor : Version → Version → Int} {scheme : Proto.Scheme}
  {genesis : Proto.Block} {l' : Loader}

theorem NextOK.lastOK {h before mid : List Mark} {c c' : OKCall} (hn : NextOK h before c mid c') :
    LastOK (before ++ .decided c :: mid) c := ⟨before, mid, hn.1, by simp⟩

theorem NextOK.calls {h before mid : List Mark} {c c' : OKCall} (hn : NextOK h before c mid c') :
    calls before ++ [c, c'] <+: calls h := by
  have ha := hn.2.calls
  rw [List.append_cons before, hn.1.quiet.calls_append, calls_decided, List.append_assoc] at ha
  exact ha

theorem NextOK.at_first {h before mid : List Mark} {c c' : OKCall} (hn : NextOK h before c mid c') : At h before c := by
  have ha := hn.2
  rw [List.append_cons] at ha
  exact ha.start

/-- **Whether the lag goes down and sessions end**, for every run over a linkage and a registry in reachable states:
the lag changes at every continuation, and it goes down exactly when no call of `OK` finds the leash at a lower score
than the call before, which is when no list that a peer answers with ends at a block of a lower score than the list
before. -/
theorem lag_decreases_iff {t : Chains.BlockTree BlockID} {registry : Registry} {linkage : Linkage}
    {tr : List (Link Loader (LoaderEvent byName))} (hl : Reachable gw scheme genesis linkage t)
    (hr : Peers.Reachable cmpMinor registry) (h : Path (LoaderStep gw cmpMinor) (newLoader registry linkage) tr l') :
    LagChanges (log gw tr) ∧ (LagDecreases (log gw tr) ∧ RoundsBounded (log gw tr) ↔ LeashesRise (log gw tr)) ∧
      (LeashesRise (log gw tr) ↔ TargetsRise l'.linkage (log gw tr)) := by
  have hrem := run_remembers hl hr h
  have hlsh := run_leashed hl hr h
  have hcall : ∀ before c, At (log gw tr) before c → ∃ ps ls, c.broadcast = some ps ∧ c.leash = some ls ∧
      c.lag = some (ps - ls) ∧ (c.again = true ↔ ls < ps ∧ remembered before ≠ some (ps - ls)) := by
    intro before c ha
    obtain ⟨ps, ls, hps, hls, hagain⟩ := hrem.decides before c ha
    exact ⟨ps, ls, hps, hls, by simp [OKCall.lag, hps, hls], hagain⟩
  -- a session that is on has continued, by the lag that its next call is compared with
  have hnext : ∀ {before c mid c'}, NextOK (log gw tr) before c mid c' → c.again = true ∧
      remembered (before ++ .decided c :: mid) = c.lag := by
    intro before c mid c' hn
    have hc : c.again = true := (hlsh.calls _ c' hn.2).session c hn.lastOK
    exact ⟨hc, by rw [List.append_cons, hn.1.quiet.remembered_append, remembered_decided, if_pos hc]⟩
  have hchanges : LagChanges (log gw tr) := by
    intro before c mid c' hn hc' hsame
    obtain ⟨ps, ls, -, -, hlag, hagain⟩ := hcall _ c' hn.2
    exact (hagain.1 hc').2 (by rw [(hnext hn).2, ← hsame, hlag])
  have hiff : LagDecreases (log gw tr) ↔ LeashesRise (log gw tr) := by
    refine forall_congr' fun before => forall_congr' fun c => forall_congr' fun mid => forall_congr' fun c' => ?_
    refine forall_congr' fun hn => ?_
    obtain ⟨ps, ls, hps, hls, hlag, hagain⟩ := hcall before c hn.at_first
    obtain ⟨ps', ls', hps', hls', hlag', hagain'⟩ := hcall _ c' hn.2
    obtain ⟨hc, hleft⟩ := hnext hn
    rw [hleft, hlag, ne_eq, Option.some.injEq] at hagain'
    have hbehind := (hagain.1 hc).1
    constructor
    · intro hdown hsame
      refine ⟨ls, ls', hls, hls', ?_⟩
      obtain rfl : ps = ps' := Option.some.inj (hps.symm.trans (hsame.trans hps'))
      by_contra hlt
      obtain ⟨d, d', hd, hd', hless⟩ := hdown (hagain'.2 ⟨by omega, by omega⟩) hsame
      obtain rfl := Option.some.inj (hlag.symm.trans hd)
      obtain rfl := Option.some.inj (hlag'.symm.trans hd')
      omega
    · intro hrise hc' hsame
      refine ⟨_, _, hlag, hlag', ?_⟩
      obtain rfl : ps = ps' := Option.some.inj (hps.symm.trans (hsame.trans hps'))
      obtain ⟨s, s', hs, hs', hle⟩ := hrise hsame
      obtain rfl := Option.some.inj (hls.symm.trans hs)
      obtain rfl := Option.some.inj (hls'.symm.trans hs')
      have := (hagain'.1 hc').2
      omega
  refine ⟨hchanges, ⟨fun hboth => hiff.1 hboth.1, fun hrise => ⟨hiff.2 hrise, ?_⟩⟩, ?_⟩
  · intro seg b hseg hno hsame first d hfirst hd
    obtain ⟨pre, post, hlog⟩ := hseg
    refine length_continuations_le (isChain_calls seg hno fun before c mid c' rest hs hmid => ?_)
      (fun c hc hagain => ?_) hfirst hd
    · have hn : NextOK (log gw tr) (pre ++ before) c mid c' := ⟨hmid, rest ++ post, by rw [← hlog, hs]; simp⟩
      refine ⟨(hnext hn).1, fun hagain => hiff.2 hrise _ c mid c' hn hagain ?_⟩
      rw [hsame c (by rw [hs]; simp [calls, Mark.call?]), hsame c' (by rw [hs]; simp [calls, Mark.call?])]
    · obtain ⟨before, rest, ha⟩ := exists_at hc
      exact (hrem.decides (pre ++ before) c ⟨rest ++ post, by rw [← hlog, ← ha]; simp⟩).lag_of_again hagain
  · -- the leash is on the last ID of the list
    refine forall_congr' fun before => forall_congr' fun c => forall_congr' fun mid => forall_congr' fun c' => ?_
    refine forall_congr' fun hn => forall_congr' fun _ => ?_
    obtain ⟨x, hx, -, hscore⟩ := (hlsh.calls before c hn.at_first).leash
    obtain ⟨x', hx', -, hscore'⟩ := (hlsh.calls _ c' hn.2).leash
    simp [hx, hx', hscore, hscore']

end

/-- The peer answers with block 1, and then with block 2 on it. -/
theorem lag_decreases_iff_sample : ∃ (hp : Linkage) (l' : Loader) (tr : List (Link Loader (LoaderEvent Sample.anyName)))
    (c0 c1 : OKCall), Chains.Sample.after [] = .ok hp ∧
    Path (LoaderStep Chains.Sample.gowaves Peers.Sample.cmpMinor) (newLoader Peers.Sample.registry hp) tr l' ∧
    calls (log Chains.Sample.gowaves tr) = [c0, c1] ∧ c0.again = true ∧ c1.again = true ∧
    LagDecreases (log Chains.Sample.gowaves tr) ∧ RoundsBounded (log Chains.Sample.gowaves tr) := by
  obtain ⟨hp, hhp⟩ := Go.exists_of_isOk (x := Chains.Sample.after []) (by decide +kernel)
  obtain ⟨tr, l', hpath, -, hlog⟩ := Sample.exists_log (e := Sample.twoRounds [1] [1, 2]) (v := [.started,
      .told [Chains.Sample.id 1], .decided (some 1000000000000000000000) (some 184467440737095516) true,
      .told [Chains.Sample.id 1, Chains.Sample.id 2],
      .decided (some 1000000000000000000000) (some 368934881474191032) true]) hhp
    (by decide +kernel) (by decide +kernel)
  simp only [List.map_eq_cons_iff, List.map_eq_nil_iff] at hlog
  obtain ⟨m1, _, hlog, h1, m2, _, rfl, h2, m3, _, rfl, h3, m4, _, rfl, h4, m5, _, rfl, h5, rfl⟩ := hlog
  obtain rfl := Sample.eq_started h1
  obtain rfl := Sample.eq_told h2
  obtain ⟨c0, rfl, hb0, hl0, ha0⟩ := Sample.eq_decided h3
  obtain rfl := Sample.eq_told h4
  obtain ⟨c1, rfl, hb1, hl1, ha1⟩ := Sample.eq_decided h5
  have hcalls : calls (log Chains.Sample.gowaves tr) = [c0, c1] := by rw [hlog]; rfl
  refine ⟨hp, l', tr, c0, c1, hhp, hpath, hcalls, ha0, ha1, (lag_decreases_iff (Chains.Sample.reachable hhp)
    Sample.registry_reachable hpath).2.1.2 fun before c mid c' hn _ => ?_⟩
  have hpre : calls before ++ [c, c'] <+: [c0, c1] := hcalls ▸ hn.calls
  obtain ⟨rfl, rfl⟩ : c = c0 ∧ c' = c1 := by
    cases hc : calls before with
    | nil =>
      rw [hc] at hpre
      simpa using hpre
    | cons y ys =>
      have := hpre.length_le
      simp [hc] at this
  exact ⟨_, _, hl0, hl1, by decide⟩

/-- The peer answers with blocks 1 and 2, and then with block 1 again: the lag goes up, and the session goes on. -/
theorem lag_goes_up : ∃ hp, Chains.Sample.after [] = .ok hp ∧
    ¬ ∀ (tr : List (Link Loader (LoaderEvent Sample.anyName))) l',
      Path (LoaderStep Chains.Sample.gowaves Peers.Sample.cmpMinor) (newLoader Peers.Sample.registry hp) tr l' →
      LagDecreases (log Chains.Sample.gowaves tr) ∧ RoundsBounded (log Chains.Sample.gowaves tr) := by
  obtain ⟨hp, hhp⟩ := Go.exists_of_isOk (x := Chains.Sample.after []) (by decide +kernel)
  obtain ⟨tr, l', hpath, -, hlog⟩ := Sample.exists_log (e := Sample.twoRounds [1, 2] [1]) (v := [.started,
      .told [Chains.Sample.id 1, Chains.Sample.id 2],
      .decided (some 1000000000000000000000) (some 368934881474191032) true, .told [Chains.Sample.id 1],
      .decided (some 1000000000000000000000) (some 184467440737095516) true]) hhp
    (by decide +kernel) (by decide +kernel)
  simp only [List.map_eq_cons_iff, List.map_eq_nil_iff] at hlog
  obtain ⟨m1, _, hlog, h1, m2, _, rfl, h2, m3, _, rfl, h3, m4, _, rfl, h4, m5, _, rfl, h5, rfl⟩ := hlog
  obtain ⟨c0, rfl, hb0, hl0, ha0⟩ := Sample.eq_decided h3
  obtain rfl := Sample.eq_told h4
  obtain ⟨c1, rfl, hb1, hl1, ha1⟩ := Sample.eq_decided h5
  refine ⟨hp, hhp, fun hall => ?_⟩
  have hn : NextOK (log Chains.Sample.gowaves tr) [m1, m2] c0 [.told [Chains.Sample.id 1]] c1 :=
    ⟨fun m hm => ⟨_, List.mem_singleton.1 hm⟩, [], by rw [hlog]; rfl⟩
  obtain ⟨d, d', hd, hd', hlt⟩ := (hall tr l' hpath).1 _ _ _ _ hn ha1 (hb0.trans hb1.symm)
  simp only [OKCall.lag, hb0, hl0, hb1, hl1, Option.bind_eq_bind, Option.bind_some, Option.some.injEq] at hd hd'
  omega

end Loading
end ForkDetector
