import ForkDetector.Chains.Reads
import ForkDetector.Loading.Sessions
/-!
# Asking — the lists of IDs that the loader sends to its peer

The loader asks for what comes after a block by naming it and its ancestors.  The lists of a whole run are never
empty, which is what `RequestBlockIDs` relies on, and hold stored blocks only, in the order of the chain (`run_asks`).
The first list of a session starts from the leash of the peer, but after every ten failures in a row from the last
common block (`run_restarts`).
-/
namespace ForkDetector
namespace Loading

open Ancestry
open Proto (BlockID Gowaves Version Conn)
open Chains (Linkage Reachable BlockTree)
open Peers (Registry Peer)
open Run (Path Link)

/-! ## The request of a peer -/

/-- The messages of `RequestBlockIDs`. -/
inductive IDsRequest (σ : Type) where
  | getSignatures (signatures : List σ)
  | getBlockIds (blocks : List BlockID)

def protobufVersion : Version := ⟨1, 2, 0⟩

/-- `Peer.RequestBlockIDs`, for the version of the handshake; both branches log the first and the last ID. -/
def requestBlockIDs {σ : Type} (cmp : Version → Version → Int) (signature : BlockID → σ) (version : Version)
    (ids : List BlockID) : Res (IDsRequest σ) :=
  if cmp version protobufVersion < 0 then do
    let sigs := ids.map signature
    let _ ← Go.index sigs 0
    let _ ← Go.index sigs (sigs.length - 1)
    .ok (.getSignatures sigs)
  else do
    let _ ← Go.index ids 0
    let _ ← Go.index ids (ids.length - 1)
    .ok (.getBlockIds ids)

/-! ## The lists of IDs -/

/-- **A list that leads back from a block**: stored blocks, each followed by its parent, a hundred of them or down to
the genesis block. -/
structure LeadsBack (t : BlockTree BlockID) (ids : List BlockID) : Prop where
  stored : ∀ x ∈ ids, t.Stored x
  linked : ids.IsChain fun u v => t.parent u = some v
  length_le : ids.length ≤ idsBatchSize
  whole : ids.length = idsBatchSize ∨ ids.getLast? = some t.root

/-- The IDs were read from a stored block on. -/
def ReadFrom (gw : Gowaves) (scheme : Proto.Scheme) (genesis : Proto.Block) (ids : List BlockID)
    (hp : Linkage) : Prop :=
  ∃ t k, Reachable gw scheme genesis hp t ∧ t.Stored k ∧ ids = path t.parent idsBatchSize k

theorem leadsBack_path {t : BlockTree BlockID} {k : BlockID} (hk : t.Stored k) :
    LeadsBack t (path t.parent idsBatchSize k) where
  stored := t.isRooted.path_node idsBatchSize hk
  linked := path_isChain idsBatchSize k
  length_le := by
    rw [t.isRooted.path_length hk]
    exact Nat.min_le_left _ _
  whole := by
    rcases Nat.le_total idsBatchSize (t.height k) with h | h
    · exact .inl (by rw [t.isRooted.path_length hk, Nat.min_eq_left h])
    · exact .inr (t.isRooted.path_getLast? hk h)

section
variable {gw : Gowaves} {scheme : Proto.Scheme} {genesis : Proto.Block}

/-- No later call takes away from a list what it was read from. -/
theorem readFrom_keptByCalls (ids : List BlockID) : KeptByCalls gw (ReadFrom gw scheme genesis ids) := by
  rintro hp c hp' ⟨t, k, ht, hk, rfl⟩ hc
  have K := ht.kept_call hc
  exact ⟨t.call c, k, ht.call c hc, K.stored hk, (K.agree.path_eq idsBatchSize hk).symm⟩

variable {env : Env} {ρ : Type} {rep : Reporter ρ}

/-- Where the lists of the loader of a peer are read from: the leash, or the last common block. -/
def FoundFrom (env : Env) (hp : Linkage) (peer : Addr) (ids : List BlockID) : Prop :=
  ∃ k, (hp.leash peer = .ok k ∨ hp.lcb env.gw env.rng peer = .ok k) ∧ hp.lastIDs k idsBatchSize = .ok ids

theorem requestIDsFrom_asks {s : PeerLoader ρ} {block : Res BlockID} {d : Done ρ}
    (h : s.requestIDsFrom env block = .ok d) :
    d.world.sent = s.sent ∨ ∃ k ids, block = .ok k ∧ s.hp.lastIDs k idsBatchSize = .ok ids ∧
      d.world.sent = s.sent ++ [.blockIDs ids] := by
  obtain ⟨r, hr, h⟩ := Go.bind_eq_ok.1 h
  split at h
  · cases h
    exact .inl rfl
  · rename_i ids
    cases h
    obtain ⟨k, hk, hids⟩ := Go.bind_eq_ok.1 (Go.attempt_eq_ok.1 hr)
    exact .inr ⟨k, ids, hk, hids, rfl⟩

theorem requestIDsFrom_found {s : PeerLoader ρ} {block : Res BlockID} {d : Done ρ}
    (hblock : block = s.hp.leash s.peer ∨ block = s.hp.lcb env.gw env.rng s.peer)
    (h : s.requestIDsFrom env block = .ok d) {ids : List BlockID} (hids : .blockIDs ids ∈ d.world.sent) :
    .blockIDs ids ∈ s.sent ∨ FoundFrom env s.hp s.peer ids := by
  rcases requestIDsFrom_asks h with hsent | ⟨k, ids', hk, hids', hsent⟩
  · exact .inl (hsent ▸ hids)
  · rw [hsent, List.mem_append, List.mem_singleton] at hids
    refine hids.imp_right fun he => ?_
    cases he
    refine ⟨k, ?_, hids'⟩
    rcases hblock with rfl | rfl
    · exact .inl hk
    · exact .inr hk

theorem Finished.found {s : PeerLoader ρ} {r : Settled ρ} (h : Finished env rep s r) {ids : List BlockID}
    (hids : .blockIDs ids ∈ r.world.sent) : .blockIDs ids ∈ s.sent ∨ FoundFrom env r.world.hp s.peer ids := by
  cases h with
  | stopped r hok => exact .inl hids
  | again r d hok hd =>
    have hhp : d.world.hp = s.hp := (requestIDsFrom_world hd).2.1
    have hfound := requestIDsFrom_found (.inl rfl) hd hids
    show _ ∨ FoundFrom env d.world.hp s.peer ids
    rw [hhp]
    exact hfound

/-- **What an event asks for**: each new list is read from the leash or from the last common block. -/
theorem Fired.found {st : State} {e : Event} {s : PeerLoader ρ} {r : Settled ρ} (h : Fired env rep st e s r)
    {ids : List BlockID} (hids : .blockIDs ids ∈ r.world.sent) :
    .blockIDs ids ∈ s.sent ∨ FoundFrom env r.world.hp s.peer ids := by
  cases h with
  | started _ d hd =>
    have hhp : d.world.hp = s.hp := (requestIDsFrom_world hd).2.1
    show _ ∨ FoundFrom env d.world.hp s.peer ids
    rw [hhp]
    exact requestIDsFrom_found (.inl rfl) hd hids
  | restarted _ d hd =>
    have hhp : d.world.hp = s.hp := (requestIDsFrom_world hd).2.1
    show _ ∨ FoundFrom env d.world.hp s.peer ids
    rw [hhp]
    exact requestIDsFrom_found (.inr rfl) hd hids
  | requested ids' _ hp id req hskip =>
    refine .inl ((List.mem_append.1 hids).resolve_right fun hmem => ?_)
    obtain ⟨x, -, hx⟩ := List.mem_map.1 hmem
    cases hx
  | known _ _ hp _ _ hfin => exact hfin.found hids
  | loaded _ _ hp _ _ _ hfin => exact hfin.found hids
  | _ => exact .inl hids

/-- A list that is read in a reachable linkage is read from a stored block. -/
theorem FoundFrom.readFrom {hp : Linkage} {peer : Addr} {ids : List BlockID} (h4 : peer.is4 = true)
    (hlink : ∃ t, Reachable gw scheme genesis hp t) (hgw : env.gw = gw) (h : FoundFrom env hp peer ids) :
    ReadFrom gw scheme genesis ids hp := by
  subst hgw
  obtain ⟨t, ht⟩ := hlink
  obtain ⟨k, hk, hids⟩ := h
  have hstored : t.Stored k := by
    rcases hk with hk | hk
    · obtain ⟨k', hk', hs⟩ := ht.mirrors.leash_stored peer
      obtain rfl : k' = k := Except.ok.inj (hk'.symm.trans hk)
      exact hs
    · exact ht.mirrors.lcb_stored h4 hk
  exact ⟨t, k, ht, hstored, Except.ok.inj (hids.symm.trans (ht.mirrors.refines.getAncestors_eq hstored _))⟩

end

/-! ## Every run -/

/-- **Every list asked for was read from a stored block**, in a loader whose peer has an IPv4 address. -/
structure Loader.Asks (gw : Gowaves) (scheme : Proto.Scheme) (genesis : Proto.Block) (l : Loader) : Prop where
  scores : l.Scores
  linkage : ∃ t, Reachable gw scheme genesis l.linkage t
  asked : ∀ pl, l.pl = some pl → ∀ ids, .blockIDs ids ∈ pl.sent → ReadFrom gw scheme genesis ids l.linkage

section
variable {env : Env} {gw : Gowaves} {scheme : Proto.Scheme} {genesis : Proto.Block} {l l' : Loader} {pl : Held}
  {e : Event} {err : Option (Go.Err Sentinel)}

theorem keep_sent {r : Settled Report} (h : (Loader.keep r).pl = some pl) : pl.sent = r.world.sent := by
  unfold Loader.keep at h
  simp only at h
  split at h
  · cases h
    rfl
  · cases h

theorem fire_asks (hgw : env.gw = gw) (ha : l.Asks gw scheme genesis) (hpl : l.pl = some pl)
    (h : l.fire env pl e = .ok (l', err)) (hext : e.External) : l'.Asks gw scheme genesis := by
  obtain ⟨hpend, h4, -⟩ := ha.scores.held pl hpl
  obtain ⟨r, hr, he⟩ := fire_fires hpend hext h
  have hlink : ∃ t, Reachable gw scheme genesis r.world.hp t := hr.keeps hgw reachable_keptByCalls ha.linkage
  refine ⟨fire_scores ha.scores hpl h hext, by rw [he]; exact hlink, fun pl' hpl' ids hids => ?_⟩
  rw [he] at hpl' ⊢
  rw [keep_sent hpl'] at hids
  rcases hr.found hids with hold | hnew
  · exact hr.keeps hgw (readFrom_keptByCalls ids) (ha.asked pl hpl ids hold)
  · exact hnew.readFrom h4 hlink hgw

theorem sync_asks {byName : Peer → Peer → Bool} {conns : Go.MapRange Addr Conn} {srt : Go.UnstableSort Peer byName}
    {pick : Nat} (hgw : env.gw = gw) (ha : l.Asks gw scheme genesis) (h : l.sync env conns srt pick = .ok l') :
    l'.Asks gw scheme genesis := by
  rcases sync_chooses ha.scores.onlyIPv4 h with rfl | ⟨p, sp, l2, h4, hsp, hscore, h2, hnext⟩
  · exact ha
  · have h1 : Loader.Asks gw scheme genesis { l with pl := some ⟨⟨.idle, []⟩, p, none, [], []⟩ } := by
      refine ⟨⟨ha.scores.onlyIPv4, fun pl hpl => ?_⟩, ha.linkage, fun pl hpl ids hids => ?_⟩
      · cases hpl
        exact ⟨rfl, h4, sp, hsp, hscore⟩
      · cases hpl
        cases hids
    have h2 : l2.Asks gw scheme genesis := by
      rcases h2 with h2 | rfl
      · obtain ⟨pl, err, hpl, hfire⟩ := restartSync_fires h2
        cases hpl
        have hreset : Loader.Asks gw scheme genesis { l with
            pl := some ⟨⟨.idle, []⟩, p, none, [], []⟩, fc := l.fc.reset p } :=
          ⟨⟨h1.scores.onlyIPv4, h1.scores.held⟩, h1.linkage, h1.asked⟩
        exact fire_asks hgw hreset rfl hfire trivial
      · exact h1
    obtain ⟨pl, err, hpl, hfire⟩ := continueSync_fires hnext
    exact fire_asks hgw h2 hpl hfire trivial

/-- Nothing is asked for when the linkage changes. -/
theorem Loader.Asks.call {linkage : Linkage} (ha : l.Asks gw scheme genesis) {c : Chains.Call}
    (hc : l.linkage.call gw c = .ok linkage) : Loader.Asks gw scheme genesis { l with linkage := linkage } where
  scores := ⟨ha.scores.onlyIPv4, ha.scores.held⟩
  linkage := reachable_keptByCalls _ c _ ha.linkage hc
  asked pl hpl ids hids := readFrom_keptByCalls ids _ c _ (ha.asked pl hpl ids hids) hc

theorem step_asks {byName : Peer → Peer → Bool} {cmpMinor : Version → Version → Int} {e : LoaderEvent byName}
    (h : LoaderStep gw cmpMinor l e l') (ha : l.Asks gw scheme genesis) : l'.Asks gw scheme genesis := by
  cases e with
  | sync now rng conns srt pick =>
    have hgw : Env.gw ⟨gw, now, rng⟩ = gw := rfl
    exact sync_asks hgw ha h
  | tick now =>
    rcases tick_fires h with ⟨-, rfl⟩ | ⟨pl, err, hpl, hr⟩
    · exact ha
    · exact fire_asks rfl ha hpl hr trivial
  | ids now peer ids =>
    rcases handleIDs_fires h with rfl | ⟨pl, err, hpl, hr⟩
    · exact ha
    · exact fire_asks rfl ha hpl hr trivial
  | block now peer block =>
    rcases handleBlock_fires h with rfl | ⟨pl, err, hpl, hr⟩
    · exact ha
    · exact fire_asks rfl ha hpl hr trivial
  | linkage c =>
    obtain ⟨hp, hc, h⟩ := Go.bind_eq_ok.1 h
    cases h
    exact ha.call hc
  | registry op =>
    have hscores := step_scores h ha.scores
    obtain ⟨registry, -, h⟩ := Go.bind_eq_ok.1 h
    cases h
    exact ⟨hscores, ha.linkage, ha.asked⟩

end

theorem requestBlockIDs_ok {σ : Type} (cmp : Version → Version → Int) (signature : BlockID → σ) (version : Version)
    {ids : List BlockID} (hne : ids ≠ []) : requestBlockIDs cmp signature version ids =
      .ok (if cmp version protobufVersion < 0 then .getSignatures (ids.map signature) else .getBlockIds ids) := by
  obtain ⟨id, rest, rfl⟩ := List.exists_cons_of_ne_nil hne
  have hlast : ∀ {α : Type} (x : α) (xs : List α), ∃ y, (Go.index (x :: xs) ((x :: xs).length - 1) : Res α) = .ok y :=
    fun x xs => ⟨_, Go.index_eq_ok.2 (List.getElem?_eq_getElem (by simp))⟩
  unfold requestBlockIDs
  simp only
  split
  · obtain ⟨y, hy⟩ := hlast (signature id) (rest.map signature)
    rw [List.map_cons, hy]
    rfl
  · obtain ⟨y, hy⟩ := hlast id rest
    rw [hy]
    rfl

/-- **Every list of IDs that the loader asks its peer with**, in every run: it leads back from a stored block, is never
empty, and is sent whole to a node of any version. -/
theorem run_asks {byName : Peer → Peer → Bool} {gw : Gowaves} {cmpMinor : Version → Version → Int}
    {scheme : Proto.Scheme} {genesis : Proto.Block} {t : BlockTree BlockID} {registry : Registry} {linkage : Linkage}
    {tr : List (Link Loader (LoaderEvent byName))} {l' : Loader} (hl : Reachable gw scheme genesis linkage t)
    (hr : Peers.Reachable cmpMinor registry)
    (h : Path (LoaderStep gw cmpMinor) (newLoader registry linkage) tr l') {pl : Held} (hpl : l'.pl = some pl)
    {ids : List BlockID} (hids : .blockIDs ids ∈ pl.sent) :
    (∃ t', Reachable gw scheme genesis l'.linkage t' ∧ LeadsBack t' ids) ∧ ids ≠ [] ∧
      ∀ (σ : Type) (cmp : Version → Version → Int) (signature : BlockID → σ) (version : Version),
        requestBlockIDs cmp signature version ids = .ok (if cmp version protobufVersion < 0 then
          .getSignatures (ids.map signature) else .getBlockIds ids) := by
  have h0 : (newLoader registry linkage).Asks gw scheme genesis :=
    ⟨⟨hr.onlyIPv4, fun pl hpl => nomatch hpl⟩, ⟨t, hl⟩, fun pl hpl => nomatch hpl⟩
  have hstep : ∀ (l : Loader) (e : LoaderEvent byName) (l' : Loader), l.Asks gw scheme genesis →
      LoaderStep gw cmpMinor l e l' → l'.Asks gw scheme genesis := fun _ _ _ ha hs => step_asks hs ha
  have hend := (Path.invariant hstep h0 h).2
  obtain ⟨t', k, ht', hk, rfl⟩ := hend.asked pl hpl ids hids
  have hne : path t'.parent idsBatchSize k ≠ [] := List.cons_ne_nil _ _
  exact ⟨⟨t', ht', leadsBack_path hk⟩, hne, fun σ cmp signature version => requestBlockIDs_ok cmp signature version hne⟩

/-- A peer whose leash is on the end of a chain of three blocks is asked with the whole chain. -/
theorem run_asks_sample : ∃ (hp : Linkage) (l : Loader) (tr : List (Link Loader (LoaderEvent Sample.anyName)))
    (pl : Held), Chains.Sample.after [] = .ok hp ∧
    Path (LoaderStep Chains.Sample.gowaves Peers.Sample.cmpMinor) (newLoader Peers.Sample.registry hp) tr l ∧
    l.pl = some pl ∧ pl.sent = [.blockIDs ([3, 2, 1].map Chains.Sample.id)] ∧
    ∃ t, Reachable Chains.Sample.gowaves 87 (Chains.Sample.block 1 0) l.linkage t ∧
      LeadsBack t ([3, 2, 1].map Chains.Sample.id) := by
  obtain ⟨hp, hhp⟩ := Go.exists_of_isOk (x := Chains.Sample.after []) (by decide +kernel)
  let es : List (LoaderEvent Sample.anyName) := .linkage (Chains.Sample.key 2 1) ::
    .linkage (.putBlock (Chains.Sample.block 3 2) Peers.Sample.addr) :: Sample.connect ++ [Sample.choose]
  obtain ⟨l, h⟩ := Sample.exists_load es hhp (by decide +kernel)
  obtain ⟨tr, htr, -⟩ := Path.of_foldlM h
  have hsent : l.pl.map Held.sent = some [.blockIDs ([3, 2, 1].map Chains.Sample.id)] :=
    Sample.load_reads (fun l => l.pl.map Held.sent) hhp h (by decide +kernel)
  obtain ⟨pl, hpl, hsent⟩ := Option.map_eq_some_iff.1 hsent
  exact ⟨hp, l, tr, pl, hhp, htr, hpl, hsent, (run_asks (Chains.Sample.reachable hhp) Sample.registry_reachable htr hpl
    (by rw [hsent]; exact List.mem_singleton_self _)).1⟩

/-! ## Restarts -/

/-- What is reported of a session. -/
inductive Outcome where
  | completed
  | failed
deriving DecidableEq

/-- What a step reports of the peer held: a call of `OK`, or a failure, which lets the peer go without one. -/
def Loader.outcome {byName : Peer → Peer → Bool} (gw : Gowaves) (l : Loader) (e : LoaderEvent byName) (l' : Loader) :
    Option (Addr × Outcome) :=
  (l.passes gw e).bind fun (env, pl, ev) =>
    match l.okCalled env pl ev with
    | _ :: _ => some (pl.peer, .completed)
    | [] => if l'.pl.isNone then some (pl.peer, .failed) else none

/-- What a step reports of one peer. -/
def reported {byName : Peer → Peer → Bool} (gw : Gowaves) (a : Addr) (x : Link Loader (LoaderEvent byName)) :
    Option Outcome :=
  (x.pre.outcome gw x.input x.post).bind fun o => if o.1 = a then some o.2 else none

def outcomes {byName : Peer → Peer → Bool} (gw : Gowaves) (a : Addr) (tr : List (Link Loader (LoaderEvent byName))) :
    List Outcome := tr.filterMap (reported gw a)

/-- The failures at the end of what is reported. -/
def failuresInRow (h : List Outcome) : Nat := (h.reverse.takeWhile (· = .failed)).length

/-- After every ten failures in a row. -/
def Restarts (n : Nat) : Prop := 0 < n ∧ n % restartThreshold = 0

instance (n : Nat) : Decidable (Restarts n) := inferInstanceAs (Decidable (_ ∧ _))

/-- The counter after `n` failures in a row, while there is no session. -/
def countAfter (n : Nat) : Nat := if n = 0 then 0 else (n - 1) % restartThreshold + 1

theorem failuresInRow_failed (h : List Outcome) : failuresInRow (h ++ [.failed]) = failuresInRow h + 1 := by
  unfold failuresInRow
  simp

theorem failuresInRow_completed (h : List Outcome) : failuresInRow (h ++ [.completed]) = 0 := by
  unfold failuresInRow
  simp

theorem restarts_iff (n : Nat) : restartThreshold ≤ countAfter n ↔ Restarts n := by
  unfold Restarts countAfter restartThreshold
  split <;> omega

theorem countAfter_opened (n : Nat) :
    (if restartThreshold ≤ countAfter n then 0 else countAfter n) = n % restartThreshold := by
  unfold countAfter restartThreshold
  split <;> split <;> omega

theorem countAfter_succ (n : Nat) : countAfter (n + 1) = n % restartThreshold + 1 := by
  simp [countAfter]

theorem FailureCounter.count_inc (fc : FailureCounter) (a b : Addr) :
    (fc.inc a).count b = if b = a then fc.count a + 1 else fc.count b := by
  unfold FailureCounter.inc FailureCounter.count
  rw [Go.getD_insert_eq]

theorem FailureCounter.count_reset (fc : FailureCounter) (a b : Addr) :
    (fc.reset a).count b = if b = a then 0 else fc.count b := by
  unfold FailureCounter.reset FailureCounter.count
  rw [Go.getD_insert_eq]

/-! ### One step -/

theorem reportOK_count {peer : Addr} {hp : Linkage} {r r' : Report} {again : Bool} (hheld : r.held = true)
    (h : reportOK .idle peer hp r = .ok (r', again)) : r'.fc = r.fc.reset peer := by
  unfold reportOK at h
  simp only [hheld, decide_true, Bool.and_self, if_true] at h
  split at h
  · cases h
  · cases h; rfl
  · split at h
    · cases h
    · cases h; rfl
    · split at h
      · cases h
      · split at h <;> cases h <;> rfl

section
variable {env : Env} {l l' : Loader} {pl : Held} {e : Event} {err : Option (Go.Err Sentinel)}

/-- **What an event does to the counter**: nothing while the session goes on, a reset when `OK` is called, and one more
when the peer is let go without. -/
inductive Counts (l : Loader) (pl : Held) (l' : Loader) : List OKCall → Prop where
  | goesOn (pl' : Held) : l'.pl = some pl' → pl'.peer = pl.peer → l'.fc = l.fc → Counts l pl l' []
  | completes (c : OKCall) : (∀ pl', l'.pl = some pl' → pl'.peer = pl.peer) → l'.fc = l.fc.reset pl.peer →
      Counts l pl l' [c]
  | fails : l'.pl = none → l'.fc = l.fc.inc pl.peer → Counts l pl l' []

theorem counts_same {x : Settled (Report × List OKCall)} (hpeer : x.world.peer = pl.peer)
    (hr : x.world.r = ((l.view pl).r, [])) :
    Counts l pl (Loader.keep (x.map (PeerLoader.mapReport Prod.fst))) x.world.r.2 := by
  have hpl : (Loader.keep (x.map (PeerLoader.mapReport Prod.fst))).pl =
      some ⟨x.control, x.world.peer, x.world.timestamp, x.world.queue, x.world.sent⟩ := by
    show (if x.world.r.1.held = true then _ else none) = _
    rw [hr]
    rfl
  rw [congrArg Prod.snd hr]
  exact .goesOn _ hpl hpeer (congrArg (fun r => r.1.fc) hr)

theorem Finished.counts {s : PeerLoader (Report × List OKCall)} {x : Settled (Report × List OKCall)}
    (h : Finished env reporter.logged s x) (hpeer : s.peer = pl.peer) (hr : s.r = ((l.view pl).r, [])) :
    Counts l pl (Loader.keep (x.map (PeerLoader.mapReport Prod.fst))) x.world.r.2 := by
  have hkept : ∀ pl', (Loader.keep (x.map (PeerLoader.mapReport Prod.fst))).pl = some pl' → pl'.peer = x.world.peer :=
    fun pl' hpl' => (keep_held hpl').2
  cases h with
  | stopped r hok =>
    rw [hr] at hok
    obtain ⟨rep, hrep, rfl⟩ := logged_eq_ok hok
    exact .completes _ (fun pl' hpl' => (hkept pl' hpl').trans hpeer) (hpeer ▸ reportOK_count rfl hrep)
  | again r d hok hd =>
    rw [hr] at hok
    obtain ⟨rep, hrep, rfl⟩ := logged_eq_ok hok
    obtain ⟨hdpeer, -, hdr⟩ := requestIDsFrom_world hd
    have hcount : d.world.r.1.fc = l.fc.reset pl.peer := by
      rw [hdr, ← hpeer]
      exact reportOK_count rfl hrep
    show Counts l pl _ d.world.r.2
    rw [congrArg Prod.snd hdr]
    exact .completes _ (fun pl' hpl' => (hkept pl' hpl').trans (hdpeer.trans hpeer)) hcount

theorem fire_counts (hpend : pl.control.pending = []) (hext : e.External) (h : l.fire env pl e = .ok (l', err)) :
    Counts l pl l' (l.okCalled env pl e) := by
  obtain ⟨x, hx, hcalled, rfl⟩ := fire_logged hpend hext h
  rw [hcalled]
  generalize hs : (l.view pl).mapReport (·, ([] : List OKCall)) = s at hx
  generalize pl.control.state = st at hx
  cases hx with
  | started s d hd | restarted s d hd =>
    subst hs
    obtain ⟨hpeer, -, hr⟩ := requestIDsFrom_world hd
    exact counts_same hpeer hr
  | known ids s hp r hskip hfin =>
    subst hs
    exact hfin.counts rfl rfl
  | loaded b s hp r hready hput hfin =>
    subst hs
    exact hfin.counts rfl rfl
  | gaveUp st tm s hp hw hto hput =>
    subst hs
    exact .fails rfl rfl
  | _ =>
    subst hs
    exact counts_same rfl rfl

theorem keep_waits {d : Done Report} (hr : d.world.r.held = true) :
    (Loader.keep (settled .waitingForIDs d.world d.err)).pl =
      some ⟨⟨.waitingForIDs, []⟩, d.world.peer, d.world.timestamp, d.world.queue, d.world.sent⟩ := if_pos hr

/-- A session that waits for IDs is not started again. -/
theorem fire_waiting (hcontrol : pl.control = ⟨.waitingForIDs, []⟩) (hpl : l.pl = some pl)
    (h : l.fire env pl .start = .ok (l', err)) : l' = l := by
  obtain ⟨r, hr, rfl⟩ := fire_fires (e := .start) (by rw [hcontrol]) trivial h
  rw [hcontrol] at hr
  cases hr with
  | ignored =>
    obtain ⟨lpl, prevDiff, fc, registry, linkage⟩ := l
    obtain ⟨control, peer, timestamp, queue, sent⟩ := pl
    cases hpl
    cases hcontrol
    rfl

/-- The loader of a peer that `sync` has made. -/
def opened (l : Loader) (p : Addr) : Loader := { l with pl := some ⟨⟨.idle, []⟩, p, none, [], []⟩ }

/-- **How `sync` opens a session**: with the IDs from the leash of the peer, or after too many failures with those from
the last common block, and then the counter starts again. -/
inductive Opens (env : Env) (l : Loader) (p : Addr) : Loader → Prop where
  | fromLeash (d : Done Report) : l.fc.count p < restartThreshold →
      ((opened l p).view ⟨⟨.idle, []⟩, p, none, [], []⟩).requestIDs env = .ok d →
      Opens env l p (Loader.keep (settled .waitingForIDs d.world d.err))
  | fromLCB (d : Done Report) : restartThreshold ≤ l.fc.count p →
      (Loader.view { opened l p with fc := l.fc.reset p } ⟨⟨.idle, []⟩, p, none, [], []⟩).requestIDsFromLCA env =
        .ok d →
      Opens env l p (Loader.keep (settled .waitingForIDs d.world d.err))

theorem sync_opens {byName : Peer → Peer → Bool} {conns : Go.MapRange Addr Conn} {srt : Go.UnstableSort Peer byName}
    {pick : Nat} (h4 : Peers.OnlyIPv4 l.registry) (h : l.sync env conns srt pick = .ok l') :
    l' = l ∨ l.pl = none ∧ ∃ p, p.is4 = true ∧ Opens env l p l' := by
  unfold Loader.sync at h
  split at h
  · cases h
    exact .inl rfl
  · rename_i hnone
    split at h
    · cases h
    · cases h
      exact .inl rfl
    · rename_i connections hconns
      obtain ⟨ps, hps, h⟩ := Go.bind_eq_ok.1 h
      split at h
      · cases h
        exact .inl rfl
      · rename_i p hp
        obtain ⟨l2, h2, hnext⟩ := Go.bind_eq_ok.1 h
        obtain ⟨hmem, hscore⟩ := mem_of_lagging hps p (List.mem_of_getElem? hp)
        obtain ⟨a, c, sp, hc, hsp, rfl⟩ := Peers.mem_of_listConnections hconns hmem
        have haddr : sp.addr = a := (Peers.Storage.addr_of_peer hsp).resolve_right fun hz => hscore (by rw [hz]; rfl)
        refine .inr ⟨hnone, sp.addr, by rw [haddr]; exact h4 a (by rw [hc]; simp), ?_⟩
        obtain ⟨pl, err, hpl, hfire⟩ := continueSync_fires hnext
        split at h2
        · rename_i hcount
          obtain ⟨pl1, err1, hpl1, hfire1⟩ := restartSync_fires h2
          cases hpl1
          obtain ⟨r, hr, rfl⟩ := fire_fires (e := .restart) rfl trivial hfire1
          cases hr with
          | restarted s d hd =>
            have hwaits := keep_waits (d := d) (congrArg Report.held (requestIDsFrom_world hd).2.2)
            rw [hwaits] at hpl
            cases hpl
            rw [fire_waiting rfl hwaits hfire]
            exact .fromLCB d hcount hd
          | ignored _ _ _ hi => cases hi
        · rename_i hcount
          cases h2
          cases hpl
          obtain ⟨r, hr, rfl⟩ := fire_fires (e := .start) rfl trivial hfire
          cases hr with
          | started s d hd => exact .fromLeash d (Nat.lt_of_not_le hcount) hd
          | ignored _ _ _ hi => cases hi

end

section
variable {byName : Peer → Peer → Bool} {gw : Gowaves} {cmpMinor : Version → Version → Int} {l l' : Loader}

/-- An event that `sync` does not handle goes to the loader of the peer, or leaves it and the counter alone. -/
theorem step_fires {e : LoaderEvent byName} (h : LoaderStep gw cmpMinor l e l') :
    (∃ env pl ev err, l.passes gw e = some (env, pl, ev) ∧ l.pl = some pl ∧ ev.External ∧
      l.fire env pl ev = .ok (l', err)) ∨
    l.passes gw e = none ∧ ((l'.pl = l.pl ∧ l'.fc = l.fc) ∨
      ∃ now rng conns srt pick, e = .sync now rng conns srt pick) := by
  cases e with
  | sync now rng conns srt pick => exact .inr ⟨rfl, .inr ⟨now, rng, conns, srt, pick, rfl⟩⟩
  | tick now =>
    rcases tick_fires h with ⟨hpl, rfl⟩ | ⟨pl, err, hpl, hr⟩
    · exact .inr ⟨by simp [Loader.passes, hpl], .inl ⟨rfl, rfl⟩⟩
    · exact .inl ⟨.at gw now, pl, .tick now, err, by simp [Loader.passes, hpl], hpl, trivial, hr⟩
  | ids now peer ids =>
    change l.handleIDs (.at gw now) peer ids = .ok l' at h
    unfold Loader.handleIDs at h
    split at h
    · rename_i hpl
      cases h
      exact .inr ⟨by simp [Loader.passes, hpl], .inl ⟨rfl, rfl⟩⟩
    · rename_i pl hpl
      split at h
      · rename_i hids
        cases h
        exact .inr ⟨by simp [Loader.passes, hpl, hids], .inl ⟨rfl, rfl⟩⟩
      · rename_i hids
        split at h
        · rename_i hpeer
          cases h
          exact .inr ⟨by simp [Loader.passes, hpl, hpeer], .inl ⟨rfl, rfl⟩⟩
        · rename_i hpeer
          obtain ⟨r, hr, h⟩ := Go.bind_eq_ok.1 h
          cases h
          exact .inl ⟨.at gw now, pl, .ids ids, r.2, by simp [Loader.passes, hpl, hids, hpeer], hpl, trivial, hr⟩
  | block now peer block =>
    change l.handleBlock (.at gw now) peer block = .ok l' at h
    unfold Loader.handleBlock at h
    split at h
    · rename_i hpl
      cases h
      exact .inr ⟨by simp [Loader.passes, hpl], .inl ⟨rfl, rfl⟩⟩
    · rename_i pl hpl
      split at h
      · rename_i hpeer
        cases h
        exact .inr ⟨by simp [Loader.passes, hpl, hpeer], .inl ⟨rfl, rfl⟩⟩
      · rename_i hpeer
        obtain ⟨r, hr, h⟩ := Go.bind_eq_ok.1 h
        cases h
        exact .inl ⟨.at gw now, pl, .block block, r.2, by simp [Loader.passes, hpl, hpeer], hpl, trivial, hr⟩
  | linkage c =>
    obtain ⟨hp, -, h⟩ := Go.bind_eq_ok.1 h
    cases h
    exact .inr ⟨rfl, .inl ⟨rfl, rfl⟩⟩
  | registry op =>
    obtain ⟨registry, -, h⟩ := Go.bind_eq_ok.1 h
    cases h
    exact .inr ⟨rfl, .inl ⟨rfl, rfl⟩⟩

/-- **The counter of every peer** follows its failures in a row. -/
structure Loader.Counted (l : Loader) (a : Addr) (n : Nat) : Prop where
  held : l.pl.map Held.peer = some a → l.fc.count a = n % restartThreshold
  free : l.pl.map Held.peer ≠ some a → l.fc.count a = countAfter n

theorem Loader.Counted.same {a : Addr} {n : Nat} (hc : l.Counted a n) (hpl : l'.pl.map Held.peer = l.pl.map Held.peer)
    (hfc : l'.fc = l.fc) : l'.Counted a n where
  held h := by rw [hfc]; exact hc.held (hpl ▸ h)
  free h := by rw [hfc]; exact hc.free (hpl ▸ h)

theorem Counts.counted {pl : Held} {cs : List OKCall} {a : Addr} {h : List Outcome} (hpl : l.pl = some pl)
    (hcs : Counts l pl l' cs) (hc : l.Counted a (failuresInRow h)) :
    l'.Counted a (failuresInRow (h ++ ((match cs with
      | _ :: _ => some (pl.peer, Outcome.completed)
      | [] => if l'.pl.isNone then some (pl.peer, Outcome.failed) else none).bind fun o =>
        if o.1 = a then some o.2 else none).toList)) := by
  have hheld : l.pl.map Held.peer = some pl.peer := by rw [hpl]; rfl
  cases hcs with
  | goesOn pl' hpl' hpeer hfc =>
    have hnone : l'.pl.isNone = false := by rw [hpl']; rfl
    rw [hnone]
    refine (List.append_nil h).symm ▸ hc.same ?_ hfc
    rw [hpl', hpl, Option.map_some, Option.map_some, hpeer]
  | completes c hkept hfc =>
    by_cases ha : pl.peer = a
    · have hzero : l'.fc.count a = 0 := by rw [hfc, FailureCounter.count_reset, if_pos ha.symm]
      simp only [Option.bind_some, if_pos ha, Option.toList_some, failuresInRow_completed]
      exact ⟨fun _ => hzero, fun _ => hzero⟩
    · have hsame : l'.fc.count a = l.fc.count a := by rw [hfc, FailureCounter.count_reset, if_neg (Ne.symm ha)]
      have hfree : l'.pl.map Held.peer ≠ some a := fun h => by
        obtain ⟨pl', hpl', he⟩ := Option.map_eq_some_iff.1 h
        exact ha ((hkept pl' hpl').symm.trans he)
      simp only [Option.bind_some, if_neg ha, Option.toList_none, List.append_nil]
      refine ⟨fun h => absurd h hfree, fun _ => hsame.trans (hc.free ?_)⟩
      rw [hheld]
      exact fun h => ha (Option.some.inj h)
  | fails hnone hfc =>
    have hisNone : l'.pl.isNone = true := by rw [hnone]; rfl
    rw [hisNone]
    have hfree : l'.pl.map Held.peer ≠ some a := by rw [hnone]; exact fun h => nomatch h
    refine ⟨fun h => absurd h hfree, fun _ => ?_⟩
    by_cases ha : pl.peer = a
    · simp only [if_true, Option.bind_some, if_pos ha, Option.toList_some, failuresInRow_failed]
      rw [countAfter_succ, hfc, FailureCounter.count_inc, if_pos ha.symm, ha, hc.held (by rw [hheld, ha])]
    · simp only [if_true, Option.bind_some, if_neg ha, Option.toList_none, List.append_nil]
      rw [hfc, FailureCounter.count_inc, if_neg (Ne.symm ha)]
      refine hc.free ?_
      rw [hheld]
      exact fun h => ha (Option.some.inj h)

theorem Opens.counted {env : Env} {p a : Addr} {n : Nat} (hopens : Opens env l p l') (hnone : l.pl = none)
    (hc : l.Counted a n) : l'.Counted a n := by
  have hfree : l.fc.count a = countAfter n := hc.free (by rw [hnone]; exact fun h => nomatch h)
  have hboth : l'.pl.map Held.peer = some p ∧
      l'.fc = if restartThreshold ≤ l.fc.count p then l.fc.reset p else l.fc := by
    cases hopens with
    | fromLeash d hcount hd =>
      obtain ⟨hpeer, -, hr⟩ := requestIDsFrom_world hd
      rw [keep_waits (congrArg Report.held hr), if_neg (Nat.not_le_of_lt hcount)]
      exact ⟨congrArg some hpeer, congrArg Report.fc hr⟩
    | fromLCB d hcount hd =>
      obtain ⟨hpeer, -, hr⟩ := requestIDsFrom_world hd
      rw [keep_waits (congrArg Report.held hr), if_pos hcount]
      exact ⟨congrArg some hpeer, congrArg Report.fc hr⟩
  obtain ⟨hheld, hfc⟩ := hboth
  refine ⟨fun h => ?_, fun h => ?_⟩
  · obtain rfl : p = a := Option.some.inj (hheld.symm.trans h)
    rw [hfc, ← countAfter_opened, ← hfree]
    split
    · rw [FailureCounter.count_reset, if_pos rfl]
    · rfl
  · have hne : a ≠ p := fun ha => h (by rw [hheld, ha])
    rw [← hfree, hfc]
    split
    · rw [FailureCounter.count_reset, if_neg hne]
    · rfl

theorem step_counted {e : LoaderEvent byName} {a : Addr} {h : List Outcome} (hscores : l.Scores)
    (hs : LoaderStep gw cmpMinor l e l') (hc : l.Counted a (failuresInRow h)) :
    l'.Counted a (failuresInRow (h ++ (reported gw a ⟨l, e, l'⟩).toList)) := by
  unfold reported Loader.outcome
  simp only
  rcases step_fires hs with ⟨env, pl, ev, err, hpasses, hpl, hext, hfire⟩ | ⟨hpasses, hrest⟩
  · rw [hpasses]
    exact (fire_counts (hscores.held pl hpl).1 hext hfire).counted hpl hc
  · rw [hpasses]
    simp only [Option.bind_none, Option.toList_none, List.append_nil]
    rcases hrest with ⟨hpl, hfc⟩ | ⟨now, rng, conns, srt, pick, rfl⟩
    · exact hc.same (by rw [hpl]) hfc
    · rcases sync_opens hscores.onlyIPv4 hs with rfl | ⟨hnone, p, -, hopens⟩
      · exact hc
      · exact hopens.counted hnone hc

theorem outcomes_concat (a : Addr) (tr : List (Link Loader (LoaderEvent byName)))
    (x : Link Loader (LoaderEvent byName)) :
    outcomes gw a (tr ++ [x]) = outcomes gw a tr ++ (reported gw a x).toList := by
  unfold outcomes
  rw [List.filterMap_append, List.filterMap_cons]
  cases reported gw a x <;> rfl

/-- The first list of a session is sent when the reads before it do not fail. -/
theorem sent_of_noError {env : Env} {s : PeerLoader Report} {block : Res BlockID} {d : Done Report}
    {t : BlockTree BlockID} {scheme : Proto.Scheme} {genesis : Proto.Block} (ht : Reachable gw scheme genesis s.hp t)
    (hno : Go.NoError block) (hstored : ∀ k, block = .ok k → t.Stored k) (h : s.requestIDsFrom env block = .ok d) :
    ∃ k ids, block = .ok k ∧ s.hp.lastIDs k idsBatchSize = .ok ids ∧ d.world.sent = s.sent ++ [.blockIDs ids] := by
  have hread : Go.NoError (do
      let id ← block
      s.hp.lastIDs id idsBatchSize) := hno.bind fun k hk => ht.mirrors.lastIDs_noError (hstored k hk) _
  obtain ⟨r, hr, h⟩ := Go.bind_eq_ok.1 h
  cases r with
  | error e => exact absurd (Go.attempt_eq_error.1 hr) (hread e)
  | ok ids =>
    cases h
    obtain ⟨k, hk, hids⟩ := Go.bind_eq_ok.1 (Go.attempt_eq_ok.1 hr)
    exact ⟨k, ids, hk, hids, rfl⟩

end

/-- **Where a session starts**, in every run: `sync` asks its peer for what comes after the last common block when the
failures of the peer since `OK` was last called for it are a positive multiple of ten, and after its leash otherwise. -/
theorem run_restarts {byName : Peer → Peer → Bool} {gw : Gowaves} (hgw : gw.RoundTrips)
    {cmpMinor : Version → Version → Int} {scheme : Proto.Scheme} {genesis : Proto.Block} {t : BlockTree BlockID}
    {registry : Registry} {linkage : Linkage} {tr : List (Link Loader (LoaderEvent byName))} {l l' : Loader}
    (hl : Reachable gw scheme genesis linkage t) (hr : Peers.Reachable cmpMinor registry)
    (h : Path (LoaderStep gw cmpMinor) (newLoader registry linkage) tr l) {now : Int}
    {rng : Go.MapRange BlockID (List Addr)} {conns : Go.MapRange Addr Conn} {srt : Go.UnstableSort Peer byName}
    {pick : Nat} (hs : LoaderStep gw cmpMinor l (.sync now rng conns srt pick) l') (hnone : l.pl = none) {pl : Held}
    (hpl : l'.pl = some pl) :
    ∃ k ids, (if Restarts (failuresInRow (outcomes gw pl.peer tr)) then l.linkage.lcb gw rng pl.peer
        else l.linkage.leash pl.peer) = .ok k ∧
      l.linkage.lastIDs k idsBatchSize = .ok ids ∧ pl.sent = [.blockIDs ids] := by
  obtain ⟨ha, hcounted⟩ : l.Asks gw scheme genesis ∧ ∀ a, l.Counted a (failuresInRow (outcomes gw a tr)) := by
    refine Path.history (P := fun tr l => Loader.Asks gw scheme genesis l ∧
      ∀ a, l.Counted a (failuresInRow (outcomes gw a tr))) (fun tr l e l' hinv hs => ?_)
      ⟨⟨⟨hr.onlyIPv4, fun pl hpl => by cases hpl⟩, ⟨t, hl⟩, fun pl hpl => by cases hpl⟩, fun a => ?_⟩ h
    · refine ⟨step_asks hs hinv.1, fun a => ?_⟩
      rw [outcomes_concat]
      exact step_counted hinv.1.scores hs (hinv.2 a)
    · have hzero : (newLoader registry linkage).fc.count a = 0 := Std.ExtTreeMap.getD_empty
      exact ⟨fun _ => hzero, fun _ => hzero⟩
  obtain ⟨t', ht'⟩ := ha.linkage
  rcases sync_opens ha.scores.onlyIPv4 hs with rfl | ⟨-, p, h4, hopens⟩
  · rw [hnone] at hpl
    cases hpl
  have hcount : l.fc.count p = _ := (hcounted p).free (by rw [hnone]; exact fun h => nomatch h)
  cases hopens with
  | fromLeash d hlow hd =>
    obtain ⟨hpeer, -, hdr⟩ : d.world.peer = p ∧ _ ∧ _ := requestIDsFrom_world hd
    obtain ⟨k, hk, hstored⟩ := ht'.mirrors.leash_stored p
    obtain ⟨k', ids, hk', hids, hsent⟩ := sent_of_noError ht' (.of_ok hk)
      (fun k' hk' => Except.ok.inj (hk.symm.trans hk') ▸ hstored) hd
    rw [keep_waits (congrArg Report.held hdr)] at hpl
    cases hpl
    refine ⟨k', ids, ?_, hids, hsent⟩
    show (if Restarts (failuresInRow (outcomes gw d.world.peer tr)) then _ else _) = _
    have hno : ¬ Restarts (failuresInRow (outcomes gw p tr)) := fun hre => by
      have hge := (restarts_iff _).2 hre
      omega
    rw [hpeer, if_neg hno]
    exact hk'
  | fromLCB d hhigh hd =>
    obtain ⟨hpeer, -, hdr⟩ : d.world.peer = p ∧ _ ∧ _ := requestIDsFrom_world hd
    have hno : Go.NoError (l.linkage.lcb gw rng p) := ht'.mirrors.lcb_noError hgw rng p fun k hk hls =>
      List.not_mem_nil (Chains.mem_leashes_of_is4 hls h4 hk)
    obtain ⟨k, ids, hk, hids, hsent⟩ := sent_of_noError ht' hno
      (fun k hk => ht'.mirrors.lcb_stored h4 hk) hd
    rw [keep_waits (congrArg Report.held hdr)] at hpl
    cases hpl
    refine ⟨k, ids, ?_, hids, hsent⟩
    show (if Restarts (failuresInRow (outcomes gw d.world.peer tr)) then _ else _) = _
    rw [hpeer, if_pos ((restarts_iff _).1 (hcount ▸ hhigh))]
    exact hk

namespace Sample

/-- A peer whose leash is on a fork fails `n` sessions. -/
def failing (n : Nat) : List (LoaderEvent anyName) :=
  connect ++ [.linkage (Chains.Sample.key 2 1), .linkage (Chains.Sample.key 3 2),
    .linkage (.putBlock (Chains.Sample.block 4 1) Peers.Sample.addr)] ++ (List.replicate n [choose, ticked]).flatten

end Sample

/-- The eleventh session starts from the genesis block, the last one that the fork has in common. -/
theorem run_restarts_sample : ∃ (hp : Linkage) (l l' : Loader) (tr : List (Link Loader (LoaderEvent Sample.anyName)))
    (pl : Held), Chains.Sample.after [] = .ok hp ∧
    Path (LoaderStep Chains.Sample.gowaves Peers.Sample.cmpMinor) (newLoader Peers.Sample.registry hp) tr l ∧
    LoaderStep Chains.Sample.gowaves Peers.Sample.cmpMinor l Sample.choose l' ∧ l'.pl = some pl ∧
    failuresInRow (outcomes Chains.Sample.gowaves pl.peer tr) = 10 ∧ pl.sent = [.blockIDs [Chains.Sample.id 1]] ∧
    ∃ k ids, l.linkage.lcb Chains.Sample.gowaves (.listed _ _) pl.peer = .ok k ∧
      l.linkage.lastIDs k idsBatchSize = .ok ids ∧ pl.sent = [.blockIDs ids] := by
  obtain ⟨hp, hhp⟩ := Go.exists_of_isOk (x := Chains.Sample.after []) (by decide +kernel)
  obtain ⟨l, h⟩ := Sample.exists_load (Sample.failing 10) hhp (by decide +kernel)
  obtain ⟨l', h'⟩ := Sample.exists_load (Sample.failing 10 ++ [Sample.choose]) hhp (by decide +kernel)
  obtain ⟨htr, -⟩ := Path.of_links h
  have hstep := Path.step_of_foldlM h h'
  have hnone : l.pl.isNone = true := Sample.load_reads (fun l => l.pl.isNone) hhp h (by decide +kernel)
  have hsent : l'.pl.map (fun pl => (pl.peer, pl.sent)) = some (Peers.Sample.addr, [.blockIDs [Chains.Sample.id 1]]) :=
    Sample.load_reads (fun l => l.pl.map fun pl => (pl.peer, pl.sent)) hhp h' (by decide +kernel)
  obtain ⟨pl, hpl, hsent⟩ := Option.map_eq_some_iff.1 hsent
  obtain ⟨hpeer, hsent⟩ := Prod.mk.inj hsent
  have hfailures : (Chains.Sample.after [] >>= fun hp => .ok (failuresInRow (outcomes Chains.Sample.gowaves
      Peers.Sample.addr (Run.links (Loader.apply Chains.Sample.gowaves Peers.Sample.cmpMinor)
        (newLoader Peers.Sample.registry hp) (Sample.failing 10)))) : Res Nat) = .ok 10 := by decide +kernel
  rw [hhp] at hfailures
  have hten := hpeer.symm ▸ Except.ok.inj hfailures
  refine ⟨hp, l, l', _, pl, hhp, htr, hstep, hpl, hten, hsent, ?_⟩
  have hread := run_restarts Chains.Sample.gowaves_roundTrips (Chains.Sample.reachable hhp) Sample.registry_reachable
    htr hstep (Option.isNone_iff_eq_none.1 hnone) hpl
  rw [hten] at hread
  exact hread

end Loading
end ForkDetector
