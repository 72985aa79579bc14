import Mathlib.Logic.Relation
import ForkDetector.Chains.Ranges
import ForkDetector.Loading.Calls
import ForkDetector.Loading.Wedge
import ForkDetector.Peers.Reachable
/-!
# Among — the loader among the calls of others

Every call on the linkage or the registry is a step of its own here, of the loader or of another component.  An event
that no other call falls into is the event in one step (`step_iff_undisturbed`), so that the results on runs of whole
events are about such runs.  Whatever falls in between, the loader makes none but the calls that any component makes: a
block that `HasBlock` has found is still there when the leash is moved to it (`handle_heedful`).
-/
namespace ForkDetector
namespace Loading

open Proto (BlockID Gowaves Version)
open Chains (Linkage Reachable)
open Peers (Registry Peer)
open Client (Site Act Upward Holds)
open Run (Path Link)
open Machine (Control)

/-! ## The system -/

inductive Other where
  | linkage (c : Chains.Call)
  | registry (op : Peers.Op)

/-- A call of another component. -/
inductive Called (gw : Gowaves) (cmpMinor : Version → Version → Int) : Shared → Other → Shared → Prop where
  | linkage {o : Shared} {c : Chains.Call} {hp : Linkage} : o.linkage.call gw c = .ok hp →
      Called gw cmpMinor o (.linkage c) { o with linkage := hp }
  | registry {o : Shared} {op : Peers.Op} {r : Registry} : o.registry.apply cmpMinor op = .ok r →
      Called gw cmpMinor o (.registry op) { o with registry := r }

abbrev LoaderSite (byName : Peer → Peer → Bool) :=
  Site String (LoaderCall byName) LoaderCall.Answer Shared Own

abbrev LoaderAct (byName : Peer → Peer → Bool) := Act (Selected byName) Other

def AmongStep (gw : Gowaves) (cmpMinor : Version → Version → Int) {byName : Peer → Peer → Bool} :
    LoaderSite byName → LoaderAct byName → LoaderSite byName → Prop :=
  Client.Step (serve gw) (Own.handle gw) (Called gw cmpMinor)

/-- The loader between two events. -/
def Loader.site (byName : Peer → Peer → Bool) (l : Loader) : LoaderSite byName :=
  ⟨⟨l.registry, l.linkage⟩, ⟨l.pl, l.prevDiff, l.fc⟩, none⟩

section
variable {gw : Gowaves} {cmpMinor : Version → Version → Int} {byName : Peer → Peer → Bool} {l l' : Loader}

/-- **An event in one step is an event that no other call falls into.** -/
theorem step_iff_undisturbed {i : Selected byName} : LoaderStep gw cmpMinor l i.event l' ↔ ∃ n tr,
    Path (AmongStep gw cmpMinor) (l.site byName) tr (l'.site byName) ∧
      tr.map Link.input = .begins i :: List.replicate n .calls ++ [.ends] := by
  refine Iff.trans ?_ (Client.undisturbed_iff .panic)
  have happly := apply_alone gw cmpMinor ⟨l.pl, l.prevDiff, l.fc⟩ ⟨l.registry, l.linkage⟩ i
  change l.apply gw cmpMinor i.event = _ at happly
  unfold LoaderStep
  rw [happly]
  unfold Own.after
  cases Client.alone .panic (serve gw) (Own.handle gw i ⟨l.pl, l.prevDiff, l.fc⟩) ⟨l.registry, l.linkage⟩ with
  | error g => exact iff_of_false (fun h => nomatch h) fun h => nomatch h
  | ok r =>
    refine ⟨fun h => ?_, fun h => ?_⟩
    · cases h
      rfl
    · cases h
      rfl

/-- **A run of whole events is a run among others**, the calls of others as they are. -/
theorem run_among_of_run {tr : List (Link Loader (LoaderEvent byName))} (h : Path (LoaderStep gw cmpMinor) l tr l') :
    ∃ tr', Path (AmongStep gw cmpMinor) (l.site byName) tr' (l'.site byName) := by
  induction h with
  | nil l => exact ⟨[], .nil _⟩
  | @cons l l1 l2 e tr h1 _ ih =>
    obtain ⟨tr', htr'⟩ := ih
    have hevent : ∀ i : Selected byName, e = i.event →
        ∃ tr1, Path (AmongStep gw cmpMinor) (l.site byName) tr1 (l1.site byName) := by
      rintro i rfl
      obtain ⟨n, tr1, htr1, -⟩ := step_iff_undisturbed.1 h1
      exact ⟨tr1, htr1⟩
    have hone : ∃ tr1, Path (AmongStep gw cmpMinor) (l.site byName) tr1 (l1.site byName) := by
      cases e with
      | sync now rng conns srt pick => exact hevent (.sync now rng conns srt pick) rfl
      | tick now => exact hevent (.tick now) rfl
      | ids now peer ids => exact hevent (.ids now peer ids) rfl
      | block now peer block => exact hevent (.block now peer block) rfl
      | linkage c =>
        obtain ⟨hp, hc, h⟩ := Go.bind_eq_ok.1 h1
        cases h
        exact ⟨_, .cons (.other _ none (.linkage hc)) (.nil _)⟩
      | registry op =>
        obtain ⟨r, hr, h⟩ := Go.bind_eq_ok.1 h1
        cases h
        exact ⟨_, .cons (.other _ none (.registry hr)) (.nil _)⟩
    obtain ⟨tr1, htr1⟩ := hone
    exact ⟨_, htr1.append htr'⟩

end

/-! ## The calls that the loader makes -/

/-- What calls of any components can lead to. -/
structure Shared.Onward (gw : Gowaves) (cmpMinor : Version → Version → Int) (o o' : Shared) : Prop where
  linkage : Relation.ReflTransGen (fun hp hp' => ∃ c, hp.call gw c = .ok hp') o.linkage o'.linkage
  registry : Relation.ReflTransGen (fun r r' => ∃ op, r.apply cmpMinor op = .ok r') o.registry o'.registry

section
variable {gw : Gowaves} {cmpMinor : Version → Version → Int} {scheme : Proto.Scheme} {genesis : Proto.Block}
  {o o' o'' : Shared}

theorem Shared.Onward.refl (o : Shared) : o.Onward gw cmpMinor o := ⟨.refl, .refl⟩

theorem Shared.Onward.trans (h : o.Onward gw cmpMinor o') (h' : o'.Onward gw cmpMinor o'') :
    o.Onward gw cmpMinor o'' := ⟨h.linkage.trans h'.linkage, h.registry.trans h'.registry⟩

/-- What every call on the linkage keeps. -/
theorem Shared.Onward.keeps {Q : Linkage → Prop} (h : o.Onward gw cmpMinor o') (hQ : KeptByCalls gw Q)
    (hq : Q o.linkage) : Q o'.linkage := by
  have hlinkage := h.linkage
  generalize o'.linkage = hp' at hlinkage ⊢
  induction hlinkage with
  | refl => exact hq
  | tail _ hc ih =>
    obtain ⟨c, hc⟩ := hc
    exact hQ _ c _ ih hc

theorem Shared.Onward.reachable (h : o.Onward gw cmpMinor o') (hr : Peers.Reachable cmpMinor o.registry) :
    Peers.Reachable cmpMinor o'.registry := by
  have hregistry := h.registry
  generalize o'.registry = r' at hregistry ⊢
  induction hregistry with
  | refl => exact hr
  | tail _ hop ih =>
    obtain ⟨op, hop⟩ := hop
    exact .step ih hop

theorem called_onward {x : Other} (h : Called gw cmpMinor o x o') : o.Onward gw cmpMinor o' := by
  cases h with
  | linkage hc => exact ⟨.single ⟨_, hc⟩, .refl⟩
  | registry hr => exact ⟨.refl, .single ⟨_, hr⟩⟩

/-- A block that is stored stays so. -/
theorem stored_keptByCalls (id : BlockID) : KeptByCalls gw fun hp =>
    ∃ t, Reachable gw scheme genesis hp t ∧ t.Stored id := fun _ c _ ⟨_, ht, hid⟩ hc =>
  ⟨_, ht.call c hc, (ht.kept_call hc).stored hid⟩

theorem Shared.read_eq_ok {α : Type} {x : Res α} {a : Answer α} (h : o.read x = .ok (a, o')) :
    Go.attempt x = .ok a ∧ o' = o := by
  unfold Shared.read at h
  cases hx : Go.attempt x with
  | error g =>
    rw [hx] at h
    cases h
  | ok b =>
    rw [hx] at h
    cases h
    exact ⟨rfl, rfl⟩

/-- What the calls of the loader change. -/
theorem serve_cases {byName : Peer → Peer → Bool} {c : LoaderCall byName} {a : c.Answer}
    (h : serve gw c o = .ok (a, o')) : o' = o ∨ (∃ call hp, o.linkage.call gw call = .ok hp ∧
      o' = { o with linkage := hp }) ∨ ∃ id peer, c = .moveLeash id peer ∧
      o' = { o with linkage := o.linkage.moveLeash id peer } := by
  cases c with
  | moveLeash id peer =>
    cases h
    exact .inr (.inr ⟨id, peer, rfl, rfl⟩)
  | putBlock block peer =>
    change o.put gw block peer = .ok (a, o') at h
    unfold Shared.put at h
    split at h
    · cases h
    · cases h
      exact .inl rfl
    · rename_i hp hput
      cases h
      exact .inr (.inl ⟨.putBlock block peer, hp, hput, rfl⟩)
  | connections | peer | leashScore | hasBlock | leash | lastIDs | lcb => exact .inl (Shared.read_eq_ok h).2

theorem serve_registry {byName : Peer → Peer → Bool} {c : LoaderCall byName} {a : c.Answer}
    (h : serve gw c o = .ok (a, o')) : o'.registry = o.registry := by
  rcases serve_cases h with rfl | ⟨_, _, -, rfl⟩ | ⟨_, _, -, rfl⟩ <;> rfl

/-- A call answers, with an error where it fails, or panics. -/
theorem serve_noError {byName : Peer → Peer → Bool} (c : LoaderCall byName) (o : Shared) :
    Go.NoError (serve gw c o) := by
  have hread : ∀ {α : Type} (x : Res α), Go.NoError (o.read x) := by
    intro α x e h
    unfold Shared.read Go.attempt at h
    split at h <;> cases h
  cases c with
  | moveLeash id peer => exact .of_ok rfl
  | putBlock block peer =>
    intro e h
    change o.put gw block peer = _ at h
    unfold Shared.put at h
    split at h <;> cases h
  | connections | peer | leashScore | hasBlock | leash | lastIDs | lcb => exact hread _

/-- What is left of a client, from any state on with a linkage that calls reach. -/
def Heedful (gw : Gowaves) (cmpMinor : Version → Version → Int) (scheme : Proto.Scheme) (genesis : Proto.Block)
    {byName : Peer → Peer → Bool} {α : Type} (p : Calling byName α) : Prop :=
  ∀ o : Shared, (∃ t, Reachable gw scheme genesis o.linkage t) →
    p.Among (serve gw) (Shared.Onward gw cmpMinor) (fun _ o => ∃ t, Reachable gw scheme genesis o.linkage t) o

theorem upward_reachable {α : Type} : Upward (Shared.Onward gw cmpMinor)
    (fun (_ : α) o => ∃ t, Reachable gw scheme genesis o.linkage t) :=
  ⟨.refl, fun _ _ _ h h' => h.trans h', fun _ _ _ h => h.keeps reachable_keptByCalls⟩

namespace Heedful
variable {byName : Peer → Peer → Bool} {α β : Type}

theorem done (a : α) : Heedful gw cmpMinor scheme genesis (.done a : Calling byName α) := fun _ ht => ht

theorem fault (f : String) : Heedful gw cmpMinor scheme genesis (.fault f : Calling byName α) :=
  fun _ _ => trivial

theorem bind {p : Calling byName α} {f : α → Calling byName β} (hp : Heedful gw cmpMinor scheme genesis p)
    (hf : ∀ a, Heedful gw cmpMinor scheme genesis (f a)) : Heedful gw cmpMinor scheme genesis (p >>= f) :=
  fun o ht => (hp o ht).bind upward_reachable fun a o' _ ht' => hf a o' ht'

theorem invoke {c : LoaderCall byName} (hc : ∀ id peer, c ≠ .moveLeash id peer) :
    Heedful gw cmpMinor scheme genesis (Loading.invoke c) := by
  intro o ht o₁ h₁ a o₂ ha
  have ht₁ := h₁.keeps reachable_keptByCalls ht
  rcases serve_cases ha with rfl | ⟨call, hp, hcall, rfl⟩ | ⟨id, peer, he, -⟩
  · exact ⟨.refl _, ht₁⟩
  · exact ⟨⟨.single ⟨call, hcall⟩, .refl⟩, reachable_keptByCalls _ call hp ht₁ hcall⟩
  · exact absurd he (hc id peer)

theorem ask {c : LoaderCall byName} {f : c.Answer → Calling byName α} (hc : ∀ id peer, c ≠ .moveLeash id peer)
    (hf : ∀ a, Heedful gw cmpMinor scheme genesis (f a)) :
    Heedful gw cmpMinor scheme genesis (Loading.invoke c >>= f) := (invoke hc).bind hf

/-! ## The loader of a peer -/

section
open PeerClient

/-- **The leash is moved to stored blocks only**: what `HasBlock` has found is there for ever. -/
theorem skipKnown (peer : Addr) : ∀ ids : List BlockID,
    Heedful gw cmpMinor scheme genesis (PeerClient.skipKnown peer ids : Calling byName _)
  | [] => done _
  | id :: ids => by
    intro o ht o₁ h₁ a o₂ ha
    have ht₁ := h₁.keeps reachable_keptByCalls ht
    obtain ⟨hhas, rfl⟩ := Shared.read_eq_ok ha
    refine ⟨.refl _, ?_⟩
    match a, hhas with
    | .error e, _ => exact ht₁
    | .ok false, _ => exact ht₁
    | .ok true, hhas =>
      obtain ⟨t, ht₁'⟩ := ht₁
      have hid : t.Stored id := ht₁'.mirrors.refines.hasBlock_iff.1 (Go.attempt_eq_ok.1 hhas)
      intro o₃ h₃ b o₄ hb
      obtain ⟨-, rfl⟩ := Shared.read_eq_ok hb
      refine ⟨.refl _, ?_⟩
      match b with
      | .error e => exact h₃.keeps reachable_keptByCalls ⟨t, ht₁'⟩
      | .ok leash =>
        change Client.Among _ _ _ (if id ≠ leash then _ else _) _
        split
        · intro o₅ h₅ _ o₆ hmove
          cases hmove
          obtain ⟨t', ht', hid'⟩ := (h₃.trans h₅).keeps (stored_keptByCalls id) ⟨t, ht₁', hid⟩
          have hcall : o₅.linkage.call gw (.moveLeash id peer) = .ok (o₅.linkage.moveLeash id peer) :=
            Go.bind_eq_ok.2 ⟨true, ht'.mirrors.refines.hasBlock_iff.2 hid', rfl⟩
          exact ⟨⟨.single ⟨_, hcall⟩, .refl⟩, skipKnown peer ids _ ⟨_, ht'.call _ hcall⟩⟩
        · exact skipKnown peer ids _ (h₃.keeps reachable_keptByCalls ⟨t, ht₁'⟩)

theorem putBlocks (peer : Addr) : ∀ bs : List Proto.Block,
    Heedful gw cmpMinor scheme genesis (PeerClient.putBlocks peer bs : Calling byName _)
  | [] => done _
  | b :: bs => by
    refine ask (fun _ _ h => nomatch h) fun a => ?_
    match a with
    | .error e => exact done _
    | .ok () => exact putBlocks peer bs

variable {ρ : Type} {env : Env} {rep : ClientReporter byName ρ}

theorem requestIDsFrom (s : PeerClient ρ) {block : Calling byName (Answer BlockID)}
    (hblock : Heedful gw cmpMinor scheme genesis block) :
    Heedful gw cmpMinor scheme genesis (s.requestIDsFrom env block) := by
  refine hblock.bind fun a => ?_
  match a with
  | .error e => exact done _
  | .ok id =>
    refine ask (fun _ _ h => nomatch h) fun b => ?_
    match b with
    | .error e => exact done _
    | .ok ids => exact done _

/-- Every action of the loader of a peer is heedful, where its reporter is. -/
theorem perform (hOK : ∀ st peer r, Heedful gw cmpMinor scheme genesis (rep.OK st peer r)) (a : Action) (st : State)
    (e : Event) (s : PeerClient ρ) : Heedful gw cmpMinor scheme genesis (PeerClient.perform env rep a st e s) := by
  cases a with
  | onTick => cases e <;> exact done _
  | requestIDs => exact requestIDsFrom s (invoke fun _ _ h => nomatch h)
  | requestIDsFromLCA => exact requestIDsFrom s (invoke fun _ _ h => nomatch h)
  | requestBlocks =>
    cases e with
    | ids ids =>
      refine (skipKnown s.peer ids).bind fun a => ?_
      match a with
      | .error e => exact done _
      | .ok [] => exact done _
      | .ok (id :: req) => exact done _
    | _ => exact done _
  | appendBlock =>
    cases e with
    | block block =>
      change Heedful gw cmpMinor scheme genesis (if (s.queue.put block).ready = true then _ else _)
      split
      · refine (putBlocks s.peer _).bind fun a => ?_
        cases a <;> exact done _
      · exact done _
    | _ => exact done _
  | handleFailure =>
    refine (putBlocks s.peer _).bind fun a => ?_
    cases a <;> exact done _
  | reportOK => exact (hOK st s.peer s.r).bind fun a => done _

theorem fire (hOK : ∀ st peer r, Heedful gw cmpMinor scheme genesis (rep.OK st peer r)) (m : Control State Event)
    (e : Event) (s : PeerClient ρ) {o : Shared} (ht : ∃ t, Reachable gw scheme genesis o.linkage t) :
    (PeerClient.fire env rep m e s).Among (serve gw) (Shared.Onward gw cmpMinor)
      (fun r o => ∀ x, r = some x → ∃ t, Reachable gw scheme genesis o.linkage t) o :=
  Client.drain_among upward_reachable (fun a st e s o ht => perform hOK a st e s o ht) 3 _ ht

end

/-! ## The loader -/

theorem clientOK (st : State) (peer : Addr) (l : OwnReport) :
    Heedful gw cmpMinor scheme genesis (Loading.clientOK st peer l : Calling byName _) := by
  unfold Loading.clientOK
  split
  · refine ask (fun _ _ h => nomatch h) fun a => ?_
    match a with
    | .error e => exact done _
    | .ok p =>
      refine ask (fun _ _ h => nomatch h) fun b => ?_
      match b with
      | .error e => exact done _
      | .ok score =>
        dsimp only
        split
        · exact fault _
        · split <;> exact done _
  · exact done _

variable {env : Env} (l : Own)

theorem ownFire (pl : Held) (e : Event) : Heedful gw cmpMinor scheme genesis (l.fire env pl e : Calling byName _) :=
  fun o ht => (fire clientOK pl.control e (l.view pl) ht).bind
    ⟨.refl, fun _ _ _ h h' => h.trans h', fun _ _ _ h hr x hx => h.keeps reachable_keptByCalls (hr x hx)⟩
    fun r o' _ hr => by
      cases r with
      | none => trivial
      | some x => exact hr x rfl

theorem warn (r : Own × Option (Go.Err Sentinel)) :
    Heedful gw cmpMinor scheme genesis (Own.warn r : Calling byName _) := by
  unfold Own.warn
  split
  · exact done _
  · split
    · exact fault _
    · exact done _

theorem continueSync : Heedful gw cmpMinor scheme genesis (l.continueSync env : Calling byName _) := by
  unfold Own.continueSync
  split
  · exact fault _
  · exact (ownFire l _ .start).bind warn

theorem restartSync : Heedful gw cmpMinor scheme genesis (l.restartSync env : Calling byName _) := by
  unfold Own.restartSync
  split
  · exact fault _
  · exact (ownFire _ _ .restart).bind warn

omit l in
theorem lagging : ∀ cps : List Peer, Heedful gw cmpMinor scheme genesis (Own.lagging cps : Calling byName _)
  | [] => done _
  | cp :: cps => by
    unfold Own.lagging
    split
    · exact lagging cps
    · refine ask (fun _ _ h => nomatch h) fun a => ?_
      match a with
      | .error e => exact lagging cps
      | .ok score => exact (lagging cps).bind fun _ => done _

theorem sync (conns : Go.MapRange Addr Proto.Conn) (srt : Go.UnstableSort Peer byName) (pick : Nat) :
    Heedful gw cmpMinor scheme genesis (l.sync env conns srt pick) := by
  unfold Own.sync
  split
  · exact done _
  · refine ask (fun _ _ h => nomatch h) fun a => ?_
    match a with
    | .error e => exact done _
    | .ok connections =>
      refine (lagging connections).bind fun ps => ?_
      dsimp only
      split
      · exact done _
      · refine Heedful.bind ?_ fun l => continueSync l
        split
        · exact restartSync _
        · exact done _

theorem tick : Heedful gw cmpMinor scheme genesis (l.tick env : Calling byName _) := by
  unfold Own.tick
  split
  · exact done _
  · exact (ownFire l _ _).bind warn

theorem handleIDs (peer : Addr) (ids : List BlockID) :
    Heedful gw cmpMinor scheme genesis (l.handleIDs env peer ids : Calling byName _) := by
  unfold Own.handleIDs
  split
  · exact done _
  · split
    · exact done _
    · split
      · exact done _
      · exact (ownFire l _ _).bind fun _ => done _

theorem handleBlock (peer : Addr) (block : Option Proto.Block) :
    Heedful gw cmpMinor scheme genesis (l.handleBlock env peer block : Calling byName _) := by
  unfold Own.handleBlock
  split
  · exact done _
  · split
    · exact done _
    · exact (ownFire l _ _).bind fun _ => done _

end Heedful

/-- **Every handler is heedful.** -/
theorem handle_heedful {byName : Peer → Peer → Bool} (i : Selected byName) (l : Own) :
    Heedful gw cmpMinor scheme genesis (Own.handle gw i l) := by
  cases i with
  | sync now rng conns srt pick => exact Heedful.sync l conns srt pick
  | tick now => exact Heedful.tick l
  | ids now peer ids => exact Heedful.handleIDs l peer ids
  | block now peer block => exact Heedful.handleBlock l peer block

/-- **Every run among others**: the linkage and the registry stay in states that calls on them reach. -/
theorem run_onward {byName : Peer → Peer → Bool} {w w' : LoaderSite byName}
    {tr : List (Link (LoaderSite byName) (LoaderAct byName))} (h : Path (AmongStep gw cmpMinor) w tr w')
    (hw : Holds (serve gw) (Shared.Onward gw cmpMinor)
      (fun _ o => ∃ t, Reachable gw scheme genesis o.linkage t) w) : w.shared.Onward gw cmpMinor w'.shared ∧
    Holds (serve gw) (Shared.Onward gw cmpMinor) (fun _ o => ∃ t, Reachable gw scheme genesis o.linkage t) w' :=
  Client.run_among upward_reachable (fun _ _ _ => called_onward) (fun i l o ht => handle_heedful i l o ht) h hw

end

end Loading
end ForkDetector
