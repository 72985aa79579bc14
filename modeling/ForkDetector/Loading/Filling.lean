import ForkDetector.Chains.Links
import ForkDetector.Loading.Queue
/-!
# Filling — what any calls of `put` leave in a queue

The queue of a request holds, at the first item of every ID, the latest block put with that ID, and nothing at the
items that repeat an ID (`filled_eq`).  So `ready` never answers for a request with a repeated ID, and `lastReceived`
does not see past the first repetition.
-/
namespace ForkDetector
namespace Loading

open Proto (BlockID)

/-- The queue of the request `ids` after the calls `puts` of `put`. -/
def filled (ids : List BlockID) (puts : List (Option Proto.Block)) : Queue := puts.foldl Queue.put (newQueue ids)

/-- Some block put has the ID `id`. -/
def WasPut (puts : List (Option Proto.Block)) (id : BlockID) : Prop := ∃ b, some b ∈ puts ∧ b.blockID = id

/-- The latest block put with the ID `id`. -/
def latest (puts : List (Option Proto.Block)) (id : BlockID) : Option Proto.Block :=
  puts.reverse.findSome? (Option.filter fun b => b.blockID = id)

theorem latest_eq_some {puts : List (Option Proto.Block)} {id : BlockID} {b : Proto.Block}
    (h : latest puts id = some b) : some b ∈ puts ∧ b.blockID = id := by
  obtain ⟨x, hx, hb⟩ := List.exists_of_findSome?_eq_some h
  obtain ⟨rfl, hid⟩ := Option.filter_eq_some_iff.1 hb
  exact ⟨List.mem_reverse.1 hx, of_decide_eq_true hid⟩

theorem isSome_latest {puts : List (Option Proto.Block)} {id : BlockID} : (latest puts id).isSome ↔ WasPut puts id := by
  constructor
  · intro h
    obtain ⟨b, hb⟩ := Option.isSome_iff_exists.1 h
    exact ⟨b, latest_eq_some hb⟩
  · rintro ⟨b, hb, rfl⟩
    refine List.findSome?_isSome_iff.2 ⟨some b, List.mem_reverse.2 hb, ?_⟩
    simp [Option.filter]

instance (puts : List (Option Proto.Block)) (id : BlockID) : Decidable (WasPut puts id) :=
  decidable_of_iff _ isSome_latest

theorem latest_none (puts : List (Option Proto.Block)) : latest (puts ++ [none]) = latest puts := by
  funext id
  simp [latest]

theorem latest_some (puts : List (Option Proto.Block)) (b : Proto.Block) :
    latest (puts ++ [some b]) = Function.update (latest puts) b.blockID (some b) := by
  funext id
  by_cases h : b.blockID = id
  · subst h
    simp [latest, Option.filter]
  · simp [latest, Option.filter, h, Function.update_of_ne (Ne.symm h)]

/-! ## The contents of a queue -/

/-- The queue of `ids`, those of `seen` before them, that holds the blocks `last` at the first items of their IDs. -/
def fill (last : BlockID → Option Proto.Block) : List BlockID → List BlockID → Queue
  | _, [] => []
  | seen, id :: ids => ⟨id, if id ∈ seen then none else last id⟩ :: fill last (id :: seen) ids

theorem fill_cons (last : BlockID → Option Proto.Block) (seen : List BlockID) (id : BlockID) (ids : List BlockID) :
    fill last seen (id :: ids) = ⟨id, if id ∈ seen then none else last id⟩ :: fill last (id :: seen) ids := rfl

theorem fill_none : ∀ (seen ids : List BlockID), fill (fun _ => none) seen ids = newQueue ids
  | _, [] => rfl
  | seen, id :: ids => by
    rw [fill_cons, fill_none (id :: seen) ids, ite_self]
    rfl

theorem fill_of_seen {last : BlockID → Option Proto.Block} {x : BlockID} {r : Option Proto.Block} :
    ∀ {seen : List BlockID} (ids : List BlockID), x ∈ seen →
      fill (Function.update last x r) seen ids = fill last seen ids
  | _, [], _ => rfl
  | seen, id :: ids, h => by
    rw [fill_cons, fill_cons, fill_of_seen ids (List.mem_cons_of_mem _ h)]
    by_cases hid : id ∈ seen
    · rw [if_pos hid, if_pos hid]
    · have hne : id ≠ x := fun he => hid (he ▸ h)
      rw [Function.update_of_ne hne]

theorem putBlock_fill {last : BlockID → Option Proto.Block} {b : Proto.Block} :
    ∀ {seen : List BlockID} (ids : List BlockID), b.blockID ∉ seen →
      Queue.putBlock b (fill last seen ids) = fill (Function.update last b.blockID (some b)) seen ids
  | _, [], _ => rfl
  | seen, id :: ids, h => by
    rw [fill_cons, fill_cons, Queue.putBlock]
    by_cases hid : id = b.blockID
    · subst hid
      rw [if_pos rfl, if_neg h, if_neg h, Function.update_self, fill_of_seen ids List.mem_cons_self]
    · rw [if_neg hid, Function.update_of_ne hid, putBlock_fill ids fun hm => ?_]
      rcases List.mem_cons.1 hm with he | he
      · exact hid he.symm
      · exact h he

/-- **What a queue holds**: the latest block put with each requested ID, at the first item of that ID only. -/
theorem filled_eq (ids : List BlockID) (puts : List (Option Proto.Block)) :
    filled ids puts = fill (latest puts) [] ids := by
  induction puts using List.reverseRecOn with
  | nil => exact (fill_none [] ids).symm
  | append_singleton puts x ih =>
    have hstep : filled ids (puts ++ [x]) = (filled ids puts).put x := by simp [filled]
    rw [hstep, ih]
    cases x with
    | none => rw [latest_none]; rfl
    | some b => rw [latest_some]; exact putBlock_fill ids List.not_mem_nil

/-! ## What its readers see -/

section Readers
variable {last : BlockID → Option Proto.Block} (hid : ∀ id b, last id = some b → b.blockID = id)
include hid

theorem isReceived_eq (id : BlockID) : Item.isReceived ⟨id, last id⟩ = (last id).isSome := by
  cases h : last id with
  | none => rfl
  | some b => simp [Item.isReceived, hid id b h]

theorem ready_fill : ∀ (seen ids : List BlockID), (fill last seen ids).ready = true ↔
    (∀ id ∈ ids, id ∉ seen ∧ (last id).isSome) ∧ ids.Nodup
  | _, [] => by simp [fill, Queue.ready]
  | seen, id :: ids => by
    have ih := ready_fill (id :: seen) ids
    unfold Queue.ready at *
    rw [fill_cons, List.all_cons, Bool.and_eq_true, ih, List.nodup_cons, List.forall_mem_cons]
    by_cases hs : id ∈ seen
    · simp [hs, Item.isReceived]
    · rw [if_neg hs, isReceived_eq hid]
      constructor
      · rintro ⟨hone, hall, hnd⟩
        exact ⟨⟨⟨hs, hone⟩, fun x hx => ⟨fun hm => (hall x hx).1 (List.mem_cons_of_mem _ hm), (hall x hx).2⟩⟩,
          fun hm => (hall id hm).1 List.mem_cons_self, hnd⟩
      · rintro ⟨⟨⟨-, hone⟩, hall⟩, hnot, hnd⟩
        refine ⟨hone, fun x hx => ⟨fun hm => ?_, (hall x hx).2⟩, hnd⟩
        rcases List.mem_cons.1 hm with rfl | he
        · exact hnot hx
        · exact (hall x hx).1 he

theorem received_fill : ∀ (seen ids : List BlockID), (fill last seen ids).received =
    (untilRepeat seen (ids.takeWhile fun id => (last id).isSome)).filterMap last
  | _, [] => rfl
  | seen, id :: ids => by
    have ih := received_fill (id :: seen) ids
    unfold Queue.received at *
    rw [fill_cons]
    cases hl : last id with
    | none =>
      rw [ite_self, List.takeWhile_cons_of_neg (by simp [Item.isReceived]), List.takeWhile_cons_of_neg (by simp [hl])]
      rfl
    | some b =>
      rw [List.takeWhile_cons_of_pos (l := ids) (by simp [hl]), untilRepeat]
      by_cases hs : id ∈ seen
      · rw [if_pos hs, if_pos hs, List.takeWhile_cons_of_neg (by simp [Item.isReceived])]
        rfl
      · rw [if_neg hs, if_neg hs, List.takeWhile_cons_of_pos (by simp [Item.isReceived, hid id b hl]),
          List.filterMap_cons_some hl, ← ih]
        rfl

end Readers

/-- The longest prefix of the request `ids` whose IDs have all been put. -/
def arrivedPrefix (ids : List BlockID) (puts : List (Option Proto.Block)) : List BlockID :=
  ids.takeWhile fun id => WasPut puts id

theorem put_of_mem_arrivedPrefix {ids : List BlockID} {puts : List (Option Proto.Block)} {id : BlockID}
    (h : id ∈ arrivedPrefix ids puts) : WasPut puts id := by
  unfold arrivedPrefix at h
  simpa using List.mem_takeWhile_imp h

theorem ready_filled (ids : List BlockID) (puts : List (Option Proto.Block)) :
    (filled ids puts).ready = true ↔ (∀ id ∈ ids, WasPut puts id) ∧ ids.Nodup := by
  rw [filled_eq, ready_fill fun id b h => (latest_eq_some h).2]
  simp [isSome_latest]

theorem untilRepeat_sublist : ∀ (seen ids : List BlockID), (untilRepeat seen ids).Sublist ids
  | _, [] => .slnil
  | seen, id :: ids => by
    unfold untilRepeat
    split
    · exact List.nil_sublist _
    · exact (untilRepeat_sublist (id :: seen) ids).cons_cons id

/-- **What `lastReceived` finds**: the latest block of the last ID before the first repetition. -/
theorem lastReceived_filled (ids : List BlockID) (puts : List (Option Proto.Block)) :
    (filled ids puts).lastReceived = (untilRepeat [] (arrivedPrefix ids puts)).getLast?.bind (latest puts) := by
  have hprefix : (ids.takeWhile fun id => (latest puts id).isSome) = arrivedPrefix ids puts := by
    unfold arrivedPrefix
    congr 1
    funext id
    rw [Bool.eq_iff_iff, isSome_latest, decide_eq_true_iff]
  unfold Queue.lastReceived
  rw [filled_eq, received_fill fun id b h => (latest_eq_some h).2, hprefix]
  have hput : ∀ id ∈ untilRepeat [] (arrivedPrefix ids puts), (latest puts id).isSome := fun id hid =>
    isSome_latest.2 (put_of_mem_arrivedPrefix ((untilRepeat_sublist _ _).mem hid))
  rcases List.eq_nil_or_concat (untilRepeat [] (arrivedPrefix ids puts)) with h | ⟨init, id, h⟩
  · rw [h]
    rfl
  · rw [h] at hput ⊢
    obtain ⟨b, hb⟩ := Option.isSome_iff_exists.1 (hput id (by simp))
    simp [List.filterMap_append, hb]

/-! ## What the request and the blocks alone decide -/

/-- **What a queue should answer after the calls `puts`**, from the set of the blocks put alone. -/
structure FollowsPuts (ids : List BlockID) (puts : List (Option Proto.Block)) : Prop where
  ready : (filled ids puts).ready = true ↔ ∀ id ∈ ids, WasPut puts id
  nothing : arrivedPrefix ids puts = [] → (filled ids puts).lastReceived = none
  last : ∀ id, (arrivedPrefix ids puts).getLast? = some id →
    ∃ b, (filled ids puts).lastReceived = some b ∧ some b ∈ puts ∧ b.blockID = id
  order : ∀ puts', (∀ b : Proto.Block, some b ∈ puts' ↔ some b ∈ puts) →
    (filled ids puts').ready = (filled ids puts).ready ∧
      (filled ids puts').lastReceived = (filled ids puts).lastReceived

theorem put_congr {puts puts' : List (Option Proto.Block)} (h : ∀ b : Proto.Block, some b ∈ puts' ↔ some b ∈ puts)
    (id : BlockID) : WasPut puts' id ↔ WasPut puts id :=
  exists_congr fun b => and_congr_left' (h b)

theorem arrivedPrefix_congr {puts puts' : List (Option Proto.Block)}
    (h : ∀ b : Proto.Block, some b ∈ puts' ↔ some b ∈ puts) (ids : List BlockID) :
    arrivedPrefix ids puts' = arrivedPrefix ids puts := by
  unfold arrivedPrefix
  congr 1
  funext id
  exact decide_eq_decide.2 (put_congr h id)

/-- **A queue answers from the set of the blocks put** exactly when no repeated ID of the request keeps it from being
ready or ends its received part early, and no two different blocks were put for the last ID received. -/
theorem follows_puts_iff (ids : List BlockID) (puts : List (Option Proto.Block)) :
    FollowsPuts ids puts ↔
      ((∀ id ∈ ids, WasPut puts id) → ids.Nodup) ∧
      (untilRepeat [] (arrivedPrefix ids puts)).getLast? = (arrivedPrefix ids puts).getLast? ∧
      ∀ b b', some b ∈ puts → some b' ∈ puts → (arrivedPrefix ids puts).getLast? = some b.blockID →
        b'.blockID = b.blockID → b' = b := by
  constructor
  · intro h
    have hlast : (untilRepeat [] (arrivedPrefix ids puts)).getLast? = (arrivedPrefix ids puts).getLast? := by
      cases hp : (arrivedPrefix ids puts).getLast? with
      | none =>
        rw [List.getLast?_eq_none_iff.1 hp]
        rfl
      | some id =>
        obtain ⟨b, hb, -, rfl⟩ := h.last id hp
        rw [lastReceived_filled] at hb
        obtain ⟨id, hid, hb⟩ := Option.bind_eq_some_iff.1 hb
        rw [hid, (latest_eq_some hb).2]
    -- the block put last of those with the last ID is the one returned
    have hagain : ∀ b, some b ∈ puts → (arrivedPrefix ids puts).getLast? = some b.blockID →
        (filled ids puts).lastReceived = some b := by
      intro b hb hp
      have hset : ∀ x : Proto.Block, some x ∈ puts ++ [some b] ↔ some x ∈ puts := by
        intro x
        simp only [List.mem_append, List.mem_singleton, Option.some.injEq, or_iff_left_iff_imp]
        rintro rfl
        exact hb
      rw [← (h.order _ hset).2, lastReceived_filled, arrivedPrefix_congr hset, hlast, hp, latest_some]
      exact Function.update_self ..
    refine ⟨fun hall => ((ready_filled ids puts).1 (h.ready.2 hall)).2, hlast, fun b b' hb hb' hp he => ?_⟩
    have hp' := hagain b' hb' (he ▸ hp)
    exact Option.some.inj (hp'.symm.trans (hagain b hb hp))
  · rintro ⟨hnodup, hlast, hone⟩
    have hready : ∀ puts', (∀ b : Proto.Block, some b ∈ puts' ↔ some b ∈ puts) →
        ((filled ids puts').ready = true ↔ ∀ id ∈ ids, WasPut puts id) := by
      intro puts' hset
      rw [ready_filled]
      simp only [put_congr hset]
      exact ⟨And.left, fun hall => ⟨hall, hnodup hall⟩⟩
    have hreceived : ∀ puts', (∀ b : Proto.Block, some b ∈ puts' ↔ some b ∈ puts) →
        (filled ids puts').lastReceived = (arrivedPrefix ids puts).getLast?.bind (latest puts') := by
      intro puts' hset
      rw [lastReceived_filled, arrivedPrefix_congr hset, hlast]
    have hput : ∀ id, (arrivedPrefix ids puts).getLast? = some id → WasPut puts id := fun id hp =>
      put_of_mem_arrivedPrefix (List.mem_of_getLast? hp)
    refine ⟨hready puts fun _ => Iff.rfl, fun hp => ?_, fun id hp => ?_, fun puts' hset => ⟨?_, ?_⟩⟩
    · rw [hreceived puts fun _ => Iff.rfl, hp]
      rfl
    · obtain ⟨b, hb⟩ := Option.isSome_iff_exists.1 (isSome_latest.2 (hput id hp))
      rw [hreceived puts fun _ => Iff.rfl, hp]
      exact ⟨b, hb, latest_eq_some hb⟩
    · rw [Bool.eq_iff_iff, hready puts' hset, hready puts fun _ => Iff.rfl]
    · rw [hreceived puts' hset, hreceived puts fun _ => Iff.rfl]
      cases hp : (arrivedPrefix ids puts).getLast? with
      | none => rfl
      | some id =>
        obtain ⟨b, hb⟩ := Option.isSome_iff_exists.1 (isSome_latest.2 (hput id hp))
        obtain ⟨b', hb'⟩ := Option.isSome_iff_exists.1 (isSome_latest.2 ((put_congr hset id).2 (hput id hp)))
        obtain ⟨hm, rfl⟩ := latest_eq_some hb
        obtain ⟨hm', he⟩ := latest_eq_some hb'
        show latest puts' b.blockID = latest puts b.blockID
        rw [hb, hb', hone b b' hm ((hset b').1 hm') hp he]

/-- A peer that repeats an ID gets a queue that no block completes. -/
theorem repeated_id_stalls :
    ¬ FollowsPuts [Chains.Sample.id 1, Chains.Sample.id 1] [some (Chains.Sample.block 1 0)] := by
  intro h
  have hput : WasPut [some (Chains.Sample.block 1 0)] (Chains.Sample.id 1) := ⟨_, List.mem_singleton_self _, rfl⟩
  have hall := h.ready.2 (by simp [hput])
  exact absurd hall (by decide)

end Loading
end ForkDetector
