import Mathlib.Data.List.TakeWhile
import ForkDetector.Proto
/-!
# Queue — the blocks requested from a peer

`loading/queue.go`.  A block that arrives fills the first item that requests it, so that an item whose ID stands in the
queue before it is never filled.  `Tracks` says what a queue holds after the blocks that arrived, and
`received_ids` what its received part is: the requested IDs up to the first one that has not arrived or is repeated.
-/
namespace ForkDetector
namespace Loading

open Proto (BlockID)

structure Item where
  requested : BlockID
  received : Option Proto.Block
deriving DecidableEq

def Item.isReceived (it : Item) : Bool := it.received.any fun b => b.blockID == it.requested

abbrev Queue := List Item

def newQueue (ids : List BlockID) : Queue := ids.map fun id => ⟨id, none⟩

namespace Queue

def putBlock (b : Proto.Block) : Queue → Queue
  | [] => []
  | it :: q => if it.requested = b.blockID then { it with received := some b } :: q else it :: putBlock b q

def put (q : Queue) : Option Proto.Block → Queue
  | none => q
  | some b => putBlock b q

def ready (q : Queue) : Bool := q.all Item.isReceived

/-- The blocks that were received, up to the first one that was not. -/
def received (q : Queue) : List Proto.Block := (q.takeWhile Item.isReceived).filterMap Item.received

def lastReceived (q : Queue) : Option Proto.Block := q.received.getLast?

def blocks (q : Queue) : List Proto.Block := q.filterMap Item.received

end Queue

/-- The IDs up to the first one that is repeated, or already seen. -/
def untilRepeat (seen : List BlockID) : List BlockID → List BlockID
  | [] => []
  | id :: ids => if id ∈ seen then [] else id :: untilRepeat (id :: seen) ids

/-- The queue of the IDs `ids`, those of `seen` before them, when the blocks `got` have arrived. -/
inductive Tracks (got : List BlockID) : List BlockID → List BlockID → Queue → Prop where
  | nil (seen : List BlockID) : Tracks got seen [] []
  | cons {seen ids : List BlockID} {q : Queue} {id : BlockID} {b : Option Proto.Block} :
      b.map Proto.Block.blockID = (if id ∈ got ∧ id ∉ seen then some id else none) →
      Tracks got (id :: seen) ids q → Tracks got seen (id :: ids) (⟨id, b⟩ :: q)

theorem tracks_newQueue : ∀ (seen ids : List BlockID), Tracks [] seen ids (newQueue ids)
  | seen, [] => .nil seen
  | seen, id :: ids => .cons (by simp) (tracks_newQueue (id :: seen) ids)

namespace Tracks
variable {got seen ids : List BlockID} {q : Queue} {b : Proto.Block}

theorem of_seen (h : Tracks got seen ids q) (hb : b.blockID ∈ seen) : Tracks (got ++ [b.blockID]) seen ids q := by
  induction h with
  | nil seen => exact .nil seen
  | cons hr _ ih =>
    refine .cons (hr.trans ?_) (ih (List.mem_cons_of_mem _ hb))
    rename_i seen _ _ id _ _
    by_cases hs : id ∈ seen
    · simp [hs]
    · have hne : id ≠ b.blockID := fun he => hs (he ▸ hb)
      simp [hne]

theorem putBlock (h : Tracks got seen ids q) (hb : b.blockID ∉ seen) :
    Tracks (got ++ [b.blockID]) seen ids (Queue.putBlock b q) := by
  induction h with
  | nil seen => exact .nil seen
  | @cons seen ids q id r hr htail ih =>
    unfold Queue.putBlock
    by_cases hid : id = b.blockID
    · subst hid
      rw [if_pos rfl]
      exact .cons (by simp [hb]) (htail.of_seen List.mem_cons_self)
    · rw [if_neg hid]
      refine .cons (hr.trans ?_) (ih fun hm => ?_)
      · simp [hid]
      · rcases List.mem_cons.1 hm with he | he
        · exact hid he.symm
        · exact hb he

/-- **The received part of a queue**: what has arrived of the request, up to the first repeated ID. -/
theorem received_ids (h : Tracks got seen ids q) :
    q.received.map Proto.Block.blockID = untilRepeat seen (ids.takeWhile (· ∈ got)) := by
  induction h with
  | nil seen => rfl
  | @cons seen ids q id r hr htail ih =>
    by_cases hg : id ∈ got
    · have hids : (id :: ids).takeWhile (· ∈ got) = id :: ids.takeWhile (· ∈ got) :=
        List.takeWhile_cons_of_pos (by simpa using hg)
      rw [hids, untilRepeat]
      by_cases hs : id ∈ seen
      · rw [if_pos hs]
        obtain rfl : r = none := by simpa [hs] using hr
        rfl
      · rw [if_neg hs, ← ih]
        obtain ⟨b, rfl, rfl⟩ : ∃ b, r = some b ∧ b.blockID = id := by simpa [hg, hs] using hr
        unfold Queue.received
        rw [List.takeWhile_cons_of_pos (by simp [Item.isReceived])]
        rfl
    · have hids : (id :: ids).takeWhile (· ∈ got) = [] := List.takeWhile_cons_of_neg (by simpa using hg)
      rw [hids]
      obtain rfl : r = none := by simpa [hg] using hr
      rfl

end Tracks

end Loading
end ForkDetector
