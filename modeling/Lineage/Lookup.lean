import Lineage.Forest
import Lineage.Slot
import Lineage.Event

/-!
# Look-ups

Reading a base fills slots and may write to the journal, but never changes the forest.  A `Lookup`
is therefore an action on a `Memo`, which holds the slots and the journal, and it takes the forest
as an argument.  What a look-up did before it fails stays done.
-/

namespace Lineage

/-- What reads have found out so far. -/
structure Memo where
  /-- The slot of each node, by id. -/
  slots : Array Slot
  /-- The events so far, or `none` if no journal is kept. -/
  journal : Option (Array Event)

namespace Memo

def empty (recording : Bool) : Memo :=
  ⟨#[], if recording then some #[] else none⟩

/-- The slot of a node; one that is not stored is `unresolved`. -/
def slot (memo : Memo) (id : NodeId) : Slot := memo.slots[id]?.getD .unresolved

/-- Make room for one more node, whose base is unresolved. -/
def grow (memo : Memo) : Memo :=
  { memo with slots := memo.slots.push .unresolved }

def fill (memo : Memo) (id : NodeId) (slot : Slot) : Memo :=
  { memo with slots := memo.slots.setIfInBounds id slot }

/-- Empty the journal, if one is kept. -/
def restart (memo : Memo) : Memo :=
  { memo with journal := memo.journal.map fun _ ↦ #[] }

def write (memo : Memo) (event : Event) : Memo :=
  { memo with journal := memo.journal.map (·.push event) }

theorem slot_eq_of_slots_eq {memo other : Memo} (h : memo.slots = other.slots) (id : NodeId) :
    memo.slot id = other.slot id := by
  unfold slot
  rw [h]

@[simp]
theorem slot_empty (recording : Bool) (id : NodeId) :
    (empty recording).slot id = .unresolved := rfl

/-- Room for one more node leaves every slot as it was. -/
@[simp]
theorem slot_grow (memo : Memo) (id : NodeId) : memo.grow.slot id = memo.slot id := by
  unfold slot grow
  rw [Array.getElem?_push]
  split
  next h => simp [h]
  next => rfl

/-- A slot that is stored takes what it is filled with, and every other stays. -/
theorem slot_fill (memo : Memo) (id other : NodeId) (slot : Slot) :
    (memo.fill id slot).slot other =
      if other = id ∧ id < memo.slots.size then slot else memo.slot other := by
  unfold Memo.slot fill
  rw [Array.getElem?_setIfInBounds]
  by_cases h : id = other
  · subst h
    by_cases hlt : id < memo.slots.size
    · simp [hlt]
    · simp [hlt]
  · rw [if_neg h, if_neg fun hand ↦ h hand.1.symm]

theorem slot_fill_self {memo : Memo} {id : NodeId} (hid : id < memo.slots.size) (slot : Slot) :
    (memo.fill id slot).slot id = slot := by
  rw [slot_fill, if_pos ⟨rfl, hid⟩]

theorem slot_fill_of_ne {id other : NodeId} (h : other ≠ id) (memo : Memo) (slot : Slot) :
    (memo.fill id slot).slot other = memo.slot other := by
  rw [slot_fill, if_neg fun hand ↦ h hand.1]

theorem size_fill (memo : Memo) (id : NodeId) (slot : Slot) :
    (memo.fill id slot).slots.size = memo.slots.size :=
  Array.size_setIfInBounds

end Memo

/-- An action that reads a forest. -/
abbrev Lookup := ExceptT Error (StateM Memo)

namespace Lookup

def slot (id : NodeId) : Lookup Slot := return (← get).slot id

def fill (id : NodeId) (slot : Slot) : Lookup Unit := modify (·.fill id slot)

/-- Write an event to the journal.  Without a journal the event is not even made up. -/
def report (event : Lookup Event) : Lookup Unit := do
  if (← get).journal.isSome then
    let event ← event
    modify (·.write event)

end Lookup

end Lineage
