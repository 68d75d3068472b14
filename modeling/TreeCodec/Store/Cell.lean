import TreeCodec.Store.TypeMap

/-!
Cells: what is made for a type at most once.

At the first request for a type a slot is made for it, and then filled. The first outcome stays in
the slot, whether it is a success or not, until the cell is cleared. Every outcome has the number of
the run that made it, so two requests can be seen to get the same one.
-/
namespace TreeCodec

structure Kept (α : Type) where
  value : α
  run : Nat

/-- A place for one outcome. -/
structure Once (α : Type) where
  kept? : Option (Kept α) := none

structure Cell (α : Type) where
  slots : TypeMap (Once α) := {}
  runs : Nat := 0

namespace Cell

variable {α : Type} (c : Cell α)

def empty : Cell α := {}

def size : Nat := c.slots.size

def isEmpty : Bool := c.slots.isEmpty

/-- The outcome kept for a type. -/
def kept? (t : Ty) : Option (Kept α) := (c.slots.get? t).bind Once.kept?

def holds (t : Ty) : Bool := (c.kept? t).isSome

/-- The slot of a type. It is looked up first, and an empty one is put in only if there is none. -/
def slot (t : Ty) : Once α × Cell α :=
  match c.slots.get? t with
  | some s => (s, c)
  | none =>
    let (s, slots) := c.slots.getOrInsert t fun _ => {}
    (s, { c with slots })

/-- Puts the outcome of one more run into the slot of a type. -/
def fill (t : Ty) (value : α) : Kept α × Cell α :=
  let k : Kept α := ⟨value, c.runs⟩
  (k, { slots := c.slots.put t ⟨some k⟩, runs := c.runs + 1 })

/-- The outcome kept for a type. It is made now if its slot is empty. -/
def get (t : Ty) (make : Unit → α) : Kept α × Cell α :=
  let (s, c) := c.slot t
  match s.kept? with
  | some k => (k, c)
  | none => c.fill t (make ())

/-- Forgets what is kept. Runs are counted on. -/
def clear : Cell α := { c with slots := {} }

def describe : String := "CompiledCell \x7b len: " ++ toString c.size ++ " \x7d"

@[simp] theorem size_clear : c.clear.size = 0 := rfl

@[simp] theorem runs_fill (t : Ty) (value : α) : (c.fill t value).2.runs = c.runs + 1 := rfl

theorem kept?_clear (t : Ty) : c.clear.kept? t = none := rfl

theorem kept?_fill (t u : Ty) (value : α) :
    (c.fill t value).2.kept? u = if u = t then some (c.fill t value).1 else c.kept? u := by
  simp only [kept?, fill, TypeMap.get?_put]
  split <;> rfl

theorem slot_of_get? {t : Ty} {s : Once α} (h : c.slots.get? t = some s) : c.slot t = (s, c) := by
  simp [slot, h]

theorem slot_of_get?_none {t : Ty} (h : c.slots.get? t = none) :
    c.slot t = ({}, { c with slots := c.slots.put t {} }) := by
  simp [slot, TypeMap.getOrInsert, h]

/-- A request makes a new outcome if none is kept. -/
theorem get_eq (t : Ty) (make : Unit → α) :
    c.get t make = match c.kept? t with
      | some k => (k, c)
      | none => c.fill t (make ()) := by
  unfold get kept?
  cases h : c.slots.get? t with
  | some s => rw [c.slot_of_get? h, Option.bind_some]
  | none =>
    rw [c.slot_of_get?_none h, Option.bind_none]
    simp [fill, TypeMap.put_put]

theorem get_of_kept {t : Ty} {k : Kept α} (make : Unit → α) (h : c.kept? t = some k) :
    c.get t make = (k, c) := by
  rw [get_eq, h]

/-- A second request for a type gets what the first one got. -/
theorem get_get (t : Ty) (make make' : Unit → α) :
    (c.get t make).2.get t make' = c.get t make := by
  rw [c.get_eq t make]
  cases h : c.kept? t with
  | some k => exact c.get_of_kept make' h
  | none => exact get_of_kept _ make' <| (c.kept?_fill t t _).trans (if_pos rfl)

end Cell
end TreeCodec
