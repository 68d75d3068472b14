import TreeCodec.Schema.Type
import TreeCodec.Store.Keyed

/-!
Maps keyed by types.
-/
namespace TreeCodec

structure TypeMap (α : Type) where
  entries : List (Ty × α) := []

namespace TypeMap

variable {α : Type} (m : TypeMap α)

def empty : TypeMap α := {}

def get? (t : Ty) : Option α := Keyed.get? t m.entries

def contains (t : Ty) : Bool := (m.get? t).isSome

def size : Nat := m.entries.length

def isEmpty : Bool := m.entries.isEmpty

def put (t : Ty) (value : α) : TypeMap α := ⟨Keyed.put t value m.entries⟩

/-- Puts a value and gives the one that it replaces. -/
def insert (t : Ty) (value : α) : Option α × TypeMap α := (m.get? t, m.put t value)

/-- The value of a type. One is made and kept if there is none. -/
def getOrInsert (t : Ty) (make : Unit → α) : α × TypeMap α :=
  match m.get? t with
  | some v => (v, m)
  | none =>
    let v := make ()
    (v, m.put t v)

theorem get?_put (t u : Ty) (v : α) : (m.put t v).get? u = if u = t then some v else m.get? u :=
  Keyed.get?_put u t v m.entries

theorem put_put (t : Ty) (v w : α) : (m.put t v).put t w = m.put t w :=
  congrArg TypeMap.mk <| Keyed.put_put t v w m.entries

/-- After a lookup that makes, the value is there. -/
theorem get?_getOrInsert (t : Ty) (make : Unit → α) :
    (m.getOrInsert t make).2.get? t = some (m.getOrInsert t make).1 := by
  unfold getOrInsert
  cases h : m.get? t <;> simp [h, get?_put]

/-- A value that is there stays. -/
theorem getOrInsert_of_get? {t : Ty} {v : α} (make : Unit → α) (h : m.get? t = some v) :
    m.getOrInsert t make = (v, m) := by
  simp [getOrInsert, h]

end TypeMap
end TreeCodec
