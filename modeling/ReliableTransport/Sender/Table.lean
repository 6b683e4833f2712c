import ReliableTransport.CallError
import ReliableTransport.Dict

/-! The open connections of a sender by number. The storage exists only while a connection is open;
numbers are handed out in order, starting from one, and begin again when 32 bits run out. -/
namespace ReliableTransport

/-- A connection record, by the order in which records were made. -/
abbrev ConnRef := Nat

/-- The storage, if there is one, and the number handed out last. -/
structure Table where
  conns : Option (Dict ConnId ConnRef)
  lastId : ConnId
  deriving DecidableEq

namespace Table

def empty : Table := ⟨none,0⟩

def allocate (t : Table) : ConnId × Table := (t.lastId + 1,{ t with lastId := t.lastId + 1 })

def entries (t : Table) : Dict ConnId ConnRef := t.conns.getD []

def insert (t : Table) (id : ConnId) (c : ConnRef) : Table :=
  { t with conns := some (t.entries.insert id c) }

def get? (t : Table) (id : ConnId) : Option ConnRef := t.entries.get? id

def remove (t : Table) (id : ConnId) : Option ConnRef × Table :=
  match t.conns with
  | none => (none,t)
  | some d =>
    let rest := d.erase id
    (d.get? id,{ t with conns := if rest.isEmpty then none else some rest })

theorem entries_remove (t : Table) (id : ConnId) :
    (t.remove id).2.entries = t.entries.erase id := by
  cases hc : t.conns with
  | none => simp [remove,entries,hc,Dict.erase]
  | some d =>
    simp only [remove,hc,entries,Option.getD_some]
    split
    · rename_i he
      rw [List.isEmpty_iff.mp he]
      rfl
    · rfl

def size (t : Table) : Nat := t.entries.length

def isEmpty (t : Table) : Bool := t.size = 0

def allocated (t : Table) : Bool := t.conns.isSome

def drain (t : Table) : List ConnRef × Table := (t.entries.map (·.2),{ t with conns := none })

end Table
end ReliableTransport
