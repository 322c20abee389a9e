import Realign.Property.Declaration

/-!
The ledger of pending property revisions, kept by module and property in the order in
which they were first entered. A revision knows the value before alignment, the value
that is asked for, who asked, and whether an override did. A purged property stays
purged for the rest of the pass, so that no later wish can bring it back.
-/
namespace Realign

structure Revision where
  old : Option String := none
  new : Option String := none
  contributors : List Ident := []
  forced : Bool := false
deriving DecidableEq, Repr

namespace Revision

/-- Whether the value asked for is the old one. -/
def isReverted (r : Revision) : Bool := r.old.isSome && r.old = r.new

/-- The first old value stays; a contributor is listed once. -/
def record (r : Revision) (old new : String) (contributor : Ident) (forced : Bool) : Revision where
  old := some (r.old.getD old)
  new := some new
  contributors :=
    if contributor ∈ r.contributors then r.contributors else r.contributors ++ [contributor]
  forced := r.forced || forced

def revert (r : Revision) : Revision := { r with new := r.old }

/-- Rolled back if it started from that value, and left alone otherwise. -/
def revertFrom (old : String) (r : Revision) : Revision :=
  if r.old = some old then r.revert else r

end Revision

structure Ledger where
  modules : Table Nat (Table String Revision) := .empty
  purged : List Scope := []
deriving DecidableEq

/-- A revision that is to be carried out. -/
structure PendingRevision where
  scope : Scope
  old : String
  new : String
  forced : Bool
deriving DecidableEq, Repr

namespace Ledger

def empty : Ledger := {}

def revisions? (L : Ledger) (holder : Nat) : Option (Table String Revision) := L.modules.get? holder

def get? (L : Ledger) (s : Scope) : Option Revision :=
  (L.revisions? s.holder).bind (·.get? s.property)

def put (L : Ledger) (s : Scope) (r : Revision) : Ledger :=
  { L with modules :=
      L.modules.insert s.holder (((L.revisions? s.holder).getD .empty).insert s.property r) }

/-- The revision of a property, or a fresh one that asks for nothing yet. -/
def revisionAt (L : Ledger) (s : Scope) : Revision := (L.get? s).getD {}

def touch (L : Ledger) (s : Scope) : Ledger := L.put s (L.revisionAt s)

def purge (L : Ledger) (s : Scope) : Ledger where
  modules := match L.revisions? s.holder with
    | some revisions => L.modules.insert s.holder (revisions.erase s.property)
    | none => L.modules
  purged := if s ∈ L.purged then L.purged else L.purged ++ [s]

def isPurged (L : Ledger) (s : Scope) : Bool := L.purged.contains s

/-- Rolls back every revision, in any module, that started from a value. -/
def revertMatching (L : Ledger) (old : String) : Ledger :=
  { L with modules := L.modules.mapValues (Table.mapValues (Revision.revertFrom old)) }

def rows (L : Ledger) : List (Scope × Revision) :=
  L.modules.rows.flatMap fun (holder, revisions) =>
    revisions.rows.map fun (property, r) => (⟨holder, property⟩, r)

/-- How many revisions started from a value. -/
def countMatching (L : Ledger) (old : String) : Nat :=
  L.rows.countP fun (_, r) => r.old = some old

def size (L : Ledger) : Nat := L.rows.length

def isEmpty (L : Ledger) : Bool := L.rows.isEmpty

def pendingOf (s : Scope) (r : Revision) : Option PendingRevision :=
  if r.isReverted then none
  else do return ⟨s, ← r.old, ← r.new, r.forced⟩

/-- The revisions that ask for something and are not reverted. -/
def pending (L : Ledger) : List PendingRevision := L.rows.filterMap fun (s, r) => pendingOf s r

theorem get?_put (L : Ledger) (s other : Scope) (r : Revision) :
    (L.put s r).get? other = if s = other then some r else L.get? other := by
  obtain ⟨holder, property⟩ := s
  obtain ⟨holder', property'⟩ := other
  simp only [get?, put, revisions?, Table.get?_insert, Scope.mk.injEq]
  by_cases hh : holder = holder'
  · subst hh
    by_cases hp : property = property'
    · simp [hp, Table.get?_insert]
    · cases h : L.modules.get? holder <;> simp [hp, Table.get?_insert]
  · simp [hh]

theorem get?_purge (L : Ledger) (s other : Scope) :
    (L.purge s).get? other = if s = other then none else L.get? other := by
  obtain ⟨holder, property⟩ := s
  obtain ⟨holder', property'⟩ := other
  simp only [get?, purge, revisions?, Scope.mk.injEq]
  cases h : L.modules.get? holder with
  | none =>
    by_cases hh : holder = holder'
    · subst hh
      simp [h]
    · simp [hh]
  | some revisions =>
    by_cases hh : holder = holder'
    · subst hh
      by_cases hp : property = property' <;> simp [hp, h, Table.get?_insert, Table.get?_erase]
    · simp [hh, Table.get?_insert]

theorem get?_revertMatching (L : Ledger) (old : String) (s : Scope) :
    (L.revertMatching old).get? s = (L.get? s).map (Revision.revertFrom old) := by
  simp only [get?, revertMatching, revisions?, Table.get?_mapValues]
  cases L.modules.get? s.holder <;> simp [Table.get?_mapValues]

end Ledger
end Realign
