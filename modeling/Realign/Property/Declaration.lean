import Realign.Forest
import Realign.Property.Resolution

/-!
Where a module of a forest finds a property declared: in the most specific module
of its inheritance chain that declares it, at the last place there. A property whose
value is bare hands the question on to the name it refers to, so the scope of a
property is where following such references ends; the module version is no property.
-/
namespace Realign

structure Declaration where
  holder : Nat
  place : Place
  value : String
deriving DecidableEq, Repr

/-- A property together with the module that declares it. -/
structure Scope where
  holder : Nat
  property : String
deriving DecidableEq, Repr

/-- The name of a module's own version, which no property stands for. -/
def moduleVersionName : String := "project.version"

namespace Forest

def resolver (F : Forest) (i : Nat) : Resolver := .ofChain (F.lineage i)

def resolve (F : Forest) (i : Nat) (value : String) : Except ResolveError String :=
  (F.resolver i).resolve value

def declaration? (F : Forest) (i : Nat) (name : String) : Option Declaration :=
  (F.ancestors i).findSome? fun holder => do
    let m ← F.modules[holder]?
    let (place, value) ← m.declaration? name
    return ⟨holder, place, value⟩

/-- The names that the inheritance chain of a module declares. -/
def declaredNames (F : Forest) (i : Nat) : List String :=
  (F.lineage i).flatMap fun m => (Resolver.rowsOf m).map Prod.fst

theorem mem_declaredNames_of_declaration? {F : Forest} {i : Nat} {name : String} {d : Declaration}
    (h : F.declaration? i name = some d) : name ∈ F.declaredNames i := by
  obtain ⟨holder, hh, h⟩ := List.exists_of_findSome?_eq_some h
  obtain ⟨m, hm, h⟩ := Option.bind_eq_some_iff.1 h
  obtain ⟨⟨place, value⟩, hd, -⟩ := Option.bind_eq_some_iff.1 h
  obtain ⟨q, hq, hd⟩ := List.exists_of_findSome?_eq_some hd
  obtain ⟨v, hv, -⟩ := Option.map_eq_some_iff.1 hd
  obtain ⟨body, hb, hv⟩ := Option.bind_eq_some_iff.1 hv
  refine List.mem_flatMap.2 ⟨m, ?_, List.mem_map.2 ⟨(name, v), ?_, rfl⟩⟩
  · exact List.mem_filterMap.2 ⟨holder, List.mem_reverse.2 hh, hm⟩
  · exact List.mem_flatMap.2 ⟨body, List.mem_filterMap.2 ⟨q, List.mem_reverse.1 hq, hb⟩,
      Table.get?_eq_some.1 hv⟩

/-- The scope reached from `name`, with the names in `available` not yet followed and `scope`
the last one found declared. -/
def followScope (F : Forest) (i : Nat) (available : List String) (scope : Scope) (name : String) :
    Scope :=
  match F.declaration? i name with
  | none => scope
  | some d =>
    if _h : name ∈ available then
      match Placeholder.bare? d.value with
      | some other =>
        if other = moduleVersionName then ⟨d.holder, name⟩
        else followScope F i (without name available) ⟨d.holder, name⟩ other
      | none => ⟨d.holder, name⟩
    else scope
termination_by available.length
decreasing_by exact length_without_lt _h

/-- The scope that a change of a property lands in; an undeclared one stays with its module. -/
def declaringScope (F : Forest) (i : Nat) (name : String) : Scope :=
  F.followScope i (F.declaredNames i) ⟨i, name⟩ name

def setProperty (F : Forest) (d : Declaration) (name value : String) : Forest :=
  F.modifyProperties d.holder d.place (·.insert name value)

end Forest
end Realign
