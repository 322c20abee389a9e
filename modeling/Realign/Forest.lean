import Realign.Module

/-!
Module forests. A module names its parent by identity; a parent that is not among
the modules is external and makes its module a root. The modules of a forest have
distinct identities and every chain of parents ends, and that is part of the type:
a module may change in all but its identity and parent. Chains are walked with
as many steps as there are modules, and a longer one never ends.
-/
namespace Realign

namespace Forest

/-- The position of the module with an identity. -/
def positionIn (links : List Link) (ident : Ident) : Option Nat :=
  links.findIdx? fun link => link.ident == ident

def parentIn (links : List Link) (i : Nat) : Option Nat :=
  (links[i]?).bind fun link => link.parent.bind (positionIn links)

/-- Where so many steps up the chain of parents lead, if the chain is that long. -/
def climb (links : List Link) : Nat → Nat → Option Nat
  | 0, i => some i
  | n + 1, i => (parentIn links i).bind (climb links n)

/-- A module and its ancestors, itself first, at most so many. -/
def chainUp (links : List Link) : Nat → Nat → List Nat
  | 0, _ => []
  | n + 1, i => i :: match parentIn links i with
    | some parent => chainUp links n parent
    | none => []

/-- Whether the chain of parents goes on forever. -/
def isEndless (links : List Link) (i : Nat) : Bool := (climb links links.length i).isSome

/-- The first identity that stands before itself in the list or among those seen. -/
def repeatedAfter (seen : List Ident) : List Ident → Option Ident
  | [] => none
  | ident :: rest => if ident ∈ seen then some ident else repeatedAfter (ident :: seen) rest

structure Grounded (links : List Link) : Prop where
  distinct : (links.map Link.ident).Nodup
  ends : ∀ i < links.length, climb links links.length i = none

theorem repeatedAfter_eq_none {seen idents : List Ident} :
    repeatedAfter seen idents = none ↔ idents.Nodup ∧ ∀ i ∈ idents, i ∉ seen := by
  induction idents generalizing seen with
  | nil => simp [repeatedAfter]
  | cons ident rest ih =>
    by_cases h : ident ∈ seen
    · simp [repeatedAfter, h]
    · simp only [repeatedAfter, h, if_false, ih, List.nodup_cons, List.mem_cons, not_or]
      constructor
      · rintro ⟨hn, hs⟩
        exact ⟨⟨fun hm => (hs ident hm).1 rfl, hn⟩, by
          rintro i (rfl | hi)
          · exact h
          · exact (hs i hi).2⟩
      · rintro ⟨⟨hm, hn⟩, hs⟩
        exact ⟨hn, fun i hi => ⟨fun e => hm (e ▸ hi), hs i (Or.inr hi)⟩⟩

theorem map_modify_of_keeps {f : α → α} {g : α → β} (h : ∀ a, g (f a) = g a) (l : List α)
    (i : Nat) : (l.modify i f).map g = l.map g := by
  apply List.ext_getElem?
  intro j
  simp only [List.getElem?_map, List.getElem?_modify]
  cases l[j]? with
  | none => rfl
  | some a => by_cases hij : i = j <;> simp [hij, h]

end Forest

inductive ForestError where
  | duplicate (ident : Ident)
  | inheritanceCycle (ident : Ident)
deriving DecidableEq, Repr

namespace ForestError

def message : ForestError → String
  | .duplicate ident => "Module " ++ ident.toString ++ " is declared more than once"
  | .inheritanceCycle ident => "Module " ++ ident.toString ++ " is part of an inheritance cycle"

end ForestError

structure Forest where
  modules : List Module
  grounded : Forest.Grounded (modules.map Module.link)

/-- One artifact declaration: the module, the place, the list and the position in it. -/
structure Slot where
  holder : Nat
  place : Place
  kind : ArtifactKind
  index : Nat
deriving DecidableEq, Repr

namespace Forest

@[ext] theorem ext {F G : Forest} (h : F.modules = G.modules) : F = G := by
  cases F; cases G; cases h; rfl

/-- A repeated identity is reported before any endless chain. -/
def ofModules (modules : List Module) : Except ForestError Forest :=
  let links := modules.map Module.link
  match hd : repeatedAfter [] (links.map Link.ident) with
  | some ident => .error (.duplicate ident)
  | none =>
    match he : links.zipIdx.find? fun (_, i) => isEndless links i with
    | some (link, _) => .error (.inheritanceCycle link.ident)
    | none => .ok ⟨modules, (repeatedAfter_eq_none.1 hd).1, by
        intro i hi
        have h := List.find?_eq_none.1 he (links[i], i)
          (List.mem_zipIdx_iff_getElem?.2 (List.getElem?_eq_getElem hi))
        exact Option.not_isSome_iff_eq_none.1 h⟩

def links (F : Forest) : List Link := F.modules.map Module.link

def size (F : Forest) : Nat := F.modules.length

def isEmpty (F : Forest) : Bool := F.modules.isEmpty

def indices (F : Forest) : List Nat := List.range F.size

def find? (F : Forest) (ident : Ident) : Option Nat := positionIn F.links ident

def parent? (F : Forest) (i : Nat) : Option Nat := parentIn F.links i

def roots (F : Forest) : List Nat := F.indices.filter fun i => (F.parent? i).isNone

/-- A module and its ancestors, the most specific first. -/
def ancestors (F : Forest) (i : Nat) : List Nat := chainUp F.links F.size i

/-- The modules of the inheritance chain that ends at a module, the least specific first. -/
def lineage (F : Forest) (i : Nat) : List Module :=
  (F.ancestors i).reverse.filterMap (F.modules[·]?)

def identOf (F : Forest) (i : Nat) : Ident := ((F.modules[i]?).map Module.ident).getD ⟨"", ""⟩

def modify (F : Forest) (i : Nat) (f : Module → Module) (keeps : ∀ m, (f m).link = m.link) :
    Forest :=
  ⟨F.modules.modify i f, by rw [map_modify_of_keeps keeps]; exact F.grounded⟩

@[simp] theorem modules_modify (F : Forest) (i : Nat) (f : Module → Module)
    (keeps : ∀ m, (f m).link = m.link) : (F.modify i f keeps).modules = F.modules.modify i f := rfl

/-- No change of a module moves it in its forest. -/
@[simp] theorem links_modify (F : Forest) (i : Nat) (f : Module → Module)
    (keeps : ∀ m, (f m).link = m.link) : (F.modify i f keeps).links = F.links :=
  map_modify_of_keeps keeps F.modules i

@[simp] theorem size_modify (F : Forest) (i : Nat) (f : Module → Module)
    (keeps : ∀ m, (f m).link = m.link) : (F.modify i f keeps).size = F.size := by
  simp [size]

theorem parent?_modify (F : Forest) (i j : Nat) (f : Module → Module)
    (keeps : ∀ m, (f m).link = m.link) : (F.modify i f keeps).parent? j = F.parent? j := by
  simp only [parent?, links_modify]

theorem ancestors_modify (F : Forest) (i j : Nat) (f : Module → Module)
    (keeps : ∀ m, (f m).link = m.link) : (F.modify i f keeps).ancestors j = F.ancestors j := by
  simp only [ancestors, links_modify, size_modify]

theorem modules_of_ofModules {modules : List Module} {F : Forest}
    (h : ofModules modules = .ok F) : F.modules = modules := by
  simp only [ofModules] at h
  split at h
  · cases h
  · split at h
    · cases h
    · cases h
      rfl

def setVersion (F : Forest) (i : Nat) (version : String) : Forest :=
  F.modify i (Module.withVersion version) (Module.link_withVersion version)

def modifyProperties (F : Forest) (i : Nat) (place : Place)
    (f : Table String String → Table String String) : Forest :=
  F.modify i (Module.modifyProperties place f) (Module.link_modifyBody place _)

def modifyArtifacts (F : Forest) (i : Nat) (place : Place) (kind : ArtifactKind)
    (f : List Artifact → List Artifact) : Forest :=
  F.modify i (Module.modifyArtifacts place kind f) (Module.link_modifyBody place _)

def slotsOf (m : Module) (i : Nat) (place : Place) : List Slot :=
  match m.body? place with
  | none => []
  | some body => ArtifactKind.all.flatMap fun kind =>
    (List.range (body.artifacts.get kind).length).map fun index => ⟨i, place, kind, index⟩

/-- The artifacts of all places that count, by module, place, kind and position. -/
def slots (F : Forest) : List Slot :=
  F.modules.zipIdx.flatMap fun (m, i) => m.places.flatMap (slotsOf m i)

def artifact? (F : Forest) (slot : Slot) : Option Artifact := do
  let m ← F.modules[slot.holder]?
  let body ← m.body? slot.place
  (body.artifacts.get slot.kind)[slot.index]?

def modifyArtifact (F : Forest) (slot : Slot) (f : Artifact → Artifact) : Forest :=
  F.modifyArtifacts slot.holder slot.place slot.kind fun artifacts => artifacts.modify slot.index f

end Forest
end Realign
