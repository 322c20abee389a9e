import Realign.Property.Resolution
import Realign.Relocation
import Realign.Policy

/-!
What changed between two sets of modules. Modules are matched by identity, places by
main section and profile id, and artifacts by list and identity; what stands on one
side only is passed over, but for a coordinate that a relocation rule explains.
Artifact versions are compared as they resolve along the chain of each side, and a
version that does not resolve is compared as it is written.
-/
namespace Realign

structure Location where
  kind : ArtifactKind
  profile : Option String
deriving DecidableEq, Repr

inductive ReportEntry where
  | moduleVersion (old new : String)
  | property (profile : Option String) (name : String) (old : Option String) (new : String)
  | aligned (location : Location) (ident : Ident) (old new : String)
  | relocated (location : Location) (old new : Ident) (version : Option String)
  | nonAligned (location : Location) (ident : Ident) (version : String)
deriving DecidableEq, Repr

structure ModuleReport where
  ident : Ident
  entries : List ReportEntry
deriving DecidableEq, Repr

structure Report where
  modules : List ModuleReport := []
deriving DecidableEq, Repr

namespace Location

def toString (l : Location) : String :=
  match l.profile with
  | some profile => l.kind.label ++ " in profile " ++ profile
  | none => l.kind.label

end Location

namespace ReportEntry

def arrow (old new : String) : String := old ++ " ---> " ++ new

def toString : ReportEntry → String
  | .moduleVersion old new => "Project version : " ++ arrow old new
  | .property profile name old new =>
    (match profile with
      | some profile => "Profile " ++ profile ++ " property : "
      | none => "Property : ") ++ name ++ "  " ++ arrow (old.getD "<none>") new
  | .aligned location ident old new =>
    location.toString ++ " : " ++ ident.toString ++ "  " ++ arrow old new
  | .relocated location old new version =>
    "Relocated " ++ location.toString ++ " : " ++ arrow old.toString new.toString ++
      match version with
      | some version => " (" ++ version ++ ")"
      | none => ""
  | .nonAligned location ident version =>
    "Non-aligned " ++ location.toString ++ " : " ++ ident.toString ++ "  " ++ version

end ReportEntry

namespace ModuleReport

def toString (r : ModuleReport) : String :=
  "------------------- project " ++ r.ident.toString ++ "\n"
    ++ String.join (r.entries.map fun entry => "\t" ++ entry.toString ++ "\n")

end ModuleReport

namespace Report

def isEmpty (r : Report) : Bool := r.modules.isEmpty

def find? (r : Report) (ident : Ident) : Option ModuleReport :=
  r.modules.find? fun report => report.ident == ident

def toString (r : Report) : String := String.join (r.modules.map ModuleReport.toString)

/-- Modules by identity; of several with one identity the last counts, at the place of the first. -/
abbrev Index := Table Ident Module

def indexOf (modules : List Module) : Index := .ofRows (modules.map fun m => (m.ident, m))

/-- A module and its ancestors among the indexed ones, itself first. Only the identities in
`available` are entered, so the walk ends whatever the parents are. -/
def chainFrom (index : Index) (available : List Ident) (m : Module) : List Module :=
  m :: match m.parent.bind index.get? with
    | some parent =>
      if _h : parent.ident ∈ available then
        chainFrom index (without parent.ident available) parent
      else []
    | none => []
termination_by available.length
decreasing_by exact length_without_lt _h

/-- The chain that ends at a module, the least specific first. -/
def lineage (index : Index) (m : Module) : List Module :=
  (chainFrom index (without m.ident index.keys) m).reverse

def resolved (r : Resolver) (value : String) : String :=
  match r.resolve value with
  | .ok text => text
  | .error _ => value

/-- What a comparison of two places needs beside them. -/
structure Sides where
  policy : Policy
  relocations : RelocationTable
  old : Resolver
  new : Resolver

def propertyEntries (profile : Option String) (old new : Table String String) : List ReportEntry :=
  new.rows.filterMap fun (name, value) =>
    let previous := old.get? name
    if previous = some value then none else some (.property profile name previous value)

/-- The first previous identity that the table relocates to this one. -/
def relocatedFrom? (table : RelocationTable) (previous : List Artifact) (ident : Ident) :
    Option Ident :=
  (previous.map Artifact.ident).find? fun old =>
    match table.get? old with
    | some rule => rule.relocate old = ident
    | none => false

def differenceOf? (sides : Sides) (location : Location) (previous : List Artifact) (a : Artifact) :
    Option ReportEntry :=
  match previous.find? fun p => p.ident = a.ident with
  | some p =>
    match p.version.map (resolved sides.old), a.version.map (resolved sides.new) with
    | some old, some new =>
      if old ≠ new then some (.aligned location a.ident old new)
      else if sides.policy.reportNonAligned then some (.nonAligned location a.ident new)
      else none
    | _, _ => none
  | none =>
    (relocatedFrom? sides.relocations previous a.ident).map fun old =>
      .relocated location old a.ident (a.version.map (resolved sides.new))

def artifactEntries (sides : Sides) (profile : Option String) (old new : ArtifactLists) :
    List ReportEntry :=
  ArtifactKind.all.flatMap fun kind =>
    (new.get kind).filterMap (differenceOf? sides ⟨kind, profile⟩ (old.get kind))

def bodyEntries (sides : Sides) (profile : Option String) (old new : Declarations) :
    List ReportEntry :=
  propertyEntries profile old.properties new.properties
    ++ artifactEntries sides profile old.artifacts new.artifacts

/-- The places that are compared: the main sections, and the active profiles of the new module with
the first old profile of the same id. -/
def comparedPlaces (old new : Module) : List (Option String × Declarations × Declarations) :=
  (none, old.main, new.main) :: new.activeProfiles.filterMap fun profile =>
    (old.profiles.find? fun p => p.id = profile.id).map fun previous =>
      (some profile.id, previous.body, profile.body)

def moduleEntries (sides : Sides) (old new : Module) : List ReportEntry :=
  (if old.version ≠ new.version then [.moduleVersion old.version new.version] else [])
    ++ (comparedPlaces old new).flatMap fun (profile, previous, body) =>
      bodyEntries sides profile previous body

/-- A module before and after, with what their comparison needs. -/
structure Pair where
  sides : Sides
  old : Module
  new : Module

/-- The modules that stand on both sides, in the order of the second. -/
def pairs (p : Policy) (table : RelocationTable) (before after : List Module) : List Pair :=
  let older := indexOf before
  let newer := indexOf after
  newer.rows.filterMap fun (ident, new) => (older.get? ident).map fun old =>
    ⟨⟨p, table, .ofChain (lineage older old), .ofChain (lineage newer new)⟩, old, new⟩

def Pair.report? (pair : Pair) : Option ModuleReport :=
  let entries := moduleEntries pair.sides pair.old pair.new
  if entries.isEmpty then none else some ⟨pair.new.ident, entries⟩

/-- The differences of two sets of modules. -/
def compare (p : Policy) (table : RelocationTable) (before after : List Module) : Report :=
  ⟨(pairs p table before after).filterMap Pair.report?⟩

/-- The versions of an artifact that its comparison resolves, each with its side. -/
def comparedVersions (sides : Sides) (previous : List Artifact) (a : Artifact) :
    List (Resolver × String) :=
  match previous.find? fun p => p.ident = a.ident with
  | some p => (p.version.map (sides.old, ·)).toList ++ (a.version.map (sides.new, ·)).toList
  | none =>
    if (relocatedFrom? sides.relocations previous a.ident).isSome then
      (a.version.map (sides.new, ·)).toList
    else []

def Pair.versions (pair : Pair) : List (Resolver × String) :=
  (comparedPlaces pair.old pair.new).flatMap fun (_, previous, body) =>
    ArtifactKind.all.flatMap fun kind => (body.artifacts.get kind).flatMap
      (comparedVersions pair.sides (previous.artifacts.get kind))

/-- The versions that do not resolve and are compared as they are written. -/
def unresolved (p : Policy) (table : RelocationTable) (before after : List Module) : List String :=
  ((pairs p table before after).flatMap Pair.versions).filterMap fun (r, version) =>
    match r.resolve version with
    | .ok _ => none
    | .error _ => some version

end Report
end Realign
