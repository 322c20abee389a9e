import Realign.Alignment.Proposal
import Realign.Alignment.Walk
import Realign.Property.Update
import Realign.Relocation
import Realign.Target

/-!
One alignment pass over a forest, in six phases: artifacts are relocated; module
versions are set; literal artifact versions are set and wishes for properties are
entered in the ledger; every user of a property in the ledger is checked to have
asked; the revisions of the ledger are carried out where the properties are declared;
and, if wanted, targets that nothing declares are added to the managed dependencies
of every root. The artifacts are those that counted when the pass began. A fault
ends the pass in the state that it had reached.
-/
namespace Realign

/-- A version that was changed: that of a coordinate, or of the property of that name. -/
structure VersionChange where
  holder : Ident
  subject : String
  old : String
  new : String
deriving DecidableEq, Repr

structure Move where
  holder : Ident
  old : Ident
  new : Ident
deriving DecidableEq, Repr

/-- A property that was to be changed and that nothing in the chain of the module declares. -/
structure UndeclaredProperty where
  holder : Ident
  property : String
deriving DecidableEq, Repr

/-- A wish that was not carried out: for a version that mixes placeholders with other text, against
a tolerated strict violation, or for a property that a user had not asked to change. -/
inductive Notice where
  | compoundVersion (holder ident : Ident) (version : String)
  | strictViolation (subject old new : String)
  | rollback (holder user : Ident) (property : String)
deriving DecidableEq, Repr

structure AlignmentLog where
  moduleVersions : List VersionChange := []
  literalUpdates : List VersionChange := []
  propertyUpdates : List VersionChange := []
  unresolved : List UndeclaredProperty := []
  relocations : List Move := []
  injected : List Coordinate := []
  notices : List Notice := []
deriving DecidableEq, Repr

namespace AlignmentLog

def changeCount (log : AlignmentLog) : Nat :=
  log.moduleVersions.length + log.literalUpdates.length + log.propertyUpdates.length
    + log.relocations.length + log.injected.length

end AlignmentLog

namespace Alignment

structure State where
  forest : Forest
  ledger : Ledger := {}
  log : AlignmentLog := {}

/-- What a pass aligns to. -/
structure Plan where
  policy : Policy
  targets : Targets
  relocations : RelocationTable

abbrev Outcome := State × Option AlignError

def State.notice (s : State) (notice : Notice) : State :=
  { s with log.notices := s.log.notices ++ [notice] }

def moved (rule : RelocationRule) (a : Artifact) : Artifact where
  ident := rule.relocate a.ident
  version := rule.version <|> a.version
  scope := a.scope

def relocateSlot (table : RelocationTable) (s : State) (slot : Slot) : State :=
  match s.forest.artifact? slot with
  | none => s
  | some a =>
    match table.get? a.ident with
    | none => s
    | some rule =>
      { s with
        forest := s.forest.modifyArtifact slot (moved rule)
        log.relocations := s.log.relocations ++
          [⟨s.forest.identOf slot.holder, a.ident, rule.relocate a.ident⟩] }

def relocate (plan : Plan) (slots : List Slot) (s : State) : State :=
  slots.foldl (relocateSlot plan.relocations) s

/-- Whether a literal version may be set: yes, not this one, or the pass must stop. -/
def acceptLiteral (p : Policy) (subject current : String) (t : Target) : Except AlignError Bool :=
  if !p.strictAlignment || t.forced || Strict.compatible p current t.version then .ok true
  else if p.strictViolationFails then .error (.strictViolation subject current t.version)
  else .ok false

def alignModule (plan : Plan) (s : State) (i : Nat) : Outcome :=
  match s.forest.modules[i]? with
  | none => (s, none)
  | some m =>
    match plan.targets.get? m.ident with
    | none => (s, none)
    | some t =>
      if m.version = t.version then (s, none)
      else match acceptLiteral plan.policy m.ident.toString m.version t with
        | .error e => (s, some e)
        | .ok false => (s.notice (.strictViolation m.ident.toString m.version t.version), none)
        | .ok true =>
          ({ s with
            forest := s.forest.setVersion i t.version
            log.moduleVersions := s.log.moduleVersions ++
              [⟨m.ident, m.ident.toString, m.version, t.version⟩] }, none)

/-- The version of an artifact that takes part in alignment. -/
def alignable? (p : Policy) (a : Artifact) : Option String :=
  if p.excludes a.scope then none else a.version

def alignLiteral (plan : Plan) (s : State) (slot : Slot) (ident : Ident) (version : String)
    (t : Target) : Outcome :=
  let subject := slot.kind.label ++ " " ++ ident.toString
  if version = t.version then (s, none)
  else match acceptLiteral plan.policy subject version t with
    | .error e => (s, some e)
    | .ok false => (s.notice (.strictViolation subject version t.version), none)
    | .ok true =>
      ({ s with
        forest := s.forest.modifyArtifact slot fun a => { a with version := some t.version }
        log.literalUpdates := s.log.literalUpdates ++
          [⟨s.forest.identOf slot.holder, ident.toString, version, t.version⟩] }, none)

def proposeFor (plan : Plan) (s : State) (i : Nat) (ident : Ident) (version : String) (t : Target) :
    Outcome :=
  match s.ledger.propose s.forest plan.policy i version ⟨ident, t.version, t.forced⟩ with
  | (ledger, .ok _) => ({ s with ledger }, none)
  | (ledger, .error e) => ({ s with ledger }, some e)

/-- A bare version becomes a wish, a compound one is left alone and a literal one is set. -/
def alignSlot (plan : Plan) (s : State) (slot : Slot) : Outcome :=
  match s.forest.artifact? slot with
  | none => (s, none)
  | some a =>
    match alignable? plan.policy a, plan.targets.get? a.ident with
    | some version, some t =>
      if (Placeholder.bare? version).isSome then proposeFor plan s slot.holder a.ident version t
      else if Placeholder.isCompound version then
        (s.notice (.compoundVersion (s.forest.identOf slot.holder) a.ident version), none)
      else alignLiteral plan s slot a.ident version t
    | _, _ => (s, none)

def verifySlot (plan : Plan) (s : State) (slot : Slot) : Outcome :=
  match s.forest.artifact? slot with
  | none => (s, none)
  | some a =>
    match (alignable? plan.policy a).bind Placeholder.bare? with
    | none => (s, none)
    | some name =>
      match s.ledger.verify s.forest plan.policy slot.holder a.ident name with
      | (ledger, .ok false) => ({ s with ledger }, none)
      | (ledger, .ok true) =>
        ({ s with ledger }.notice (.rollback (s.forest.identOf slot.holder) a.ident name), none)
      | (ledger, .error e) => ({ s with ledger }, some e)

def carryOut (plan : Plan) (s : State) (r : PendingRevision) : Outcome :=
  let ident := s.forest.identOf r.scope.holder
  match s.forest.update r.scope.holder ⟨plan.policy, r.forced, r.new⟩ r.scope.property with
  | (forest, .error e) => ({ s with forest }, some e)
  | (forest, .ok .found) =>
    ({ s with
      forest
      log.propertyUpdates := s.log.propertyUpdates ++
        [⟨ident, r.scope.property, r.old, r.new⟩] }, none)
  | (forest, .ok .notFound) =>
    ({ s with forest, log.unresolved := s.log.unresolved ++ [⟨ident, r.scope.property⟩] }, none)
  | (forest, .ok .ignored) => ({ s with forest }, none)

/-- The identities of all modules and of all artifacts that count. -/
def declaredIdents (F : Forest) : List Ident :=
  F.slots.filterMap (fun slot => (F.artifact? slot).map Artifact.ident) ++
    F.modules.map Module.ident

def isMissing (declared : List Ident) (ident : Ident) : Bool :=
  !ident.isWildcard && !declared.contains ident

def injectInto (F : Forest) (a : Artifact) : Forest :=
  F.roots.foldl (fun F root => F.modifyArtifacts root .main .managedDependency (· ++ [a])) F

def injectTarget (s : State) (ident : Ident) (t : Target) : State :=
  if s.forest.roots.isEmpty then s
  else { s with
    forest := injectInto s.forest ⟨ident, some t.version, none⟩
    log.injected := s.log.injected ++ [⟨ident, some t.version⟩] }

def inject (plan : Plan) (s : State) : State :=
  if plan.policy.overrideTransitive then
    let declared := declaredIdents s.forest
    (plan.targets.rows.filter fun (ident, _) => isMissing declared ident).foldl
      (fun s (ident, t) => injectTarget s ident t) s
  else s

def run (plan : Plan) (F : Forest) : Outcome :=
  let slots := F.slots
  (Walk.untilFault (alignModule plan) F.indices (relocate plan slots ⟨F, {}, {}⟩))
    |> Walk.andThen (Walk.untilFault (alignSlot plan) slots)
    |> Walk.andThen (Walk.untilFault (verifySlot plan) slots)
    |> Walk.andThen (fun s => Walk.untilFault (carryOut plan) s.ledger.pending s)
    |> Walk.andThen (fun s => (inject plan s, none))

end Alignment
end Realign
