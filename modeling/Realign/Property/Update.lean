import Realign.Alignment.Error
import Realign.Alignment.Strict
import Realign.Property.Declaration

/-!
Setting a property as seen from a module. The declaration that resolution reads is
the one that is written; a bare value is followed to the property it refers to. A
literal value is replaced. A compound value keeps its placeholders if what they
resolve to starts the new value, and gains the rest of it. No name is followed
twice: the second time would be like the first, so the references never end.
-/
namespace Realign

inductive UpdateOutcome where
  /-- The property is declared; it was written, or a strict violation was tolerated. -/
  | found
  | notFound
  /-- The property is the module version or resolves to the new value already. -/
  | ignored
deriving DecidableEq, Repr

/-- How a property is to be set: to which value, and whether the strict check is bypassed. -/
structure UpdateRequest where
  policy : Policy
  bypassStrict : Bool
  value : String

namespace UpdateRequest

/-- The text to be written for a declared value that resolves to `resolved`; none to leave it. -/
def written? (r : UpdateRequest) (name declared resolved : String) :
    Except AlignError (Option String) :=
  if r.policy.strictAlignment && !r.bypassStrict &&
      !Strict.compatible r.policy resolved r.value then
    if r.policy.strictViolationFails then
      .error (.strictViolation ("property " ++ name) resolved r.value)
    else .ok none
  else if Placeholder.isCompound declared then
    if r.bypassStrict then .error (.unsupportedPattern name declared)
    else match Text.strip? resolved.toList r.value.toList with
      | some tail => .ok (some (declared ++ String.ofList tail))
      | none => .ok (some r.value)
  else .ok (some r.value)

end UpdateRequest

namespace Forest

def updateFollowing (F : Forest) (i : Nat) (r : UpdateRequest) (available : List String)
    (name : String) : Forest × Except AlignError UpdateOutcome :=
  if name = moduleVersionName then (F, .ok .ignored)
  else match F.resolve i (Placeholder.spell name) with
    | .error e => (F, .error (.resolve e))
    | .ok resolved =>
      if resolved = r.value then (F, .ok .ignored)
      else match F.declaration? i name with
        | none => (F, .ok .notFound)
        | some d =>
          match Placeholder.bare? d.value with
          | some other =>
            if _h : name ∈ available then updateFollowing F i r (without name available) other
            else (F, .error (.endlessReference name))
          | none =>
            match r.written? name d.value resolved with
            | .error e => (F, .error e)
            | .ok none => (F, .ok .found)
            | .ok (some value) => (F.setProperty d name value, .ok .found)
termination_by available.length
decreasing_by exact length_without_lt _h

def update (F : Forest) (i : Nat) (r : UpdateRequest) (name : String) :
    Forest × Except AlignError UpdateOutcome :=
  F.updateFollowing i r (F.declaredNames i) name

end Forest
end Realign
