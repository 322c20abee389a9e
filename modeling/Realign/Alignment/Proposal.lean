import Realign.Alignment.Error
import Realign.Alignment.Ledger
import Realign.Policy

/-!
Wishes for shared properties. Everything that refers to a property, through however
many references, meets at the scope that declares it. Two wishes that differ clash:
an override replaces what is asked for, a wish that meets an override only joins it,
and otherwise the clash is fatal or the property is purged. Once all wishes are in,
each user of a property that is to change must be among those that asked for it.
-/
namespace Realign.Ledger

/-- One coordinate's wish to move a property to a version. -/
structure Wish where
  source : Ident
  version : String
  forced : Bool
deriving DecidableEq, Repr

/-- Enters a wish at its scope and tells whether it was taken. -/
def enter (L : Ledger) (F : Forest) (p : Policy) (s : Scope) (old : String) (w : Wish) :
    Ledger × Except AlignError Bool :=
  let r := L.revisionAt s
  let accept (version : String) (forced : Bool) :=
    (L.put s (r.record old version w.source forced), .ok true)
  match r.new with
  | none => accept w.version w.forced
  | some existing =>
    if existing = w.version ∨ w.forced then accept w.version w.forced
    else if r.forced then accept existing false
    else if p.propertyClashFails then
      (L, .error (.propertyClash (F.identOf s.holder) s.property existing r.contributors w.version
        w.source))
    else (L.purge s, .ok false)

/-- A wish for the property behind a value, as seen from a module. Only a bare value that is not
the module version stands for a property, and a purged property takes no wish. -/
def propose (L : Ledger) (F : Forest) (p : Policy) (i : Nat) (value : String) (w : Wish) :
    Ledger × Except AlignError Bool :=
  match Placeholder.bare? value with
  | none => (L, .ok false)
  | some name =>
    if name = moduleVersionName then (L, .ok false)
    else match F.resolve i value with
      | .error e => (L, .error (.resolve e))
      | .ok old =>
        let s := F.declaringScope i name
        if L.isPurged s then (L, .ok false) else L.enter F p s old w

/-- Checks that a user of a property took part in its revision, if there is one, and tells whether
revisions were rolled back because it did not. -/
def verify (L : Ledger) (F : Forest) (p : Policy) (i : Nat) (user : Ident) (name : String) :
    Ledger × Except AlignError Bool :=
  if p.strictPropertyValidation = .disabled then (L, .ok false)
  else
    let s := F.declaringScope i name
    match L.get? s with
    | none => (L, .ok false)
    | some r =>
      if r.isReverted ∨ user ∈ r.contributors then (L, .ok false)
      else match p.strictPropertyValidation, r.old with
        | .revert, some old => (L.revertMatching old, .ok true)
        | .revert, none => (L, .ok false)
        | _, _ => (L, .error (.unregisteredContributor (F.identOf s.holder) s.property user))

end Realign.Ledger
