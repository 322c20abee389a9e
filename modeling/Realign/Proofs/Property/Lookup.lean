import Realign.Proofs.Forest.Change
import Realign.Proofs.Table
import Realign.Property.Update

/-!
Resolution and rewriting read the same entry. The table that resolution reads is filled
from the least specific module on, each later row replacing an earlier one of the same
name. A declaration is searched for from the most specific module on, and the first entry
of the name is taken. Both find the same value, and an update of a property writes to
the entry that is read afterwards.
-/
namespace Realign

/-- Of the rows of a module the last one of a name is the one that the module declares. -/
theorem Resolver.valueIn_reverse_rowsOf (m : Module) (name : String) :
    Table.valueIn name (rowsOf m).reverse = (m.declaration? name).map Prod.snd := by
  rw [rowsOf, Table.valueIn_reverse_flatMap, ← List.filterMap_reverse, findSome?_filterMap,
    Module.declaration?, List.map_findSome?]
  congr 1
  funext place
  rw [Function.comp_apply]
  cases m.body? place with
  | none => rfl
  | some body => simp [Table.valueIn_reverse_rows, Function.comp_def]

namespace Forest

/-- Reading the amalgamated table and searching for a declaration give the same value. -/
theorem table_get?_eq_declaration? (F : Forest) (i : Nat) (name : String) :
    (F.resolver i).table.get? name = (F.declaration? i name).map Declaration.value := by
  have hchain : (F.lineage i).reverse = (F.ancestors i).filterMap (F.modules[·]?) := by
    rw [lineage, List.filterMap_reverse, List.reverse_reverse]
  rw [resolver, Resolver.ofChain, Table.get?_ofRows, Table.valueIn_reverse_flatMap, hchain,
    findSome?_filterMap, declaration?, List.map_findSome?]
  congr 1
  funext holder
  rw [Function.comp_apply]
  cases F.modules[holder]? with
  | none => rfl
  | some m =>
    rw [Option.bind_some, Resolver.valueIn_reverse_rowsOf]
    cases hd : m.declaration? name <;> simp [hd]

/-- What is set where a module finds a property declared is what the module then finds. -/
theorem declaration?_setProperty_self {F : Forest} {i : Nat} {name : String} {d : Declaration}
    (h : F.declaration? i name = some d) (value : String) :
    (F.setProperty d name value).declaration? i name = some ⟨d.holder, d.place, value⟩ := by
  have hold := property?_of_declaration? h
  apply (F.sameNames_setProperty d name value hold).declaration?_of_property? h
  rw [F.property?_setProperty d name value hold, if_pos ⟨rfl, rfl, rfl⟩]

/-- An update leaves the forest alone or sets a property where the module finds it declared. -/
theorem updateFollowing_writes (F : Forest) (i : Nat) (r : UpdateRequest) (available : List String)
    (name : String) :
    (F.updateFollowing i r available name).1 = F ∨
      ∃ key d value, F.declaration? i key = some d ∧
        (F.updateFollowing i r available name).1 = F.setProperty d key value := by
  fun_induction F.updateFollowing i r available name <;> grind

/-- Resolution and rewriting agree: a name is in the amalgamated table exactly when it is found
declared, with the same value, and what an update overwrites is what the table held and then
holds. -/
theorem table_get?_iff_declaration? (F : Forest) (i : Nat) (name : String) :
    (∀ value, (F.resolver i).table.get? name = some value ↔
      ∃ d, F.declaration? i name = some d ∧ d.value = value) ∧
    ((F.resolver i).table.get? name = none ↔ F.declaration? i name = none) ∧
    ∀ r : UpdateRequest, (F.update i r name).1 = F ∨
      ∃ key d value, F.declaration? i key = some d ∧
        (F.update i r name).1 = F.setProperty d key value ∧
        (F.resolver i).table.get? key = some d.value ∧
        ((F.update i r name).1.resolver i).table.get? key = some value := by
  refine ⟨fun value => ?_, ?_, fun r => ?_⟩
  · rw [table_get?_eq_declaration?, Option.map_eq_some_iff]
  · rw [table_get?_eq_declaration?, Option.map_eq_none_iff]
  · have hwrites := F.updateFollowing_writes i r (F.declaredNames i) name
    rcases hwrites with hsame | ⟨key, d, value, hd, hG⟩
    · exact Or.inl hsame
    · refine Or.inr ⟨key, d, value, hd, hG, ?_, ?_⟩
      · rw [table_get?_eq_declaration?, hd, Option.map_some]
      · rw [update, hG, table_get?_eq_declaration?, declaration?_setProperty_self hd]
        rfl

end Forest
end Realign
