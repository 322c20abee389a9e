import Realign.Proofs.Report.Lineage

/-!
When a comparison has nothing to report. Two modules that are compared must have one version. Each
place must give every property the value that it had, and every artifact the version that the
first artifact of the same identity had there, and it must bring no artifact about that a
relocation explains. In a comparison of a set of modules with itself only repetitions stand in the
way: of an identity in a list, or of an id among profiles, since what is repeated is compared with
what came first.
-/
namespace Realign

namespace Report

variable {p : Policy} {table : RelocationTable} {sides : Sides} {before after x : List Module}
  {m old new : Module}

/-- Every version resolves to that of the first artifact of the same identity, if both have one. -/
def SameVersions (r r' : Resolver) (previous current : List Artifact) : Prop :=
  ∀ a ∈ current, ∀ first, previous.find? (fun b => b.ident = a.ident) = some first →
    ∀ v w, first.version = some v → a.version = some w → resolved r v = resolved r' w

/-- What a place declares now is what it declared before or is explained by nothing. -/
structure Unchanged (table : RelocationTable) (r r' : Resolver) (previous body : Declarations) :
    Prop where
  properties : ∀ name value, body.properties.get? name = some value →
    previous.properties.get? name = some value
  versions : ∀ kind, SameVersions r r' (previous.artifacts.get kind) (body.artifacts.get kind)
  relocations : ∀ kind, ∀ a ∈ body.artifacts.get kind,
    (previous.artifacts.get kind).find? (fun b => b.ident = a.ident) = none →
      relocatedFrom? table (previous.artifacts.get kind) a.ident = none

section Entries

theorem propertyEntries_eq_nil_iff {profile : Option String} {old new : Table String String} :
    propertyEntries profile old new = [] ↔
      ∀ name value, new.get? name = some value → old.get? name = some value := by
  simp only [propertyEntries, List.filterMap_eq_nil_iff, Prod.forall, ite_eq_left_iff,
    reduceCtorEq, imp_false, Classical.not_not, Table.get?_eq_some (t := new)]

theorem differenceOf?_eq_none_iff (hquiet : sides.policy.reportNonAligned = false)
    {location : Location} {previous : List Artifact} {a : Artifact} :
    differenceOf? sides location previous a = none ↔
      (∀ first, previous.find? (fun b => b.ident = a.ident) = some first →
        ∀ v w, first.version = some v → a.version = some w →
          resolved sides.old v = resolved sides.new w) ∧
      (previous.find? (fun b => b.ident = a.ident) = none →
        relocatedFrom? sides.relocations previous a.ident = none) := by
  unfold differenceOf?
  cases hf : previous.find? (fun b => b.ident = a.ident) with
  | none => simp
  | some first => cases hv : first.version <;> cases hw : a.version <;> simp [hv, hquiet]

theorem bodyEntries_eq_nil_iff (hquiet : sides.policy.reportNonAligned = false)
    {profile : Option String} {previous body : Declarations} :
    bodyEntries sides profile previous body = [] ↔
      Unchanged sides.relocations sides.old sides.new previous body := by
  have hall (kind : ArtifactKind) : kind ∈ ArtifactKind.all := by cases kind <;> decide
  simp only [bodyEntries, artifactEntries, List.append_eq_nil_iff, propertyEntries_eq_nil_iff,
    List.flatMap_eq_nil_iff, List.filterMap_eq_nil_iff, differenceOf?_eq_none_iff hquiet]
  constructor
  · intro h
    obtain ⟨hproperties, hartifacts⟩ := h
    exact ⟨hproperties, fun kind a ha => (hartifacts kind (hall kind) a ha).1,
      fun kind a ha => (hartifacts kind (hall kind) a ha).2⟩
  · intro h
    exact ⟨h.properties, fun kind _ a ha => ⟨h.versions kind a ha, h.relocations kind a ha⟩⟩

theorem moduleEntries_eq_nil_iff (hquiet : sides.policy.reportNonAligned = false) :
    moduleEntries sides old new = [] ↔
      old.version = new.version ∧
        ∀ row ∈ comparedPlaces old new,
          Unchanged sides.relocations sides.old sides.new row.2.1 row.2.2 := by
  simp only [moduleEntries, List.append_eq_nil_iff, List.flatMap_eq_nil_iff,
    bodyEntries_eq_nil_iff hquiet, ite_eq_right_iff, List.cons_ne_nil, imp_false, ne_eq,
    Classical.not_not]

/-- A report is empty if no two modules that are compared differ. -/
theorem compare_isEmpty_iff :
    (compare p table before after).isEmpty = true ↔
      ∀ pair ∈ pairs p table before after, moduleEntries pair.sides pair.old pair.new = [] := by
  simp only [compare, isEmpty, List.isEmpty_iff, List.filterMap_eq_nil_iff, Pair.report?,
    ite_eq_left_iff, reduceCtorEq, imp_false, Classical.not_not]

end Entries

section Self

/-- The chain along which a comparison of modules with themselves resolves versions. -/
def chainResolver (x : List Module) (m : Module) : Resolver := .ofChain (lineage (indexOf x) m)

def selfSides (p : Policy) (table : RelocationTable) (x : List Module) (m : Module) : Sides :=
  ⟨p, table, chainResolver x m, chainResolver x m⟩

/-- The modules that count are compared with themselves, and no others. -/
theorem mem_pairs_self {pair : Pair} :
    pair ∈ pairs p table x x ↔
      ∃ m, (indexOf x).get? m.ident = some m ∧ pair = ⟨selfSides p table x m, m, m⟩ := by
  simp only [pairs, List.mem_filterMap, Option.map_eq_some_iff]
  constructor
  · intro h
    obtain ⟨⟨ident, new⟩, hrow, old, hold, rfl⟩ := h
    have hnew := Table.get?_eq_some.2 hrow
    rw [hnew] at hold
    obtain rfl := Option.some.inj hold
    obtain ⟨-, rfl⟩ := mem_of_indexOf hnew
    exact ⟨new, hnew, rfl⟩
  · intro h
    obtain ⟨m, hm, rfl⟩ := h
    exact ⟨(m.ident, m), Table.get?_eq_some.1 hm, m, hm, rfl⟩

/-- A module that repeats nothing with another content. An artifact that its main section repeats
resolves to one version, and an active profile declares what the first profile of its id does. -/
structure Consistent (table : RelocationTable) (r : Resolver) (m : Module) : Prop where
  main : ∀ kind, SameVersions r r (m.main.artifacts.get kind) (m.main.artifacts.get kind)
  profiles : ∀ profile ∈ m.activeProfiles, ∀ first,
    m.profiles.find? (fun q => q.id = profile.id) = some first →
      Unchanged table r r first.body profile.body

/-- A place that is compared with itself can only differ from itself by what it repeats. -/
theorem unchanged_self_iff {r : Resolver} {body : Declarations} :
    Unchanged table r r body body ↔
      ∀ kind, SameVersions r r (body.artifacts.get kind) (body.artifacts.get kind) := by
  constructor
  · exact Unchanged.versions
  · intro h
    refine ⟨fun _ _ => id, h, fun kind a ha hnone => ?_⟩
    have hself := List.find?_eq_none.1 hnone a ha
    simp at hself

theorem moduleEntries_self_eq_nil_iff (hquiet : p.reportNonAligned = false) :
    moduleEntries (selfSides p table x m) m m = [] ↔
      Consistent table (chainResolver x m) m := by
  rw [moduleEntries_eq_nil_iff hquiet, comparedPlaces, List.forall_mem_cons]
  simp only [selfSides, unchanged_self_iff, true_and]
  constructor
  · intro h
    obtain ⟨hmain, hprofiles⟩ := h
    refine ⟨hmain, fun profile hp first hfirst => ?_⟩
    exact hprofiles (some profile.id, first.body, profile.body)
      (List.mem_filterMap.2 ⟨profile, hp, by rw [hfirst]; rfl⟩)
  · intro h
    refine ⟨h.main, fun row hrow => ?_⟩
    obtain ⟨profile, hp, hrow⟩ := List.mem_filterMap.1 hrow
    obtain ⟨first, hfirst, rfl⟩ := Option.map_eq_some_iff.1 hrow
    exact h.profiles profile hp first hfirst

/-- No list of artifacts repeats an identity, and no id of a profile is repeated. -/
structure Distinct (m : Module) : Prop where
  main : ∀ kind, ((m.main.artifacts.get kind).map Artifact.ident).Nodup
  ids : (m.profiles.map Profile.id).Nodup
  profiles : ∀ profile ∈ m.profiles, ∀ kind,
    ((profile.body.artifacts.get kind).map Artifact.ident).Nodup

theorem sameVersions_of_nodup {r : Resolver} {artifacts : List Artifact}
    (h : (artifacts.map Artifact.ident).Nodup) : SameVersions r r artifacts artifacts := by
  intro a ha first hfirst v w hv hw
  rw [find?_of_nodup h ha] at hfirst
  obtain rfl := Option.some.inj hfirst
  rw [hv] at hw
  rw [Option.some.inj hw]

theorem Distinct.consistent (h : Distinct m) (table : RelocationTable) (r : Resolver) :
    Consistent table r m where
  main kind := sameVersions_of_nodup (h.main kind)
  profiles profile hp first hfirst := by
    have hmem : profile ∈ m.profiles := (List.mem_filter.1 hp).1
    rw [find?_of_nodup h.ids hmem] at hfirst
    obtain rfl := Option.some.inj hfirst
    exact unchanged_self_iff.2 fun kind => sameVersions_of_nodup (h.profiles profile hmem kind)

/-- Modules do not differ from themselves exactly if each one that counts is consistent, as it is
without repetitions. -/
theorem compare_self_isEmpty_iff (p : Policy) (table : RelocationTable) (x : List Module)
    (hquiet : p.reportNonAligned = false) :
    ((compare p table x x).isEmpty = true ↔
      ∀ m, (indexOf x).get? m.ident = some m →
        Consistent table (.ofChain (lineage (indexOf x) m)) m) ∧
    ((∀ m ∈ x, Distinct m) → (compare p table x x).isEmpty = true) := by
  have hiff : (compare p table x x).isEmpty = true ↔
      ∀ m, (indexOf x).get? m.ident = some m → Consistent table (chainResolver x m) m := by
    simp only [compare_isEmpty_iff, mem_pairs_self, ← moduleEntries_self_eq_nil_iff hquiet]
    constructor
    · intro h m hm
      exact h _ ⟨m, hm, rfl⟩
    · intro h pair hpair
      obtain ⟨m, hm, rfl⟩ := hpair
      exact h m hm
  refine ⟨hiff, fun hdistinct => hiff.2 fun m hm => ?_⟩
  exact (hdistinct m (mem_of_indexOf hm).1).consistent table _

/-- A module that declares a dependency in two versions. -/
def repeating : Module where
  ident := ⟨"org.foo", "app"⟩
  version := "1.0"
  main.artifacts.dependencies := [
    { ident := ⟨"org.dep", "a"⟩, version := some "1.0" },
    { ident := ⟨"org.dep", "a"⟩, version := some "2.0" }]

theorem repeating_compare :
    ((compare {} .empty [repeating] [repeating]).isEmpty = true ↔
      ∀ m, (indexOf [repeating]).get? m.ident = some m →
        Consistent .empty (.ofChain (lineage (indexOf [repeating]) m)) m) ∧
    ((∀ m ∈ [repeating], Distinct m) →
      (compare {} .empty [repeating] [repeating]).isEmpty = true) :=
  compare_self_isEmpty_iff {} .empty [repeating] rfl

/-- The second version of the dependency is compared with the first. -/
theorem not_forall_compare_self_isEmpty :
    ¬ ∀ (p : Policy) (table : RelocationTable) (x : List Module), p.reportNonAligned = false →
      (compare p table x x).isEmpty = true := by
  intro h
  have hempty := h {} .empty [repeating] rfl
  have hreport : (compare {} .empty [repeating] [repeating]).isEmpty = false := by
    decide +kernel
  rw [hreport] at hempty
  cases hempty

end Self

end Report
end Realign
