import Realign.Proofs.Alignment.Frame

/-!
Targets that nothing declares. What is declared when the last phase comes is read off the forest
before the pass and the rules of relocation, because nothing but relocation gives an artifact
another coordinate and no artifact comes or goes before. Each missing target is then added to
the managed dependencies of every root and to nothing else, in the order of the targets. After
that none of them is missing, unless there is no root to add them to.
-/
namespace Realign

namespace Targets

theorem nodup_rows (t : Targets) : (t.rows.map Prod.fst).Nodup := by
  rw [rows, List.map_append, List.map_map, List.map_map, List.nodup_append]
  refine ⟨t.overrides.nodup, Table.nodup_filter _ t.versions.nodup, ?_⟩
  rintro ident hover _ hversion rfl
  obtain ⟨row, hrow, rfl⟩ := List.mem_map.1 hversion
  have hnot : (!t.overrides.contains row.1) = true := (List.mem_filter.1 hrow).2
  have hcontains : t.overrides.contains row.1 = true := Table.contains_iff.2 hover
  rw [hcontains] at hnot
  cases hnot

end Targets

namespace Forest

variable {F G : Forest} {i : Nat} {place : Place} {kind : ArtifactKind} {old : List Artifact}

/-- Forests with the same frame have the same lists of artifacts, whatever is in them. -/
theorem Framed.exists_artifacts? (h : Framed F G) (hold : F.artifacts? i place kind = some old) :
    ∃ list, G.artifacts? i place kind = some list := by
  obtain ⟨body, hbody, -⟩ := Option.map_eq_some_iff.1 hold
  have hnames := h.names i place
  rw [names?, names?, properties?, properties?, hbody] at hnames
  obtain ⟨table, htable, -⟩ := Option.map_eq_some_iff.1 hnames
  obtain ⟨other, hother, -⟩ := Option.map_eq_some_iff.1 htable
  exact ⟨other.artifacts.get kind, by rw [artifacts?, hother]; rfl⟩

theorem exists_artifacts?_main (hi : i < F.size) (kind : ArtifactKind) :
    ∃ list, F.artifacts? i .main kind = some list := by
  have hm : F.modules[i]? = some F.modules[i] := List.getElem?_eq_getElem hi
  exact ⟨F.modules[i].main.artifacts.get kind, by rw [artifacts?, body?, hm]; rfl⟩

theorem Framed.artifacts?_of_idle (h : Framed F G) (hidle : place ∉ F.placesOf i) :
    G.artifacts? i place kind = F.artifacts? i place kind := by
  rw [artifacts?, h.idle i place hidle, artifacts?]

theorem nodup_roots (F : Forest) : F.roots.Nodup :=
  List.nodup_range.filter _

end Forest

namespace Alignment

variable {plan : Plan} {F G : Forest} {s t : State} {slot : Slot} {a : Artifact} {i : Nat}
  {place : Place} {kind : ArtifactKind}

section Declared

theorem mem_declaredIdents {ident : Ident} :
    ident ∈ declaredIdents F ↔
      (∃ slot ∈ F.slots, ∃ a, F.artifact? slot = some a ∧ a.ident = ident) ∨
        ∃ link ∈ F.links, link.ident = ident := by
  simp [declaredIdents, Forest.links, Module.link, Option.map_eq_some_iff]

theorem mem_declaredIdents_of_extends (h : Forest.Extends F G) {ident : Ident}
    (hident : ident ∈ declaredIdents F) : ident ∈ declaredIdents G := by
  rw [mem_declaredIdents] at hident ⊢
  rcases hident with ⟨slot, hslot, a, ha, hi⟩ | hlink
  · exact Or.inl ⟨slot, h.mem_slots ha hslot, a, h.artifacts slot a ha, hi⟩
  · right
    rwa [h.same.links]

/-- Whether a coordinate is declared once artifacts are relocated: by one of them in a place that
counts, or as the identity of a module. -/
def Declares (plan : Plan) (F : Forest) (ident : Ident) : Prop :=
  (∃ slot ∈ F.slots, ∃ a, F.artifact? slot = some a ∧
    (relocated plan.relocations a).ident = ident) ∨ ∃ m ∈ F.modules, m.ident = ident

/-- The artifacts that count before targets are added are those from before the pass. -/
theorem exists_slot_revise_iff (plan : Plan) (F : Forest) (ident : Ident) :
    (∃ slot ∈ (revise plan F).1.forest.slots, ∃ b,
        (revise plan F).1.forest.artifact? slot = some b ∧ b.ident = ident) ↔
      ∃ slot ∈ F.slots, ∃ a, F.artifact? slot = some a ∧
        (relocated plan.relocations a).ident = ident := by
  have hplaces := (framed_revise plan F).places
  constructor
  · rintro ⟨slot, hslot, b, hb, hident⟩
    -- a slot that is taken now was taken from the start, by the artifact that was relocated
    cases ha : F.artifact? slot with
    | none =>
      rw [artifact?_revise_eq_none plan ha] at hb
      cases hb
    | some a =>
      have hplace := (Forest.of_mem_slots hslot).1
      rw [hplaces] at hplace
      have hslotF := Forest.mem_slots ha hplace
      obtain ⟨b', hb', hab⟩ := reversioned_revise plan hslotF ha
      obtain rfl : b' = b := Option.some.inj (hb'.symm.trans hb)
      exact ⟨slot, hslotF, a, ha, hab.1.symm.trans hident⟩
  · rintro ⟨slot, hslot, a, ha, hident⟩
    obtain ⟨b, hb, hab⟩ := reversioned_revise plan hslot ha
    have hplace := (Forest.of_mem_slots hslot).1
    rw [← hplaces] at hplace
    exact ⟨slot, Forest.mem_slots hb hplace, b, hb, hab.1.trans hident⟩

/-- What is declared when targets are added can be told before the pass. -/
theorem mem_declaredIdents_revise (plan : Plan) (F : Forest) (ident : Ident) :
    ident ∈ declaredIdents (revise plan F).1.forest ↔ Declares plan F ident := by
  rw [mem_declaredIdents, exists_slot_revise_iff, (framed_revise plan F).links, Declares]
  simp [Forest.links, Module.link]

end Declared

section Added

/-- The lists that targets are added to: the managed dependencies of the roots. -/
def Receives (F : Forest) (i : Nat) (place : Place) (kind : ArtifactKind) : Prop :=
  i ∈ F.roots ∧ place = .main ∧ kind = .managedDependency

instance (F : Forest) (i : Nat) (place : Place) (kind : ArtifactKind) :
    Decidable (Receives F i place kind) :=
  inferInstanceAs (Decidable (_ ∧ _))

theorem receives_congr (hroots : G.roots = F.roots) :
    Receives G i place kind ↔ Receives F i place kind := by
  rw [Receives, hroots, Receives]

/-- A target as it is added to a list of artifacts. -/
def artifactOf (row : Ident × Target) : Artifact := ⟨row.1, some row.2.version, none⟩

/-- A target as it is reported. -/
def coordinateOf (row : Ident × Target) : Coordinate := ⟨row.1, some row.2.version⟩

theorem artifacts?_foldl_append (a : Artifact) {roots : List Nat} (hnd : roots.Nodup)
    (F : Forest) :
    Forest.artifacts? (roots.foldl
        (fun F root => F.modifyArtifacts root .main .managedDependency (· ++ [a])) F)
        i place kind =
      if i ∈ roots ∧ place = .main ∧ kind = .managedDependency then
        (F.artifacts? i place kind).map (· ++ [a])
      else F.artifacts? i place kind := by
  induction roots generalizing F with
  | nil => simp
  | cons root roots ih =>
    rw [List.nodup_cons] at hnd
    rw [List.foldl_cons, ih hnd.2, Forest.artifacts?_modifyArtifacts]
    by_cases hroot : root = i
    · subst hroot
      simp [hnd.1, eq_comm]
    · simp [hroot, Ne.symm hroot]

/-- The step of a target puts it at the end of the lists that receive targets, and no list changes
otherwise. -/
theorem artifacts?_injectTarget (s : State) (row : Ident × Target) :
    (injectTarget s row.1 row.2).forest.artifacts? i place kind =
      if Receives s.forest i place kind then
        (s.forest.artifacts? i place kind).map (· ++ [artifactOf row])
      else s.forest.artifacts? i place kind := by
  unfold injectTarget
  split
  · rename_i hempty
    rw [if_neg]
    rintro ⟨hroot, -⟩
    rw [List.isEmpty_iff.1 hempty] at hroot
    cases hroot
  · exact artifacts?_foldl_append _ s.forest.nodup_roots s.forest

/-- Adding one target after another. -/
def injectAll (s : State) (rows : List (Ident × Target)) : State :=
  rows.foldl (fun s row => injectTarget s row.1 row.2) s

theorem artifacts?_injectAll (s : State) (rows : List (Ident × Target)) :
    (injectAll s rows).forest.artifacts? i place kind =
      if Receives s.forest i place kind then
        (s.forest.artifacts? i place kind).map (· ++ rows.map artifactOf)
      else s.forest.artifacts? i place kind := by
  unfold injectAll
  induction rows generalizing s with
  | nil => simp
  | cons row rows ih =>
    -- no step changes the roots, so the next target goes to the same lists
    have hroots := (extends_injectTarget s row.1 row.2).same.sameNames.roots
    simp only [List.foldl_cons, ih, artifacts?_injectTarget, receives_congr hroots]
    split
    · rw [Option.map_map]
      congr 1
      funext list
      simp
    · rfl

theorem extends_injectAll (s : State) (rows : List (Ident × Target)) :
    Forest.Extends s.forest (injectAll s rows).forest := by
  unfold injectAll
  apply List.foldlRecOn (motive := fun t : State => Forest.Extends s.forest t.forest) _ _
    (Forest.Extends.refl _)
  intro t h row _
  exact h.trans (extends_injectTarget t row.1 row.2)

/-- Without roots there is nothing to add targets to. -/
theorem injectAll_of_rootless (hroots : s.forest.roots = []) (rows : List (Ident × Target)) :
    injectAll s rows = s := by
  unfold injectAll
  induction rows with
  | nil => rfl
  | cons row rows ih => rw [List.foldl_cons, injectTarget, hroots, if_pos List.isEmpty_nil, ih]

theorem injected_injectAll (s : State) (rows : List (Ident × Target)) :
    (injectAll s rows).log.injected =
      s.log.injected ++ if s.forest.roots = [] then [] else rows.map coordinateOf := by
  unfold injectAll
  induction rows generalizing s with
  | nil => simp
  | cons row rows ih =>
    rw [List.foldl_cons, ih, (extends_injectTarget s row.1 row.2).same.sameNames.roots]
    unfold injectTarget
    by_cases hroots : s.forest.roots = []
    · simp [hroots]
    · simp [hroots, coordinateOf]

/-- The targets that a forest lacks, in their order. -/
def missingRows (plan : Plan) (F : Forest) : List (Ident × Target) :=
  plan.targets.rows.filter fun row => isMissing (declaredIdents F) row.1

theorem mem_missingRows {row : Ident × Target} :
    row ∈ missingRows plan F ↔ row.1.isWildcard = false ∧
      plan.targets.get? row.1 = some row.2 ∧ row.1 ∉ declaredIdents F := by
  rw [missingRows, List.mem_filter, Targets.mem_rows]
  simp [isMissing, and_left_comm]

theorem inject_of_wanted (hwanted : plan.policy.overrideTransitive = true) (s : State) :
    inject plan s = injectAll s (missingRows plan s.forest) :=
  if_pos hwanted

/-- An artifact stood in its slot before or was added for a target, in the version of the target. -/
theorem artifact?_inject (h : (inject plan s).forest.artifact? slot = some a) :
    s.forest.artifact? slot = some a ∨
      ∃ target, plan.targets.get? a.ident = some target ∧ a.version = some target.version := by
  revert h
  apply inject_invariant (P := fun t : State => t.forest.artifact? slot = some a →
    s.forest.artifact? slot = some a ∨
      ∃ target, plan.targets.get? a.ident = some target ∧ a.version = some target.version)
  · intro t ident target ht ih h
    unfold injectTarget at h
    split at h
    · exact ih h
    · rcases artifact?_injectInto h with h | ⟨-, rfl⟩
      · exact ih h
      · exact Or.inr ⟨target, ht, rfl⟩
  · exact Or.inl

/-- Where there are roots, what is added is declared then. -/
theorem mem_declaredIdents_injectAll {rows : List (Ident × Target)} {row : Ident × Target}
    (hroots : s.forest.roots ≠ []) (hrow : row ∈ rows) :
    row.1 ∈ declaredIdents (injectAll s rows).forest := by
  obtain ⟨root, hroot⟩ := List.exists_mem_of_ne_nil _ hroots
  have hlt : root < s.forest.size := List.mem_range.1 (List.mem_filter.1 hroot).1
  obtain ⟨list, hlist⟩ := Forest.exists_artifacts?_main hlt .managedDependency
  have hafter : (injectAll s rows).forest.artifacts? root .main .managedDependency =
      some (list ++ rows.map artifactOf) := by
    rw [artifacts?_injectAll, if_pos ⟨hroot, rfl, rfl⟩, hlist, Option.map_some]
  have hmem : artifactOf row ∈ list ++ rows.map artifactOf :=
    List.mem_append_right _ (List.mem_map_of_mem hrow)
  obtain ⟨index, hindex⟩ := List.mem_iff_getElem?.1 hmem
  have hadded : (injectAll s rows).forest.artifact? ⟨root, .main, .managedDependency, index⟩ =
      some (artifactOf row) := by
    rw [Forest.artifact?_eq, hafter]
    exact hindex
  refine mem_declaredIdents.2 (Or.inl ⟨_, Forest.mem_slots hadded ?_, _, hadded, rfl⟩)
  rw [(extends_injectAll s rows).same.places]
  exact Forest.main_mem_placesOf hlt

/-- Adding targets to a forest that they have been added to adds nothing. -/
theorem inject_again (h : t.forest = (inject plan s).forest) :
    (inject plan t).forest = t.forest := by
  by_cases hwanted : plan.policy.overrideTransitive = true
  · rw [inject_of_wanted hwanted] at h ⊢
    by_cases hroots : s.forest.roots = []
    · have hnone : t.forest.roots = [] := by
        rw [h, (extends_injectAll s _).same.sameNames.roots, hroots]
      rw [injectAll_of_rootless hnone]
    · have hnone : missingRows plan t.forest = [] := by
        rw [List.eq_nil_iff_forall_not_mem]
        intro row hrow
        obtain ⟨hwild, ht, hnot⟩ := mem_missingRows.1 hrow
        -- a target that is missing now was missing then, and so it was added
        apply hnot
        rw [h]
        by_cases hbefore : row.1 ∈ declaredIdents s.forest
        · exact mem_declaredIdents_of_extends (extends_injectAll s _) hbefore
        · exact mem_declaredIdents_injectAll hroots (mem_missingRows.2 ⟨hwild, ht, hbefore⟩)
      rw [hnone]
      rfl
  · rw [inject, if_neg hwanted]

end Added

section Outcome

/-- What becomes of a list of artifacts before targets are added: in a place that counts they are
relocated where they stand, and in another version at most, and elsewhere nothing happens. -/
structure Carried (plan : Plan) (F : Forest) (i : Nat) (place : Place)
    (old kept : List Artifact) : Prop where
  counting : place ∈ F.placesOf i →
    List.Forall₂ (fun a b => Reversioned (relocated plan.relocations a) b) old kept
  idle : place ∉ F.placesOf i → kept = old

theorem exists_carried (plan : Plan) {old : List Artifact}
    (hold : F.artifacts? i place kind = some old) :
    ∃ kept, (revise plan F).1.forest.artifacts? i place kind = some kept ∧
      Carried plan F i place old kept := by
  have hframed := framed_revise plan F
  obtain ⟨kept, hkept⟩ := hframed.exists_artifacts? hold
  refine ⟨kept, hkept, ?_, ?_⟩
  · intro hplace
    apply forall₂_of_getElem?
    · intro n a ha
      have hslot : F.artifact? ⟨i, place, kind, n⟩ = some a := by
        rw [Forest.artifact?_eq, hold]
        exact ha
      obtain ⟨b, hb, hab⟩ := reversioned_revise plan (Forest.mem_slots hslot hplace) hslot
      rw [Forest.artifact?_eq, hkept] at hb
      exact ⟨b, hb, hab⟩
    · intro n hn
      have hnone : F.artifact? ⟨i, place, kind, n⟩ = none := by
        rw [Forest.artifact?_eq, hold]
        exact hn
      have hempty := artifact?_revise_eq_none plan hnone
      rwa [Forest.artifact?_eq, hkept] at hempty
  · intro hidle
    rw [hframed.artifacts?_of_idle hidle, hold] at hkept
    exact (Option.some.inj hkept).symm

/-- What a pass that adds targets has added: exactly those that are not declared, once each and in
the order of the targets. They are at the end of the managed dependencies of every root, no
other list has grown or shrunk, and the log tells them if there is a root. -/
structure Injected (plan : Plan) (F : Forest) (t : State) (added : List (Ident × Target)) :
    Prop where
  missing : ∀ ident target, (ident, target) ∈ added ↔
    ident.isWildcard = false ∧ plan.targets.get? ident = some target ∧ ¬ Declares plan F ident
  once : (added.map Prod.fst).Nodup
  ordered : added.Sublist plan.targets.rows
  framed : Forest.Framed F t.forest
  lists : ∀ i place kind old, F.artifacts? i place kind = some old →
    ∃ kept, Carried plan F i place old kept ∧ t.forest.artifacts? i place kind =
      some (if Receives F i place kind then kept ++ added.map artifactOf else kept)
  reported : t.log.injected = if F.roots = [] then [] else added.map coordinateOf

/-- A pass that comes through and is to add targets adds exactly those that nothing declares. -/
theorem run_injects (plan : Plan) (F : Forest) (t : State)
    (hwanted : plan.policy.overrideTransitive = true) (hrun : run plan F = (t, none)) :
    ∃ added, Injected plan F t added := by
  obtain ⟨p, u, hp, hu, rfl⟩ := run_eq_none hrun
  have hrevise : (revise plan F).1 = u := by
    rw [revise, hp]
    exact congrArg Prod.fst hu
  have hframed := framed_revise plan F
  have hdeclared := mem_declaredIdents_revise plan F
  have hroots := Forest.roots_eq_of_links hframed.links
  have hlog := injected_revise plan F
  rw [hrevise] at hframed hdeclared hroots hlog
  refine ⟨missingRows plan u.forest, ?_⟩
  have hinject := inject_of_wanted hwanted u
  constructor
  case missing =>
    intro ident target
    rw [mem_missingRows, hdeclared]
  case once => exact Table.nodup_filter _ plan.targets.nodup_rows
  case ordered => exact List.filter_sublist
  case framed => exact hframed.trans (framed_inject plan u)
  case lists =>
    intro i place kind old hold
    obtain ⟨kept, hkept, hcarried⟩ := exists_carried plan hold
    rw [hrevise] at hkept
    refine ⟨kept, hcarried, ?_⟩
    simp only [hinject, artifacts?_injectAll, hkept, receives_congr hroots]
    split <;> rfl
  case reported =>
    rw [hinject, injected_injectAll, hlog, hroots, List.nil_append]

/-- One artifact of the shared forest takes over a coordinate from another, which nothing declares
then, and a target is shadowed by an override. -/
def transitivePlan : Plan where
  policy := { overrideTransitive := true }
  targets.versions := .ofRows [(⟨"org.dep", "c"⟩, "3.1"), (⟨"org.new", "d"⟩, "1.1"),
    (⟨"org.dep", "b"⟩, "3.0"), (⟨"org.dep", "*"⟩, "9.9"), (⟨"org.foo", "root"⟩, "1.0")]
  targets.overrides := .ofRows [(⟨"org.new", "d"⟩, "1.2")]
  relocations := .put .empty ⟨"org.dep", "b"⟩ ⟨⟨"org.dep", "b"⟩, ⟨"org.dep", "c"⟩, none⟩

theorem transitivePlan_injects :
    transitivePlan.policy.overrideTransitive = true ∧
      (run transitivePlan sharedForest).2 = none ∧
      (∃ added, Injected transitivePlan sharedForest (run transitivePlan sharedForest).1 added) ∧
      (run transitivePlan sharedForest).1.log.injected =
        [⟨⟨"org.new", "d"⟩, some "1.2"⟩, ⟨⟨"org.dep", "b"⟩, some "3.0"⟩] :=
  ⟨rfl, by decide +kernel, run_injects transitivePlan sharedForest _ rfl
    (Prod.ext rfl (by decide +kernel)), by decide +kernel⟩

end Outcome

end Alignment
end Realign
