import Realign.Proofs.Alignment.Frame
import Realign.Proofs.Report.Lineage

/-!
Relocations as a comparison finds them. A pass relocates artifacts in their slots, while a
comparison knows nothing of slots: it takes an artifact to be relocated if its coordinate is new in
its list and a rule leads there from a coordinate that stood in the list before. Where several
lead there it names the first of them, which need not be the one that the artifact came from, but
it misses none that a pass has relocated to a new coordinate. For that the place of the artifact
must be compared with itself, so no id of a profile may be repeated.
-/
namespace Realign

/-- Whether a rule of the table gives artifacts with the first coordinate the second one. -/
def RelocationTable.Relocates (table : RelocationTable) (old new : Ident) : Prop :=
  ∃ rule, table.get? old = some rule ∧ rule.relocate old = new

/-- The id of the profile that a place is in. -/
def Module.profileId? (m : Module) : Place → Option String
  | .main => none
  | .profile index => (m.profiles[index]?).map Profile.id

theorem Module.active_of_mem_places {m : Module} {index : Nat} {profile : Profile}
    (h : .profile index ∈ m.places) (hprofile : m.profiles[index]? = some profile) :
    profile.active = true := by
  rw [places_eq] at h
  obtain ⟨row, hrow, heq⟩ := List.mem_map.1 ((List.mem_cons.1 h).resolve_left nofun)
  obtain rfl := Place.profile.inj heq
  obtain ⟨hmem, hactive⟩ := List.mem_filter.1 hrow
  rw [List.mem_zipIdx_iff_getElem?.1 hmem] at hprofile
  rwa [← Option.some.inj hprofile]

namespace Forest

variable {F G : Forest} {i : Nat} {m n : Module} {slot : Slot} {a : Artifact}

/-- The list of artifacts that a slot is in. -/
def listOf (F : Forest) (slot : Slot) : List Artifact :=
  (F.artifacts? slot.holder slot.place slot.kind).getD []

theorem Framed.module (h : Framed F G) (hm : F.modules[i]? = some m)
    (hn : G.modules[i]? = some n) :
    n.ident = m.ident ∧ n.profiles.map Profile.row = m.profiles.map Profile.row := by
  have hlink := congrArg (·[i]?) h.links
  have hrows := h.profiles i
  simp only [Forest.links, List.getElem?_map, hm, hn, Option.map_some, Option.some.injEq] at hlink
  simp only [Forest.profiles?, hm, hn, Option.map_some, Option.some.injEq] at hrows
  exact ⟨congrArg Link.ident hlink, hrows⟩

/-- What there is around an artifact: its module, what the module declares at its place, and its
list. -/
theorem exists_body_of_artifact? (ha : F.artifact? slot = some a) :
    ∃ m body, F.modules[slot.holder]? = some m ∧ m.body? slot.place = some body ∧
      F.listOf slot = body.artifacts.get slot.kind ∧ a ∈ body.artifacts.get slot.kind := by
  obtain ⟨m, hm, ha⟩ := Option.bind_eq_some_iff.1 ha
  obtain ⟨body, hbody, ha⟩ := Option.bind_eq_some_iff.1 ha
  refine ⟨m, body, hm, hbody, ?_, List.mem_of_getElem? ha⟩
  rw [listOf, artifacts?, body?, hm, Option.bind_some, hbody, Option.map_some, Option.getD_some]

end Forest

namespace Report

open Realign.Alignment

variable {p : Policy} {table : RelocationTable} {sides : Sides} {F G : Forest}
  {old new m n : Module} {place : Place} {entry : ReportEntry}

section Entries

theorem exists_relocatedFrom? {previous : List Artifact} {a : Artifact} {y : Ident}
    (ha : a ∈ previous) (hy : table.Relocates a.ident y) :
    ∃ origin, relocatedFrom? table previous y = some origin ∧
      origin ∈ previous.map Artifact.ident ∧ table.Relocates origin y := by
  have hsome : (relocatedFrom? table previous y).isSome = true := by
    obtain ⟨rule, hrule, hto⟩ := hy
    rw [relocatedFrom?, List.find?_isSome]
    exact ⟨a.ident, List.mem_map_of_mem ha, by simp [hrule, hto]⟩
  obtain ⟨origin, horigin⟩ := Option.isSome_iff_exists.1 hsome
  refine ⟨origin, horigin, List.mem_of_find?_eq_some horigin, ?_⟩
  have hleads := List.find?_some horigin
  split at hleads
  · rename_i rule hrule
    exact ⟨rule, hrule, of_decide_eq_true hleads⟩
  · cases hleads

/-- An artifact with a new coordinate that a rule leads to is reported as relocated. -/
theorem exists_differenceOf? (sides : Sides) (location : Location) {previous : List Artifact}
    {a b : Artifact} (hnew : b.ident ∉ previous.map Artifact.ident) (ha : a ∈ previous)
    (hy : sides.relocations.Relocates a.ident b.ident) :
    ∃ origin ∈ previous.map Artifact.ident, sides.relocations.Relocates origin b.ident ∧
      differenceOf? sides location previous b =
        some (.relocated location origin b.ident (b.version.map (resolved sides.new))) := by
  have hnone : previous.find? (fun q => q.ident = b.ident) = none := by
    rw [List.find?_eq_none]
    intro q hq hident
    exact hnew (List.mem_map.2 ⟨q, hq, of_decide_eq_true hident⟩)
  obtain ⟨origin, horigin, hmem, hleads⟩ := exists_relocatedFrom? ha hy
  refine ⟨origin, hmem, hleads, ?_⟩
  unfold differenceOf?
  rw [hnone]
  dsimp only
  rw [horigin, Option.map_some]

/-- Where no id of a profile is repeated a place that counts is compared with itself. -/
theorem mem_comparedPlaces {previous body : Declarations}
    (hrows : new.profiles.map Profile.row = old.profiles.map Profile.row)
    (hids : (old.profiles.map Profile.id).Nodup) (hplace : place ∈ old.places)
    (hprevious : old.body? place = some previous) (hbody : new.body? place = some body) :
    (old.profileId? place, previous, body) ∈ comparedPlaces old new := by
  cases place with
  | main =>
    obtain rfl := Option.some.inj hprevious
    obtain rfl := Option.some.inj hbody
    exact List.mem_cons_self ..
  | profile index =>
    obtain ⟨first, hfirst, rfl⟩ := Option.map_eq_some_iff.1 hprevious
    obtain ⟨profile, hprofile, rfl⟩ := Option.map_eq_some_iff.1 hbody
    have hrow := congrArg (·[index]?) hrows
    simp only [List.getElem?_map, hfirst, hprofile, Option.map_some, Option.some.injEq,
      Profile.row, Prod.mk.injEq] at hrow
    obtain ⟨hid, hactive⟩ := hrow
    have hcounts := Module.active_of_mem_places hplace hfirst
    -- the first old profile of this id is the one at the same index
    have hfound := find?_of_nodup hids (List.mem_of_getElem? hfirst)
    apply List.mem_cons_of_mem
    refine List.mem_filterMap.2 ⟨profile, List.mem_filter.2 ⟨List.mem_of_getElem? hprofile, ?_⟩, ?_⟩
    · rw [hactive, hcounts]
    · rw [hid, hfound, Module.profileId?, hfirst]
      rfl

theorem mem_moduleEntries {location : Location} {previous body : Declarations} {b : Artifact}
    (hplace : (location.profile, previous, body) ∈ comparedPlaces old new)
    (hb : b ∈ body.artifacts.get location.kind)
    (hentry : differenceOf? sides location (previous.artifacts.get location.kind) b = some entry) :
    entry ∈ moduleEntries sides old new := by
  have hkind : location.kind ∈ ArtifactKind.all := by
    cases location.kind <;> decide
  refine List.mem_append_right _ (List.mem_flatMap.2 ⟨_, hplace, List.mem_append_right _ ?_⟩)
  exact List.mem_flatMap.2 ⟨_, hkind, List.mem_filterMap.2 ⟨b, hb, hentry⟩⟩

/-- The modules of one identity in two forests are compared, and what differs is reported under
that identity. -/
theorem exists_report (p : Policy) (table : RelocationTable) (hm : m ∈ F.modules)
    (hn : n ∈ G.modules) (hident : n.ident = m.ident) :
    ∃ r r' : Resolver, ∀ entry ∈ moduleEntries ⟨p, table, r, r'⟩ m n,
      ∃ report ∈ (compare p table F.modules G.modules).modules,
        report.ident = m.ident ∧ entry ∈ report.entries := by
  have hnewer := (get?_indexOf_eq_some_iff G.distinct).2 ⟨hn, rfl⟩
  have holder := (get?_indexOf_eq_some_iff F.distinct).2 ⟨hm, hident.symm⟩
  let pair : Pair := ⟨⟨p, table, .ofChain (lineage (indexOf F.modules) m),
    .ofChain (lineage (indexOf G.modules) n)⟩, m, n⟩
  have hpair : pair ∈ pairs p table F.modules G.modules := by
    refine List.mem_filterMap.2 ⟨(n.ident, n), Table.get?_eq_some.1 hnewer, ?_⟩
    dsimp only
    rw [holder]
    rfl
  refine ⟨pair.sides.old, pair.sides.new, fun entry hentry => ?_⟩
  have hfull : ¬ (moduleEntries pair.sides m n).isEmpty = true := by
    rw [List.isEmpty_iff]
    exact List.ne_nil_of_mem hentry
  exact ⟨⟨n.ident, moduleEntries pair.sides m n⟩,
    List.mem_filterMap.2 ⟨pair, hpair, if_neg hfull⟩, hident, hentry⟩

end Entries

section Run

variable {plan : Plan} {slot : Slot} {a : Artifact} {y : Ident}

theorem ident_relocated (h : table.Relocates a.ident y) : (relocated table a).ident = y := by
  obtain ⟨rule, hrule, rfl⟩ := h
  rw [relocated, hrule]
  rfl

/-- Where a report tells of an artifact in a slot. -/
def locationOf (F : Forest) (slot : Slot) : Location where
  kind := slot.kind
  profile := (F.modules[slot.holder]?).bind (·.profileId? slot.place)

/-- A pass that relocates an artifact to a coordinate which is new in its list leaves it there,
however the pass ends, and a comparison of the modules before and after reports it: for the
module, at the place of the artifact, as a relocation from a coordinate that stood in the list
and that a rule leads from. -/
theorem relocation_reported (p : Policy) (plan : Plan) (F : Forest)
    (hids : ∀ m ∈ F.modules, (m.profiles.map Profile.id).Nodup) (hslot : slot ∈ F.slots)
    (ha : F.artifact? slot = some a) (hy : plan.relocations.Relocates a.ident y)
    (hnew : y ∉ (F.listOf slot).map Artifact.ident) :
    (∃ b, (run plan F).1.forest.artifact? slot = some b ∧ b.ident = y) ∧
      ∃ report ∈ (compare p plan.relocations F.modules (run plan F).1.forest.modules).modules,
        report.ident = F.identOf slot.holder ∧
          ∃ origin ∈ (F.listOf slot).map Artifact.ident, plan.relocations.Relocates origin y ∧
            ∃ version, .relocated (locationOf F slot) origin y version ∈ report.entries := by
  obtain ⟨b, hb, hident, -⟩ := reversioned_run plan hslot ha
  rw [ident_relocated hy] at hident
  subst hident
  refine ⟨⟨b, hb, rfl⟩, ?_⟩
  obtain ⟨m, previous, hm, hprevious, hlist, hmem⟩ := Forest.exists_body_of_artifact? ha
  obtain ⟨n, body, hn, hbody, -, hmem'⟩ := Forest.exists_body_of_artifact? hb
  obtain ⟨hsame, hrows⟩ := (framed_run plan F).module hm hn
  have hplace : slot.place ∈ m.places := by
    have hcounts := (Forest.of_mem_slots hslot).1
    rwa [Forest.placesOf, hm] at hcounts
  have hcompared := mem_comparedPlaces hrows (hids m (List.mem_of_getElem? hm)) hplace hprevious
    hbody
  -- whatever the versions resolve to, the entry is there
  obtain ⟨r, r', hall⟩ := exists_report p plan.relocations (List.mem_of_getElem? hm)
    (List.mem_of_getElem? hn) hsame
  have hlocation : locationOf F slot = ⟨slot.kind, m.profileId? slot.place⟩ := by
    rw [locationOf, hm]
    rfl
  rw [hlist] at hnew ⊢
  rw [hlocation]
  obtain ⟨origin, horigin, hleads, hentry⟩ := exists_differenceOf?
    ⟨p, plan.relocations, r, r'⟩ ⟨slot.kind, m.profileId? slot.place⟩ hnew hmem hy
  obtain ⟨report, hreport, hident, htold⟩ := hall _ (mem_moduleEntries hcompared hmem' hentry)
  refine ⟨report, hreport, ?_, origin, horigin, hleads, _, htold⟩
  rw [hident, Forest.identOf, hm]
  rfl

/-- Two rules, one of them for a whole group, lead from the artifacts of an active profile to one
coordinate. -/
def mergingPlan : Plan where
  policy := {}
  targets := {}
  relocations := .put (.put .empty ⟨"org.old", "*"⟩ ⟨⟨"org.old", "*"⟩, ⟨"org.new", "*"⟩, none⟩)
    ⟨"org.other", "b"⟩ ⟨⟨"org.other", "b"⟩, ⟨"org.new", "a"⟩, some "2.0"⟩

def mergingForest : Forest where
  modules := [
    { ident := ⟨"org.foo", "app"⟩, version := "1.0",
      profiles := [
        { id := "it", active := true,
          body.artifacts.dependencies := [
            { ident := ⟨"org.old", "a"⟩, version := some "1.0" },
            { ident := ⟨"org.other", "b"⟩, version := some "1.0" }] }] }]
  grounded := ⟨by decide, by decide⟩

theorem merging_relocation_reported :
    (∃ b, (run mergingPlan mergingForest).1.forest.artifact? ⟨0, .profile 0, .dependency, 1⟩ =
        some b ∧ b.ident = ⟨"org.new", "a"⟩) ∧
      ∃ report ∈ (compare {} mergingPlan.relocations mergingForest.modules
          (run mergingPlan mergingForest).1.forest.modules).modules,
        report.ident = ⟨"org.foo", "app"⟩ ∧
          ∃ origin ∈ [⟨"org.old", "a"⟩, ⟨"org.other", "b"⟩],
            mergingPlan.relocations.Relocates origin ⟨"org.new", "a"⟩ ∧
              ∃ version, .relocated ⟨.dependency, some "it"⟩ origin ⟨"org.new", "a"⟩ version ∈
                report.entries :=
  relocation_reported {} mergingPlan mergingForest (by decide) (by decide +kernel) rfl
    ⟨_, rfl, rfl⟩ (by decide +kernel)

end Run

end Report
end Realign
