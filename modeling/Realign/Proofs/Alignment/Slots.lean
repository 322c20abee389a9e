import Realign.Proofs.Alignment.Frame
import Realign.Proofs.Forest.Enumeration

/-!
The slots that a pass holds. A pass takes the slots of its forest when it begins and walks through
them three times, and between any two of its steps every slot has the artifact in it that
stood there at the beginning, relocated if its turn has come and with another version at
most after that. So no step of these walks comes to an empty slot.
-/
namespace Realign.Alignment

variable {plan : Plan} {F : Forest} {s t : State} {slot : Slot} {a b : Artifact}

/-- The phases of a pass that walk through slots. -/
inductive Phase where
  | relocation
  | alignment
  | verification
deriving DecidableEq, Repr

/-- The state of a pass between two steps of a phase, with the slots whose turn is still to come. -/
inductive Point (plan : Plan) (F : Forest) : Phase → List Slot → State → Prop
  | relocation {before rest : List Slot} (hslots : before ++ rest = F.slots) :
    Point plan F .relocation rest (relocate plan before ⟨F, {}, {}⟩)
  | alignment {before rest : List Slot} {s t : State} (hslots : before ++ rest = F.slots)
    (hmodules : Walk.untilFault (alignModule plan) F.indices (relocate plan F.slots ⟨F, {}, {}⟩) =
      (s, none))
    (hwalk : Walk.untilFault (alignSlot plan) before s = (t, none)) :
    Point plan F .alignment rest t
  | verification {before rest : List Slot} {s t : State} (hslots : before ++ rest = F.slots)
    (hwishes : enterWishes plan F = (s, none))
    (hwalk : Walk.untilFault (verifySlot plan) before s = (t, none)) :
    Point plan F .verification rest t

/-- What has become of an artifact by a phase in which its turn is still to come or not. -/
def Kept (table : RelocationTable) (waiting : Prop) (a b : Artifact) : Phase → Prop
  | .relocation => (waiting → b = a) ∧ (¬ waiting → b = relocated table a)
  | .alignment | .verification => Reversioned (relocated table a) b

/-- Every slot of the forest that a pass began with is still a slot, and has the same artifact. -/
structure Holds (plan : Plan) (F : Forest) (phase : Phase) (rest : List Slot) (s : State) :
    Prop where
  suffix : rest <:+ F.slots
  slots : s.forest.slots = F.slots
  found : ∀ slot ∈ rest, s.forest.artifact? slot ≠ none
  kept : ∀ slot ∈ F.slots, ∃ a b, F.artifact? slot = some a ∧ s.forest.artifact? slot = some b ∧
    Kept plan.relocations (slot ∈ rest) a b phase

section Shape

theorem sameShape_relocateSlot (table : RelocationTable) (s : State) (slot : Slot) :
    Forest.SameShape s.forest (relocateSlot table s slot).forest := by
  rcases relocateSlot_forest table s slot with hs | ⟨f, hs⟩
  · rw [hs]
    exact Forest.SameShape.refl _
  · rw [hs]
    exact s.forest.sameShape_modifyArtifact slot f

theorem sameShape_alignModule (plan : Plan) (s : State) (i : Nat) :
    Forest.SameShape s.forest (alignModule plan s i).1.forest := by
  rcases (alignModule_cases plan s i).2 with hs | ⟨m, target, subject, -, -, -, hs, -⟩
  · rw [hs]
    exact Forest.SameShape.refl _
  · rw [hs]
    exact s.forest.sameShape_setVersion i target.version

theorem sameShape_alignSlot (plan : Plan) (s : State) (slot : Slot) :
    Forest.SameShape s.forest (alignSlot plan s slot).1.forest := by
  rcases alignSlot_cases plan s slot with ⟨hs, -⟩ | ⟨a, version, target, subject, -, -, -, -, hs, -⟩
  · rw [hs]
    exact Forest.SameShape.refl _
  · rw [hs]
    exact s.forest.sameShape_modifyArtifact slot _

end Shape

namespace Point

variable {phase : Phase} {rest : List Slot}

theorem suffix (h : Point plan F phase rest s) : rest <:+ F.slots := by
  cases h with
  | relocation hslots => exact ⟨_, hslots⟩
  | alignment hslots _ _ => exact ⟨_, hslots⟩
  | verification hslots _ _ => exact ⟨_, hslots⟩

/-- What holds once all slots are relocated, and is kept by every step after that, holds at every
point of the later phases. -/
theorem invariant_of_relocated {P : State → Prop} (h : Point plan F phase rest s)
    (hphase : phase ≠ .relocation) (hrelocated : P (relocate plan F.slots ⟨F, {}, {}⟩))
    (hmodule : ∀ s i, P s → P (alignModule plan s i).1)
    (halign : ∀ s slot, P s → P (alignSlot plan s slot).1)
    (hverify : ∀ s slot, P s → P (verifySlot plan s slot).1) : P s := by
  cases h with
  | relocation => exact absurd rfl hphase
  | @alignment before _ s₁ t hslots hmodules hwalk =>
    have hstart : P (Walk.untilFault (alignModule plan) F.indices
        (relocate plan F.slots ⟨F, {}, {}⟩)).1 :=
      Walk.untilFault_invariant (fun s i _ => hmodule s i) _ hrelocated
    rw [hmodules] at hstart
    have hend : P (Walk.untilFault (alignSlot plan) before s₁).1 :=
      Walk.untilFault_invariant (fun s slot _ => halign s slot) _ hstart
    rwa [hwalk] at hend
  | @verification before _ s₁ t hslots hwishes hwalk =>
    have hstart : P (enterWishes plan F).1 :=
      enterWishes_invariant plan F hrelocated hmodule fun s slot _ => halign s slot
    rw [hwishes] at hstart
    have hend : P (Walk.untilFault (verifySlot plan) before s₁).1 :=
      Walk.untilFault_invariant (fun s slot _ => hverify s slot) _ hstart
    rwa [hwalk] at hend

/-- A pass changes no place and no length of a list before it adds targets. -/
theorem sameShape (h : Point plan F phase rest s) : Forest.SameShape F s.forest := by
  have hrelocate (slots : List Slot) :
      Forest.SameShape F (relocate plan slots ⟨F, {}, {}⟩).forest := by
    apply relocate_invariant (P := fun s => Forest.SameShape F s.forest)
    · intro s slot _ hs
      exact hs.trans (sameShape_relocateSlot plan.relocations s slot)
    · exact Forest.SameShape.refl F
  by_cases hphase : phase = .relocation
  · subst hphase
    cases h
    exact hrelocate _
  · apply h.invariant_of_relocated (P := fun s => Forest.SameShape F s.forest) hphase
    · exact hrelocate F.slots
    · intro s i hs
      exact hs.trans (sameShape_alignModule plan s i)
    · intro s slot hs
      exact hs.trans (sameShape_alignSlot plan s slot)
    · intro s slot hs
      rwa [(verifySlot_cases plan s slot).1]

theorem reversioned (h : Point plan F phase rest s) (hphase : phase ≠ .relocation)
    (hslot : slot ∈ F.slots) (ha : F.artifact? slot = some a) :
    ∃ b, s.forest.artifact? slot = some b ∧ Reversioned (relocated plan.relocations a) b := by
  apply h.invariant_of_relocated (P := fun s => ∃ b, s.forest.artifact? slot = some b ∧
    Reversioned (relocated plan.relocations a) b) hphase
  · rw [artifact?_relocate plan F.nodup_slots, if_pos hslot, ha]
    exact ⟨_, rfl, rfl, rfl⟩
  · intro s i hs
    rwa [artifact?_alignModule]
  · intro s other hs
    exact reversioned_alignSlot other hs
  · intro s other hs
    rwa [(verifySlot_cases plan s other).1]

/-- While slots are relocated an artifact is relocated if its turn has come. -/
theorem relocating (h : Point plan F .relocation rest s) (hslot : slot ∈ F.slots)
    (ha : F.artifact? slot = some a) :
    ∃ b, s.forest.artifact? slot = some b ∧ (slot ∈ rest → b = a) ∧
      (slot ∉ rest → b = relocated plan.relocations a) := by
  cases h with
  | @relocation before _ hslots =>
    have hnd := F.nodup_slots
    rw [← hslots] at hnd hslot
    have hbefore := hnd.of_append_left
    rw [artifact?_relocate plan hbefore]
    by_cases hrest : slot ∈ rest
    · have hnot : slot ∉ before := fun hmem => hnd.disjoint hmem hrest
      rw [if_neg hnot]
      exact ⟨a, ha, fun _ => rfl, fun h => absurd hrest h⟩
    · have hmem : slot ∈ before := (List.mem_append.1 hslot).resolve_right hrest
      rw [if_pos hmem]
      exact ⟨_, by simp [ha], fun h => absurd h hrest, fun _ => rfl⟩

theorem holds (h : Point plan F phase rest s) : Holds plan F phase rest s := by
  have hkept : ∀ slot ∈ F.slots, ∃ a b, F.artifact? slot = some a ∧
      s.forest.artifact? slot = some b ∧ Kept plan.relocations (slot ∈ rest) a b phase := by
    intro slot hslot
    obtain ⟨a, ha⟩ := (Forest.of_mem_slots hslot).2
    cases phase with
    | relocation =>
      obtain ⟨b, hb, hab⟩ := h.relocating hslot ha
      exact ⟨a, b, ha, hb, hab⟩
    | alignment =>
      obtain ⟨b, hb, hab⟩ := h.reversioned nofun hslot ha
      exact ⟨a, b, ha, hb, hab⟩
    | verification =>
      obtain ⟨b, hb, hab⟩ := h.reversioned nofun hslot ha
      exact ⟨a, b, ha, hb, hab⟩
  refine ⟨h.suffix, h.sameShape.slots, ?_, hkept⟩
  intro slot hslot
  obtain ⟨a, b, -, hb, -⟩ := hkept slot (h.suffix.subset hslot)
  rw [hb]
  nofun

end Point

/-- The slots of a forest enumerate its active artifacts, and those that a pass takes at its
beginning never go stale. -/
theorem slots_never_stale (F : Forest) :
    F.Enumerated ∧ ∀ plan phase rest s, Point plan F phase rest s → Holds plan F phase rest s :=
  ⟨F.enumerated, fun _ _ _ _ h => h.holds⟩

/-- One dependency of the shared forest is relocated before it is aligned. -/
def relocatingPlan : Plan where
  policy := tolerant
  targets.versions := .ofRows [(⟨"org.dep", "a"⟩, "2.0.redhat-1"),
    (⟨"org.dep", "c"⟩, "3.0.redhat-1")]
  relocations := .put .empty ⟨"org.dep", "b"⟩ ⟨⟨"org.dep", "b"⟩, ⟨"org.dep", "c"⟩, none⟩

theorem relocatingPlan_slots :
    sharedForest.Enumerated ∧ ∃ s, enterWishes relocatingPlan sharedForest = (s, none) ∧
      s.forest ≠ sharedForest ∧
      Point relocatingPlan sharedForest .verification sharedForest.slots s ∧
      Holds relocatingPlan sharedForest .verification sharedForest.slots s := by
  have hwishes : enterWishes relocatingPlan sharedForest =
      ((enterWishes relocatingPlan sharedForest).1, none) := Prod.ext rfl (by decide +kernel)
  have hpoint := @Point.verification _ _ [] _ _ _ rfl hwishes rfl
  obtain ⟨henumerated, hholds⟩ := slots_never_stale sharedForest
  refine ⟨henumerated, _, hwishes, ?_, hpoint, hholds _ _ _ _ hpoint⟩
  intro heq
  have hlookup := congrArg (fun F : Forest => F.artifact? ⟨1, .main, .dependency, 1⟩) heq
  revert hlookup
  decide +kernel

end Realign.Alignment
