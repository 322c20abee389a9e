import Realign.Proofs.Alignment.Injection
import Realign.Proofs.Alignment.Rest

/-!
What a pass that comes through leaves. Compared with the forest that it started from, literals have
given way to literals. Versions and artifacts are those of the state in which all wishes were
entered, apart from artifacts that were added for targets. Modules and artifacts are at rest, and
every slot makes the wish that it made before.
-/
namespace Realign.Alignment

variable {plan : Plan} {F : Forest} {s t : State} {slot : Slot}

/-- The values of a forest and the targets of a plan do not get in the way of a second pass. -/
structure Repeatable (plan : Plan) (F : Forest) : Prop where
  names : F.NoFieldNames
  values : F.PlainValues
  literal : plan.targets.Literal
  relocations : plan.relocations = .empty

theorem Repeatable.of_same {G : Forest} (h : Repeatable plan F)
    (hsame : Forest.SameProperties F G) : Repeatable plan G :=
  ⟨hsame.sameNames.noFieldNames h.names, hsame.reworded.plainValues h.values, h.literal,
    h.relocations⟩

/-- The states at the ends of the phases of a pass that comes through: all wishes are entered, users
are checked, revisions are carried out. -/
structure Completed (plan : Plan) (F : Forest) (w p u : State) : Prop where
  entered : enterWishes plan F = (w, none)
  verified : Walk.untilFault (verifySlot plan) F.slots w = (p, none)
  carried : carryOutAll plan p = (u, none)

theorem run_eq_none_iff :
    run plan F = (t, none) ↔ ∃ w p u, Completed plan F w p u ∧ t = inject plan u := by
  rw [run_eq, Walk.andThen_eq_none]
  constructor
  · intro h
    obtain ⟨u, hu, ht⟩ := h
    obtain ⟨p, hp, hu⟩ := Walk.andThen_eq_none.1 hu
    obtain ⟨w, hw, hp⟩ := Walk.andThen_eq_none.1 hp
    exact ⟨w, p, u, ⟨hw, hp, hu⟩, (Prod.mk.inj ht).1.symm⟩
  · intro h
    obtain ⟨w, p, u, hpass, rfl⟩ := h
    refine ⟨u, Walk.andThen_eq_none.2 ⟨p, ?_, hpass.carried⟩, rfl⟩
    exact Walk.andThen_eq_none.2 ⟨w, hpass.entered, hpass.verified⟩

theorem relocate_of_empty (h : plan.relocations = .empty) (slots : List Slot) (s : State) :
    relocate plan slots s = s := by
  apply relocate_invariant (P := fun t => t = s)
  · intro t slot _ ht
    rw [ht, h]
    unfold relocateSlot
    cases s.forest.artifact? slot <;> rfl
  · rfl

/-- Carrying out revisions with literal wishes puts literals in the place of literals. -/
theorem reworded_carryOuts {rows : List PendingRevision} (h : Orderly s.forest rows)
    (hplain : s.forest.PlainValues) (hnew : ∀ q ∈ rows, Placeholder.occursIn q.new = false) :
    s.forest.Reworded (Walk.untilFault (carryOut plan) rows s).1.forest := by
  apply h.invariant plan (P := fun t => s.forest.Reworded t.forest)
  · intro t q hq hset ht
    rw [carryOut_forest]
    exact ht.trans (Forest.reworded_update hset (ht.plainValues hplain) (hnew q hq))
  · exact (Forest.SameProperties.refl _).reworded

namespace Completed

variable {w u : State} {p : State}

section Entering

variable (h : Completed plan F w p u)

include h

theorem run_eq : run plan F = (inject plan u, none) := run_eq_none_iff.2 ⟨w, p, u, h, rfl⟩

theorem prepare_eq : prepare plan F = (p, none) :=
  Walk.andThen_eq_none.2 ⟨w, h.entered, h.verified⟩

theorem forest_verified : p.forest = w.forest := by
  have hforest := forest_prepare plan F
  rwa [h.prepare_eq, h.entered] at hforest

/-- The phase that sets module versions and the one that enters wishes. -/
theorem exists_modules (hF : Repeatable plan F) :
    ∃ s, Walk.untilFault (alignModule plan) F.indices ⟨F, {}, {}⟩ = (s, none) ∧
      Walk.untilFault (alignSlot plan) F.slots s = (w, none) := by
  have hentered := h.entered
  rw [enterWishes, relocate_of_empty hF.relocations] at hentered
  exact Walk.andThen_eq_none.1 hentered

theorem prepared (hF : Repeatable plan F) : Prepared F plan w := by
  have hprepared := prepared_enterWishes plan F hF.names
  rwa [h.entered] at hprepared

theorem ready (hF : Repeatable plan F) : Ready F plan p := by
  have hready := ready_prepare plan F hF.names
  rwa [h.prepare_eq] at hready

theorem revised (hF : Repeatable plan F) :
    Forest.Revised p.forest (p.ledger.pending.map PendingRevision.scope) u.forest := by
  have hrevised := (h.ready hF).orderly.revised plan
  rwa [← carryOutAll, h.carried] at hrevised

theorem literal_pending (hF : Repeatable plan F) :
    ∀ q ∈ p.ledger.pending, Placeholder.occursIn q.new = false := by
  intro q hq
  obtain ⟨ident, target, ht, hnew⟩ := ((h.ready hF).sound q hq).wanted
  rw [hnew]
  exact hF.literal ident target ht

theorem reworded (hF : Repeatable plan F) : F.Reworded (inject plan u).forest := by
  have hsame := (h.ready hF).same.reworded
  have hcarried : p.forest.Reworded (carryOutAll plan p).1.forest :=
    reworded_carryOuts (h.ready hF).orderly (hsame.plainValues hF.values) (h.literal_pending hF)
  rw [h.carried] at hcarried
  exact (hsame.trans hcarried).trans (extends_inject plan u).same.reworded

/-- Each pending revision was carried out in some forest on the way, and what it left declared at
its scope is what stands there in the end. -/
theorem exists_carried (hF : Repeatable plan F) {q : PendingRevision}
    (hq : q ∈ p.ledger.pending) :
    ∃ s₁ outcome, F.Reworded s₁.forest ∧
      (∀ i, s₁.forest.version? i = w.forest.version? i) ∧ s₁.forest.Settled q.scope ∧
      s₁.forest.update q.scope.holder (request plan q) q.scope.property =
        ((carryOut plan s₁ q).1.forest, .ok outcome) ∧
      (inject plan u).forest.declaration? q.scope.holder q.scope.property =
        (carryOut plan s₁ q).1.forest.declaration? q.scope.holder q.scope.property := by
  have hready := h.ready hF
  obtain ⟨before, after, s₁, s₂, hlist, hbefore, hstep, hafter⟩ :=
    Walk.untilFault_split h.carried hq
  have horderly := hready.orderly
  have hliteral := h.literal_pending hF
  rw [hlist] at horderly hliteral
  have hearlier := horderly.sublist (List.sublist_append_left before _)
  have hvisit := horderly.visited_of_split hbefore hstep hafter
  have hcome : p.forest.Reworded (Walk.untilFault (carryOut plan) before p).1.forest := by
    apply reworded_carryOuts hearlier (hready.same.reworded.plainValues hF.values)
    intro x hx
    exact hliteral x (List.mem_append_left _ hx)
  have hversions := (hearlier.revised plan).versions
  rw [hbefore] at hcome hversions
  have hresult : (carryOut plan s₁ q).2 = none := by rw [hstep]
  obtain ⟨outcome, houtcome⟩ := carryOut_eq_none.1 hresult
  refine ⟨s₁, outcome, hready.same.reworded.trans hcome, fun i => ?_, hvisit.settled,
    Prod.ext (carryOut_forest plan s₁ q).symm houtcome, ?_⟩
  · rw [hversions, h.forest_verified]
  · rw [(extends_inject plan u).same.declaration?, hvisit.declaration?_left]

theorem version?_left (hF : Repeatable plan F) (i : Nat) :
    (inject plan u).forest.version? i = w.forest.version? i := by
  rw [(extends_inject plan u).versions, (h.revised hF).versions, h.forest_verified]

/-- No slot is emptied before artifacts are added, and none is filled. -/
theorem artifact?_entered_isSome (hF : Repeatable plan F) (slot : Slot) :
    (w.forest.artifact? slot).isSome = (F.artifact? slot).isSome := by
  obtain ⟨s, hmodules, hslots⟩ := h.exists_modules hF
  have hstart := artifact?_alignModules plan F.indices ⟨F, {}, {}⟩ slot
  have hkeeps : ((Walk.untilFault (alignSlot plan) F.slots s).1.forest.artifact? slot).isSome =
      (s.forest.artifact? slot).isSome := by
    apply Walk.untilFault_keeps (f := fun s : State => (s.forest.artifact? slot).isSome)
    intro s other _
    rcases alignSlot_cases plan s other with ⟨hf, -⟩ | ⟨a, v, target, subject, -, -, -, -, hf, -⟩
    · rw [hf]
    · rw [hf, Forest.artifact?_modifyArtifact]
      split
      · rw [Option.isSome_map]
      · rfl
  rw [hslots] at hkeeps
  rw [hmodules] at hstart
  exact hkeeps.trans (congrArg Option.isSome hstart)

theorem artifact?_of_entered (hF : Repeatable plan F) {a : Artifact}
    (ha : w.forest.artifact? slot = some a) : (inject plan u).forest.artifact? slot = some a := by
  have hprepared : (prepare plan F).1.forest.artifact? slot = some a := by
    rw [h.prepare_eq, h.forest_verified, ha]
  have hrun := artifact?_run plan hF.names hprepared
  rwa [h.run_eq] at hrun

theorem artifact?_left (hF : Repeatable plan F) (hslot : slot ∈ F.slots) :
    (inject plan u).forest.artifact? slot = w.forest.artifact? slot := by
  have hsome := h.artifact?_entered_isSome hF slot
  obtain ⟨-, a₀, ha₀⟩ := Forest.of_mem_slots hslot
  rw [ha₀] at hsome
  obtain ⟨a, ha⟩ := Option.isSome_iff_exists.1 hsome
  rw [ha, h.artifact?_of_entered hF ha]

theorem moduleRests_left (hF : Repeatable plan F) (i : Nat) :
    ModuleRests plan (inject plan u).forest i := by
  obtain ⟨s, hmodules, hslots⟩ := h.exists_modules hF
  have hnames := (h.reworded hF).names
  by_cases hi : i ∈ F.indices
  · have hrests : ModuleRests plan s.forest i := by
      apply Walk.untilFault_establishes List.nodup_range _ _ hmodules hi
      · intro s s'
        exact moduleRests_alignModule
      · intro s j _ hj hs
        exact hs.of_same (version?_alignModule_of_ne plan s hj)
          ((sameProperties_alignModule plan s j).sameNames.identOf i)
    have hversion := version?_alignSlots plan F.slots s i
    have hsame := (same_alignModules plan F.indices ⟨F, {}, {}⟩).1
    rw [hslots] at hversion
    rw [hmodules] at hsame
    apply hrests.of_same
    · rw [h.version?_left hF, hversion]
    · rw [hnames.identOf, ← hsame.sameNames.identOf]
  · intro version target hv
    obtain ⟨m, hm, -⟩ := Option.map_eq_some_iff.1 hv
    have hlt := (List.getElem?_eq_some_iff.1 hm).1
    have hsize : i < F.size := by
      rw [← hnames.size]
      exact hlt
    exact absurd (List.mem_range.2 hsize) hi

theorem rests_left (hF : Repeatable plan F) (hslot : slot ∈ F.slots) {a : Artifact}
    (ha : (inject plan u).forest.artifact? slot = some a) : Rests plan a := by
  obtain ⟨s, hmodules, hslots⟩ := h.exists_modules hF
  have hrests : ∀ a, w.forest.artifact? slot = some a → Rests plan a := by
    apply Walk.untilFault_establishes
      (P := fun s : State => ∀ a, s.forest.artifact? slot = some a → Rests plan a)
      F.nodup_slots _ _ hslots hslot
    · intro s s' hstep a
      exact rests_alignSlot hstep
    · intro s other _ hother hs
      rwa [artifact?_alignSlot_of_ne plan s hother]
  apply hrests
  rw [← h.artifact?_left hF hslot, ha]

theorem wishAt?_entered (hF : Repeatable plan F) (slot : Slot) :
    wishAt? plan w.forest slot = wishAt? plan F slot := by
  obtain ⟨s, hmodules, hslots⟩ := h.exists_modules hF
  have hstart := artifact?_alignModules plan F.indices ⟨F, {}, {}⟩ slot
  have hkeeps : wishAt? plan (Walk.untilFault (alignSlot plan) F.slots s).1.forest slot =
      wishAt? plan s.forest slot := by
    apply Walk.untilFault_keeps (f := fun s : State => wishAt? plan s.forest slot)
    intro s other _
    exact wishAt?_alignSlot hF.literal s other slot
  rw [hslots] at hkeeps
  rw [hmodules] at hstart
  rw [hkeeps, wishAt?, hstart, wishAt?]

/-- An artifact that was added has the version of its target. -/
theorem added_left (hF : Repeatable plan F) (hslot : slot ∈ (inject plan u).forest.slots)
    (hnot : slot ∉ F.slots) {a : Artifact}
    (ha : (inject plan u).forest.artifact? slot = some a) :
    ∃ target, plan.targets.get? a.ident = some target ∧ a.version = some target.version := by
  refine (artifact?_inject ha).resolve_left fun hu => hnot ?_
  have hw : w.forest.artifact? slot = some a := by
    rw [← h.forest_verified, Forest.artifact?_eq, ← (h.revised hF).artifacts, ← Forest.artifact?_eq,
      hu]
  have hsome := h.artifact?_entered_isSome hF slot
  rw [hw] at hsome
  obtain ⟨a₀, ha₀⟩ := Option.isSome_iff_exists.1 hsome.symm
  apply Forest.mem_slots ha₀
  rw [← (h.reworded hF).names.places]
  exact (Forest.of_mem_slots hslot).1

end Entering

end Completed

end Realign.Alignment
