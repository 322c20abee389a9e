import Realign.Proofs.Alignment.Run
import Realign.Proofs.Property.Rewording

/-!
What the steps of a pass leave at rest. A step that came through has put the version of the target
in place, or has found it there, or was stopped by the strict check and tolerated that, and
in each case the same step would do nothing now. Which wish a slot makes is the same before
and after.
-/
namespace Realign.Alignment

variable {plan : Plan} {p : Policy} {F G : Forest} {s t : State} {slot : Slot} {a : Artifact}

/-- A literal version that a target leaves alone: it is the version of the target, or the strict
check stands against that one and is tolerated. -/
def Keeps (p : Policy) (version : String) (target : Target) : Prop :=
  version = target.version ∨ ∀ subject, acceptLiteral p subject version target = .ok false

theorem keeps_of_acceptLiteral {subject version : String} {target : Target}
    (h : acceptLiteral p subject version target = .ok false) : Keeps p version target := by
  refine Or.inr fun subject' => ?_
  unfold acceptLiteral at h ⊢
  split_ifs at h ⊢
  · cases h
  · rfl

section Modules

/-- The target of a module leaves its version alone. -/
def ModuleRests (plan : Plan) (F : Forest) (i : Nat) : Prop :=
  ∀ version target, F.version? i = some version → plan.targets.get? (F.identOf i) = some target →
    Keeps plan.policy version target

theorem ModuleRests.of_same {i : Nat} (h : ModuleRests plan F i)
    (hversion : G.version? i = F.version? i) (hident : G.identOf i = F.identOf i) :
    ModuleRests plan G i := by
  intro version target hv ht
  rw [hversion] at hv
  rw [hident] at ht
  exact h version target hv ht

/-- What is known of a module by its index. -/
theorem version?_of_getElem? {i : Nat} {m : Module} (hm : F.modules[i]? = some m) :
    F.version? i = some m.version ∧ F.identOf i = m.ident := by
  rw [Forest.version?, Forest.identOf, hm]
  exact ⟨rfl, rfl⟩

theorem alignModule_of_rests {i : Nat} (h : ModuleRests plan s.forest i) :
    ∃ t, alignModule plan s i = (t, none) ∧ t.forest = s.forest ∧ t.ledger = s.ledger := by
  unfold alignModule
  cases hm : s.forest.modules[i]? with
  | none => exact ⟨s, rfl, rfl, rfl⟩
  | some m =>
    dsimp only
    cases ht : plan.targets.get? m.ident with
    | none => exact ⟨s, rfl, rfl, rfl⟩
    | some target =>
      dsimp only
      obtain ⟨hv, hi⟩ := version?_of_getElem? hm
      rw [← hi] at ht
      split
      · exact ⟨s, rfl, rfl, rfl⟩
      · rename_i hne
        rw [(h m.version target hv ht).resolve_left hne]
        exact ⟨_, rfl, rfl, rfl⟩

theorem sameProperties_alignModule (plan : Plan) (s : State) (i : Nat) :
    Forest.SameProperties s.forest (alignModule plan s i).1.forest := by
  rcases (alignModule_cases plan s i).2 with hf | ⟨m, target, subject, -, -, -, hf, -⟩
  · rw [hf]
    exact Forest.SameProperties.refl _
  · rw [hf]
    exact Forest.sameProperties_setVersion ..

/-- Setting module versions changes no property and enters no wish. -/
theorem same_alignModules (plan : Plan) (indices : List Nat) (s : State) :
    Forest.SameProperties s.forest (Walk.untilFault (alignModule plan) indices s).1.forest ∧
      (Walk.untilFault (alignModule plan) indices s).1.ledger = s.ledger := by
  apply Walk.untilFault_invariant
    (P := fun t : State => Forest.SameProperties s.forest t.forest ∧ t.ledger = s.ledger)
  · intro t i _ ht
    refine ⟨ht.1.trans (sameProperties_alignModule plan t i), ?_⟩
    rw [(alignModule_cases plan t i).1, ht.2]
  · exact ⟨Forest.SameProperties.refl _, rfl⟩

/-- Setting the versions of modules at rest comes through and does nothing. -/
theorem alignModules_of_rests (indices : List Nat) (h : ∀ i, ModuleRests plan s.forest i) :
    ∃ t, Walk.untilFault (alignModule plan) indices s = (t, none) ∧ t.forest = s.forest ∧
      t.ledger = s.ledger := by
  apply Walk.exists_untilFault (Q := fun t : State => t.forest = s.forest ∧ t.ledger = s.ledger)
  · intro t i _ ht
    rw [← ht.1] at h
    obtain ⟨t', ht', hf, hl⟩ := alignModule_of_rests (h i)
    exact ⟨t', ht', hf.trans ht.1, hl.trans ht.2⟩
  · exact ⟨rfl, rfl⟩

/-- The step of a module that comes through leaves the module at rest. -/
theorem moduleRests_alignModule {i : Nat} (h : alignModule plan s i = (t, none)) :
    ModuleRests plan t.forest i := by
  intro version target hv ht
  have hsame := sameProperties_alignModule plan s i
  rw [h] at hsame
  rw [hsame.sameNames.identOf] at ht
  unfold alignModule at h
  cases hm : s.forest.modules[i]? with
  | none =>
    rw [hm] at h
    cases h
    rw [Forest.version?, hm] at hv
    cases hv
  | some m =>
    obtain ⟨hversion, hident⟩ := version?_of_getElem? hm
    rw [hident] at ht
    simp only [hm, ht] at h
    split at h
    · rename_i heq
      cases h
      rw [hversion] at hv
      rw [← Option.some.inj hv]
      exact Or.inl heq
    · split at h
      · cases h
      · rename_i hacc
        cases h
        have hv' : s.forest.version? i = some version := hv
        rw [hversion] at hv'
        rw [← Option.some.inj hv']
        exact keeps_of_acceptLiteral hacc
      · cases h
        have hv' : (s.forest.setVersion i target.version).version? i = some version := hv
        rw [Forest.version?_setVersion, if_pos rfl, hversion] at hv'
        exact Or.inl (Option.some.inj hv').symm

end Modules

section Slots

/-- The target of an artifact leaves its version alone, if that is a literal. -/
def Rests (plan : Plan) (a : Artifact) : Prop :=
  ∀ version target, alignable? plan.policy a = some version →
    plan.targets.get? a.ident = some target → Placeholder.bare? version = none →
    Placeholder.isCompound version = false → Keeps plan.policy version target

/-- The wish that an artifact makes, with the value that it is about. -/
def wishOf? (plan : Plan) (a : Artifact) : Option (String × Ledger.Wish) := do
  let version ← alignable? plan.policy a
  let target ← plan.targets.get? a.ident
  if (Placeholder.bare? version).isSome then
    return (version, ⟨a.ident, target.version, target.forced⟩)
  else none

def wishAt? (plan : Plan) (F : Forest) (slot : Slot) : Option (String × Ledger.Wish) :=
  (F.artifact? slot).bind (wishOf? plan)

theorem wishOf?_eq_some {version : String} {w : Ledger.Wish} :
    wishOf? plan a = some (version, w) ↔
      alignable? plan.policy a = some version ∧ (Placeholder.bare? version).isSome = true ∧
        ∃ target, plan.targets.get? a.ident = some target ∧
          w = ⟨a.ident, target.version, target.forced⟩ := by
  simp only [wishOf?, Option.bind_eq_bind, Option.bind_eq_some_iff, Option.ite_none_right_eq_some,
    pure, Option.some.injEq, Prod.mk.injEq]
  constructor
  · intro h
    obtain ⟨_, hv, target, ht, hb, rfl, rfl⟩ := h
    exact ⟨hv, hb, target, ht, rfl⟩
  · intro h
    obtain ⟨hv, hb, target, ht, rfl⟩ := h
    exact ⟨version, hv, target, ht, hb, rfl, rfl⟩

/-- An artifact with a version that is not bare makes no wish. -/
theorem wishOf?_of_not_bare (h : a.version.bind Placeholder.bare? = none) :
    wishOf? plan a = none := by
  rw [Option.eq_none_iff_forall_ne_some]
  intro row hrow
  obtain ⟨version, w⟩ := row
  obtain ⟨hv, hb, -⟩ := wishOf?_eq_some.1 hrow
  rw [version_of_alignable? hv, Option.bind_some] at h
  rw [h] at hb
  cases hb

theorem alignSlot_of_wish {version : String} {w : Ledger.Wish}
    (h : wishAt? plan s.forest slot = some (version, w)) :
    alignSlot plan s slot = (t, none) ↔ ∃ taken,
      s.ledger.propose s.forest plan.policy slot.holder version w = (t.ledger, .ok taken) ∧
        t = { s with ledger := t.ledger } := by
  obtain ⟨a, ha, hw⟩ := Option.bind_eq_some_iff.1 h
  obtain ⟨hv, hb, target, ht, rfl⟩ := wishOf?_eq_some.1 hw
  unfold alignSlot proposeFor
  rw [ha]
  simp only [hv, ht, hb, if_true]
  constructor
  · intro hok
    split at hok
    · rename_i ledger taken hpropose
      cases hok
      exact ⟨taken, hpropose, rfl⟩
    · cases hok
  · intro hex
    obtain ⟨taken, hpropose, hstate⟩ := hex
    rw [hpropose, hstate]

/-- The step of a slot that makes no wish sets a literal version, or does nothing. -/
theorem alignSlot_of_no_wish (h : wishAt? plan s.forest slot = none) :
    (∃ t, alignSlot plan s slot = (t, none) ∧ t.forest = s.forest ∧ t.ledger = s.ledger) ∨
      ∃ a version target, s.forest.artifact? slot = some a ∧
        alignable? plan.policy a = some version ∧ plan.targets.get? a.ident = some target ∧
        Placeholder.bare? version = none ∧ Placeholder.isCompound version = false ∧
        alignSlot plan s slot = alignLiteral plan s slot a.ident version target := by
  unfold alignSlot
  cases ha : s.forest.artifact? slot with
  | none => exact Or.inl ⟨s, rfl, rfl, rfl⟩
  | some a =>
    dsimp only
    split
    · rename_i version target hv ht
      split
      · rename_i hb
        have hw := wishOf?_eq_some.2 ⟨hv, hb, target, ht, rfl⟩
        rw [wishAt?, ha, Option.bind_some, hw] at h
        cases h
      · rename_i hb
        split
        · exact Or.inl ⟨_, rfl, rfl, rfl⟩
        · rename_i hcompound
          rw [Bool.not_eq_true, Option.isSome_eq_false_iff, Option.isNone_iff_eq_none] at hb
          rw [Bool.not_eq_true] at hcompound
          exact Or.inr ⟨a, version, target, rfl, hv, ht, hb, hcompound, rfl⟩
    · exact Or.inl ⟨s, rfl, rfl, rfl⟩

/-- The step of a slot that makes no wish leaves the ledger alone. -/
theorem ledger_alignSlot_of_no_wish (h : wishAt? plan s.forest slot = none) :
    (alignSlot plan s slot).1.ledger = s.ledger := by
  rcases alignSlot_of_no_wish h with ⟨t, ht, -, hl⟩ | ⟨a, version, target, -, -, -, -, -, hstep⟩
  · rw [ht, hl]
  · rw [hstep, alignLiteral]
    dsimp only
    split
    · rfl
    · split <;> rfl

/-- The step of a slot that makes no wish and is at rest does nothing. -/
theorem alignSlot_of_rests (h : wishAt? plan s.forest slot = none)
    (hrests : ∀ a, s.forest.artifact? slot = some a → Rests plan a) :
    ∃ t, alignSlot plan s slot = (t, none) ∧ t.forest = s.forest ∧ t.ledger = s.ledger := by
  rcases alignSlot_of_no_wish h with hnothing | ⟨a, version, target, ha, hv, ht, hb, hc, hstep⟩
  · exact hnothing
  · have hkeeps := hrests a ha version target hv ht hb hc
    rw [hstep, alignLiteral]
    dsimp only
    split
    · exact ⟨s, rfl, rfl, rfl⟩
    · rename_i hne
      rw [hkeeps.resolve_left hne]
      exact ⟨_, rfl, rfl, rfl⟩

/-- The step of a slot that comes through leaves the artifact at rest. -/
theorem rests_alignSlot (h : alignSlot plan s slot = (t, none))
    (hb : t.forest.artifact? slot = some a) : Rests plan a := by
  intro version target hv ht hbare hcompound
  have hcases := alignSlot_cases plan s slot
  rw [h] at hcases
  rcases hcases with ⟨hf, -⟩ | ⟨a₀, v, target', subject, ha₀, -, ht', -, hf, -⟩
  · have ha := hb
    rw [hf] at ha
    unfold alignSlot alignLiteral at h
    simp only [ha, hv, ht, hbare, hcompound, Option.isSome_none, Bool.false_eq_true, if_false] at h
    split at h
    · rename_i heq
      exact Or.inl heq
    · split at h
      · cases h
      · rename_i hacc
        exact keeps_of_acceptLiteral hacc
      · cases h
        rw [Forest.artifact?_modifyArtifact, if_pos rfl, ha, Option.map_some] at hb
        rw [← Option.some.inj hb] at hv
        exact Or.inl (Option.some.inj (version_of_alignable? hv)).symm
  · rw [hf, Forest.artifact?_modifyArtifact, if_pos rfl, ha₀, Option.map_some] at hb
    obtain rfl := Option.some.inj hb
    rw [ht'] at ht
    rw [← Option.some.inj ht]
    exact Or.inl (Option.some.inj (version_of_alignable? hv)).symm

/-- No step of a slot changes which wish any slot makes. -/
theorem wishAt?_alignSlot (hlit : plan.targets.Literal) (s : State) (slot other : Slot) :
    wishAt? plan (alignSlot plan s slot).1.forest other = wishAt? plan s.forest other := by
  have hcases := alignSlot_cases plan s slot
  rcases hcases with ⟨hf, -⟩ | ⟨a, version, target, subject, ha, hv, ht, -, hf, -⟩
  · rw [hf]
  cases hb : a.version.bind Placeholder.bare? with
  | some name => rw [alignSlot_forest_of_bare ha hb]
  | none =>
    rw [wishAt?, hf, Forest.artifact?_modifyArtifact]
    split
    · rename_i hother
      rw [wishAt?, ← hother, ha, Option.map_some, Option.bind_some, Option.bind_some,
        wishOf?_of_not_bare hb]
      exact wishOf?_of_not_bare (Placeholder.bare?_of_not_occursIn (hlit _ _ ht))
    · rfl

end Slots

end Realign.Alignment
