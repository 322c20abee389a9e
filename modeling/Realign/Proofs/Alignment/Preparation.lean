import Realign.Alignment.Pass
import Realign.Proofs.Alignment.Proposal
import Realign.Proofs.Alignment.Walk
import Realign.Proofs.Forest.Slots

/-!
The phases of a pass before revisions are carried out. None of them changes a property. A
slot is relocated once, a module version and an artifact version are set by the step of their
own module or slot only, and the ledger is filled with what targets ask for. Checking the
users of properties takes pending revisions out and brings none about.
-/
namespace Realign.Alignment

variable {F : Forest} {s t : State} {slot : Slot}

/-- The phases that enter wishes and set literal versions. -/
def enterWishes (plan : Plan) (F : Forest) : Outcome :=
  Walk.untilFault (alignModule plan) F.indices (relocate plan F.slots ⟨F, {}, {}⟩)
    |> Walk.andThen (Walk.untilFault (alignSlot plan) F.slots)

/-- The phases before revisions are carried out. -/
def prepare (plan : Plan) (F : Forest) : Outcome :=
  enterWishes plan F |> Walk.andThen (Walk.untilFault (verifySlot plan) F.slots)

def carryOutAll (plan : Plan) (s : State) : Outcome :=
  Walk.untilFault (carryOut plan) s.ledger.pending s

theorem run_eq (plan : Plan) (F : Forest) :
    run plan F = (prepare plan F |> Walk.andThen (carryOutAll plan)
      |> Walk.andThen fun s => (inject plan s, none)) := rfl

/-- A pass that came through came through each of its phases. -/
theorem run_eq_none {plan : Plan} (h : run plan F = (t, none)) :
    ∃ s u, prepare plan F = (s, none) ∧ carryOutAll plan s = (u, none) ∧ t = inject plan u := by
  rw [run_eq, Walk.andThen_eq_none] at h
  obtain ⟨u, hu, ht⟩ := h
  obtain ⟨s, hs, hu⟩ := Walk.andThen_eq_none.1 hu
  simp only [Prod.mk.injEq, and_true] at ht
  exact ⟨s, u, hs, hu, ht.symm⟩

section Relocating

variable (table : RelocationTable)

/-- An artifact after the rule for its coordinate, if there is one. -/
def relocated (a : Artifact) : Artifact :=
  match table.get? a.ident with
  | some rule => moved rule a
  | none => a

theorem relocateSlot_forest (s : State) (slot : Slot) :
    (relocateSlot table s slot).forest = s.forest ∨
      ∃ f, (relocateSlot table s slot).forest = s.forest.modifyArtifact slot f := by
  unfold relocateSlot
  split
  · exact Or.inl rfl
  · split
    · exact Or.inl rfl
    · exact Or.inr ⟨_, rfl⟩

theorem relocateSlot_ledger (s : State) (slot : Slot) :
    (relocateSlot table s slot).ledger = s.ledger := by
  unfold relocateSlot
  split
  · rfl
  · split <;> rfl

theorem artifact?_relocateSlot (s : State) (slot other : Slot) :
    (relocateSlot table s slot).forest.artifact? other =
      if slot = other then (s.forest.artifact? other).map (relocated table)
      else s.forest.artifact? other := by
  unfold relocateSlot
  split
  · rename_i ha
    split
    · rename_i h
      rw [← h, ha]
      rfl
    · rfl
  · rename_i a ha
    split
    · rename_i hr
      split
      · rename_i h
        rw [← h, ha, Option.map_some, relocated, hr]
      · rfl
    · rename_i rule hr
      rw [Forest.artifact?_modifyArtifact]
      split
      · rename_i h
        rw [← h, ha, Option.map_some, Option.map_some, relocated, hr]
      · rfl

/-- Every slot is relocated once. -/
theorem artifact?_relocate (plan : Plan) {slots : List Slot} (hnd : slots.Nodup) (s : State)
    (slot : Slot) :
    (relocate plan slots s).forest.artifact? slot =
      if slot ∈ slots then (s.forest.artifact? slot).map (relocated plan.relocations)
      else s.forest.artifact? slot := by
  unfold relocate
  induction slots generalizing s with
  | nil => rfl
  | cons first slots ih =>
    rw [List.nodup_cons] at hnd
    rw [List.foldl_cons, ih hnd.2, artifact?_relocateSlot]
    by_cases h : first = slot
    · subst h
      rw [if_neg hnd.1, if_pos rfl, if_pos (List.mem_cons_self ..)]
    · simp only [h, if_false, List.mem_cons, Ne.symm h, false_or]

end Relocating

/-- The state of a pass while wishes are entered. -/
structure Prepared (F : Forest) (plan : Plan) (s : State) : Prop where
  same : Forest.SameProperties F s.forest
  asked : s.ledger.AllAsked F plan.targets

/-- A pending revision on behalf of a target, at a scope where a change lands. -/
structure Sound (F : Forest) (plan : Plan) (q : PendingRevision) : Prop where
  settled : F.Settled q.scope
  wanted : ∃ ident target, plan.targets.get? ident = some target ∧ q.new = target.version
  forced : q.forced = true →
    ∃ ident target, plan.targets.get? ident = some target ∧ target.forced = true

/-- The state of a pass when revisions may be carried out. -/
structure Ready (F : Forest) (plan : Plan) (s : State) : Prop where
  same : Forest.SameProperties F s.forest
  sound : ∀ q ∈ s.ledger.pending, Sound F plan q

theorem Prepared.ready {plan : Plan} (h : Prepared F plan s) : Ready F plan s := by
  refine ⟨h.same, fun q hq => ?_⟩
  obtain ⟨r, hr, hp⟩ := Ledger.mem_pending.1 hq
  obtain ⟨-, -, -, hnew, hforced⟩ := Ledger.pendingOf_eq_some.1 hp
  have hasked := h.asked q.scope r hr
  obtain ⟨ident, target, ht, hv⟩ := hasked.wanted
  rw [hnew] at hv
  refine ⟨hasked.settled, ⟨ident, target, ht, Option.some.inj hv⟩, ?_⟩
  rw [← hforced]
  exact hasked.forced

section Steps

variable {plan : Plan}

theorem relocate_invariant {P : State → Prop} (slots : List Slot)
    (keeps : ∀ s, ∀ slot ∈ slots, P s → P (relocateSlot plan.relocations s slot)) (hs : P s) :
    P (relocate plan slots s) := by
  unfold relocate
  apply List.foldlRecOn _ _ hs
  intro s hs slot hslot
  exact keeps s slot hslot hs

theorem ledger_relocate (slots : List Slot) (s : State) :
    (relocate plan slots s).ledger = s.ledger := by
  apply relocate_invariant (P := fun s' => s'.ledger = s.ledger)
  · intro s' slot _ h
    rw [relocateSlot_ledger, h]
  · rfl

theorem version?_relocate (slots : List Slot) (s : State) (i : Nat) :
    (relocate plan slots s).forest.version? i = s.forest.version? i := by
  apply relocate_invariant (P := fun s' => s'.forest.version? i = s.forest.version? i)
  · intro s' slot _ h
    rcases relocateSlot_forest plan.relocations s' slot with hs | ⟨f, hs⟩
    · rw [hs, h]
    · rw [hs, Forest.version?_modifyArtifact, h]
  · rfl

/-- Before a pass nothing is asked, and relocating artifacts asks for nothing. -/
theorem prepared_relocate (plan : Plan) (F : Forest) (slots : List Slot) :
    Prepared F plan (relocate plan slots ⟨F, {}, {}⟩) := by
  constructor
  · apply relocate_invariant (P := fun s => Forest.SameProperties F s.forest)
    · intro s slot _ h
      rcases relocateSlot_forest plan.relocations s slot with hs | ⟨f, hs⟩
      · rw [hs]
        exact h
      · rw [hs]
        exact h.trans (Forest.sameProperties_modifyArtifact ..)
    · exact Forest.SameProperties.refl F
  · rw [ledger_relocate]
    intro scope r h
    cases h

/-- The step of a module sets its version to that of its target, if that is accepted, and enters
that in the log. -/
theorem alignModule_cases (plan : Plan) (s : State) (i : Nat) :
    (alignModule plan s i).1.ledger = s.ledger ∧
      ((alignModule plan s i).1.forest = s.forest ∨
        ∃ m target subject, s.forest.modules[i]? = some m ∧
          plan.targets.get? m.ident = some target ∧
          acceptLiteral plan.policy subject m.version target = .ok true ∧
          (alignModule plan s i).1.forest = s.forest.setVersion i target.version ∧
          ⟨m.ident, m.ident.toString, m.version, target.version⟩ ∈
            (alignModule plan s i).1.log.moduleVersions) := by
  unfold alignModule
  cases hm : s.forest.modules[i]? with
  | none => exact ⟨rfl, Or.inl rfl⟩
  | some m =>
    dsimp only
    cases ht : plan.targets.get? m.ident with
    | none => exact ⟨rfl, Or.inl rfl⟩
    | some target =>
      dsimp only
      split
      · exact ⟨rfl, Or.inl rfl⟩
      · cases ha : acceptLiteral plan.policy m.ident.toString m.version target with
        | error e => exact ⟨rfl, Or.inl rfl⟩
        | ok accepted =>
          cases accepted with
          | false => exact ⟨rfl, Or.inl rfl⟩
          | true =>
            exact ⟨rfl, Or.inr ⟨m, target, _, rfl, ht, ha, rfl,
              List.mem_append_right _ (List.mem_singleton_self _)⟩⟩

theorem proposeFor_fst (plan : Plan) (s : State) (i : Nat) (ident : Ident) (version : String)
    (target : Target) :
    (proposeFor plan s i ident version target).1 =
      { s with ledger := (s.ledger.propose s.forest plan.policy i version
        ⟨ident, target.version, target.forced⟩).1 } := by
  unfold proposeFor
  rcases s.ledger.propose s.forest plan.policy i version ⟨ident, target.version, target.forced⟩ with
    ⟨ledger, _ | _⟩
  · rfl
  · rfl

theorem version_of_alignable? {p : Policy} {a : Artifact} {version : String}
    (h : alignable? p a = some version) : a.version = some version := by
  unfold alignable? at h
  split at h
  · cases h
  · exact h

/-- The step of a slot enters a wish for a bare version, or sets a literal one to that of the
target and enters that in the log, or does nothing. -/
theorem alignSlot_cases (plan : Plan) (s : State) (slot : Slot) :
    ((alignSlot plan s slot).1.forest = s.forest ∧
        ((alignSlot plan s slot).1.ledger = s.ledger ∨
          ∃ ident version target, plan.targets.get? ident = some target ∧
            (alignSlot plan s slot).1.ledger = (s.ledger.propose s.forest plan.policy slot.holder
              version ⟨ident, target.version, target.forced⟩).1)) ∨
      ∃ a version target subject, s.forest.artifact? slot = some a ∧ a.version = some version ∧
        plan.targets.get? a.ident = some target ∧
        acceptLiteral plan.policy subject version target = .ok true ∧
        (alignSlot plan s slot).1.forest =
          (s.forest.modifyArtifact slot fun a => { a with version := some target.version }) ∧
        (alignSlot plan s slot).1.ledger = s.ledger ∧
        ⟨s.forest.identOf slot.holder, a.ident.toString, version, target.version⟩ ∈
          (alignSlot plan s slot).1.log.literalUpdates := by
  unfold alignSlot
  cases ha : s.forest.artifact? slot with
  | none => exact Or.inl ⟨rfl, Or.inl rfl⟩
  | some a =>
    dsimp only
    split
    · rename_i version target hv ht
      split
      · rw [proposeFor_fst]
        exact Or.inl ⟨rfl, Or.inr ⟨a.ident, version, target, ht, rfl⟩⟩
      · split
        · exact Or.inl ⟨rfl, Or.inl rfl⟩
        · unfold alignLiteral
          dsimp only
          split
          · exact Or.inl ⟨rfl, Or.inl rfl⟩
          · split
            · exact Or.inl ⟨rfl, Or.inl rfl⟩
            · exact Or.inl ⟨rfl, Or.inl rfl⟩
            · rename_i hacc
              exact Or.inr ⟨a, version, target, _, rfl, version_of_alignable? hv, ht, hacc, rfl,
                rfl, List.mem_append_right _ (List.mem_singleton_self _)⟩
    · exact Or.inl ⟨rfl, Or.inl rfl⟩

theorem alignSlot_forest_of_bare {a : Artifact} {name : String}
    (ha : s.forest.artifact? slot = some a) (hb : a.version.bind Placeholder.bare? = some name) :
    (alignSlot plan s slot).1.forest = s.forest := by
  unfold alignSlot
  rw [ha]
  dsimp only
  split
  · rename_i version target hv _
    rw [version_of_alignable? hv, Option.bind_some] at hb
    rw [hb, Option.isSome_some, if_pos rfl, proposeFor_fst]
  · rfl

theorem verifySlot_cases (plan : Plan) (s : State) (slot : Slot) :
    (verifySlot plan s slot).1.forest = s.forest ∧
      ((verifySlot plan s slot).1.ledger = s.ledger ∨
        plan.policy.strictPropertyValidation = .revert ∧
          ∃ old, (verifySlot plan s slot).1.ledger = s.ledger.revertMatching old) := by
  unfold verifySlot
  split
  · exact ⟨rfl, Or.inl rfl⟩
  · rename_i a ha
    split
    · exact ⟨rfl, Or.inl rfl⟩
    · rename_i name hn
      have hv := s.ledger.verify_fst s.forest plan.policy slot.holder a.ident name
      split
      all_goals
        rename_i heq
        rw [heq] at hv
        exact ⟨rfl, hv⟩

theorem version?_alignModule_of_ne (plan : Plan) (s : State) {i j : Nat} (h : j ≠ i) :
    (alignModule plan s j).1.forest.version? i = s.forest.version? i := by
  rcases (alignModule_cases plan s j).2 with hf | ⟨m, target, subject, -, -, -, hf, -⟩
  · rw [hf]
  · rw [hf, Forest.version?_setVersion, if_neg h]

theorem version?_alignSlot (plan : Plan) (s : State) (slot : Slot) (i : Nat) :
    (alignSlot plan s slot).1.forest.version? i = s.forest.version? i := by
  rcases alignSlot_cases plan s slot with ⟨hf, -⟩ | ⟨a, v, target, subject, -, -, -, -, hf, -⟩
  · rw [hf]
  · rw [hf, Forest.version?_modifyArtifact]

theorem version?_alignSlots (plan : Plan) (slots : List Slot) (s : State) (i : Nat) :
    (Walk.untilFault (alignSlot plan) slots s).1.forest.version? i = s.forest.version? i := by
  apply Walk.untilFault_keeps (f := fun s : State => s.forest.version? i)
  intro s slot _
  exact version?_alignSlot plan s slot i

theorem artifact?_alignSlot_of_ne (plan : Plan) (s : State) {other : Slot} (h : other ≠ slot) :
    (alignSlot plan s other).1.forest.artifact? slot = s.forest.artifact? slot := by
  rcases alignSlot_cases plan s other with ⟨hf, -⟩ | ⟨a, v, target, subject, -, -, -, -, hf, -⟩
  · rw [hf]
  · rw [hf, Forest.artifact?_modifyArtifact, if_neg h]

theorem artifact?_alignSlots_of_not_mem (plan : Plan) (s : State) {slots : List Slot}
    (h : slot ∉ slots) :
    (Walk.untilFault (alignSlot plan) slots s).1.forest.artifact? slot =
      s.forest.artifact? slot := by
  apply Walk.untilFault_keeps (f := fun s : State => s.forest.artifact? slot)
  intro s other hother
  exact artifact?_alignSlot_of_ne plan s fun e => h (e ▸ hother)

/-- The step of a slot never empties it. -/
theorem exists_artifact?_alignSlot (plan : Plan) {a : Artifact}
    (h : s.forest.artifact? slot = some a) :
    ∃ b, (alignSlot plan s slot).1.forest.artifact? slot = some b := by
  rcases alignSlot_cases plan s slot with ⟨hf, -⟩ | ⟨-, -, target, -, -, -, -, -, hf, -⟩
  · exact ⟨a, by rw [hf, h]⟩
  · refine ⟨{ a with version := some target.version }, ?_⟩
    rw [hf, Forest.artifact?_modifyArtifact, if_pos rfl, h]
    rfl

theorem Prepared.alignModule (h : Prepared F plan s) (i : Nat) :
    Prepared F plan (alignModule plan s i).1 := by
  obtain ⟨hl, hf⟩ := alignModule_cases plan s i
  refine ⟨?_, by rw [hl]; exact h.asked⟩
  rcases hf with hf | ⟨m, target, subject, -, -, -, hf, -⟩
  · rw [hf]
    exact h.same
  · rw [hf]
    exact h.same.trans (Forest.sameProperties_setVersion ..)

theorem Prepared.alignSlot (hF : F.NoFieldNames) (h : Prepared F plan s) (slot : Slot) :
    Prepared F plan (alignSlot plan s slot).1 := by
  rcases alignSlot_cases plan s slot with ⟨hf, hl⟩ | ⟨a, v, target, subject, -, -, -, -, hf, hl, -⟩
  · refine ⟨by rw [hf]; exact h.same, ?_⟩
    rcases hl with hl | ⟨ident, version, target, ht, hl⟩
    · rw [hl]
      exact h.asked
    · rw [hl]
      exact h.asked.propose hF h.same ht
  · refine ⟨?_, by rw [hl]; exact h.asked⟩
    rw [hf]
    exact h.same.trans (Forest.sameProperties_modifyArtifact ..)

theorem Ready.verifySlot (h : Ready F plan s) (slot : Slot) :
    Ready F plan (verifySlot plan s slot).1 := by
  obtain ⟨hf, hl⟩ := verifySlot_cases plan s slot
  refine ⟨by rw [hf]; exact h.same, fun q hq => h.sound q ?_⟩
  rcases hl with hl | ⟨-, old, hl⟩
  · rwa [hl] at hq
  · rw [hl] at hq
    exact (Ledger.mem_pending_revertMatching.1 hq).1

end Steps

section Phases

variable (plan : Plan) (F : Forest)

/-- What holds when all artifacts are relocated, and what every step of the next phases keeps. -/
theorem enterWishes_invariant {P : State → Prop}
    (hrelocate : P (relocate plan F.slots ⟨F, {}, {}⟩))
    (hmodule : ∀ s i, P s → P (alignModule plan s i).1)
    (hslot : ∀ s, ∀ slot ∈ F.slots, P s → P (alignSlot plan s slot).1) :
    P (enterWishes plan F).1 := by
  apply Walk.andThen_invariant
  · exact Walk.untilFault_invariant (fun s i _ => hmodule s i) _ hrelocate
  · exact Walk.untilFault_invariant hslot

theorem prepare_invariant {P : State → Prop} (hwishes : P (enterWishes plan F).1)
    (hverify : ∀ s slot, P s → P (verifySlot plan s slot).1) : P (prepare plan F).1 :=
  Walk.andThen_invariant hwishes (Walk.untilFault_invariant fun s slot _ => hverify s slot)

theorem prepared_enterWishes (hF : F.NoFieldNames) : Prepared F plan (enterWishes plan F).1 := by
  apply enterWishes_invariant
  · exact prepared_relocate plan F F.slots
  · intro s i h
    exact h.alignModule i
  · intro s slot _ h
    exact h.alignSlot hF slot

/-- However the first phases end, revisions may be carried out in the state that they leave. -/
theorem ready_prepare (hF : F.NoFieldNames) : Ready F plan (prepare plan F).1 := by
  apply prepare_invariant
  · exact (prepared_enterWishes plan F hF).ready
  · intro s slot h
    exact h.verifySlot slot

/-- Checking the users of properties changes no module. -/
theorem forest_prepare : (prepare plan F).1.forest = (enterWishes plan F).1.forest := by
  apply prepare_invariant (P := fun s => s.forest = (enterWishes plan F).1.forest)
  · rfl
  · intro s slot h
    rw [(verifySlot_cases plan s slot).1, h]

/-- The version of a module is as it was or that of a target, put in the place of what it was. -/
theorem version?_prepare (i : Nat) :
    (prepare plan F).1.forest.version? i = F.version? i ∨
      ∃ version ident target subject, F.version? i = some version ∧
        plan.targets.get? ident = some target ∧
        acceptLiteral plan.policy subject version target = .ok true ∧
        (prepare plan F).1.forest.version? i = some target.version := by
  have hslots : (prepare plan F).1.forest.version? i = (Walk.untilFault (alignModule plan)
      F.indices (relocate plan F.slots ⟨F, {}, {}⟩)).1.forest.version? i := by
    rw [forest_prepare]
    rcases Walk.andThen_fst (Walk.untilFault (alignSlot plan) F.slots) _ with h | h
    · rw [enterWishes, h]
    · rw [enterWishes, h, version?_alignSlots]
  have hnd : F.indices.Nodup := List.nodup_range
  have honce := Walk.untilFault_once (f := fun s : State => s.forest.version? i) hnd i
    (relocate plan F.slots ⟨F, {}, {}⟩) fun s j _ hj => version?_alignModule_of_ne plan s hj
  rw [hslots]
  rw [version?_relocate] at honce
  rcases honce with h | ⟨s₁, hs₁, h⟩
  · exact Or.inl h
  · rcases (alignModule_cases plan s₁ i).2 with hf | ⟨m, target, subject, hm, ht, hacc, hf, -⟩
    · rw [hf, hs₁] at h
      exact Or.inl h
    · have hv : s₁.forest.version? i = some m.version := by rw [Forest.version?, hm]; rfl
      rw [hf, Forest.version?_setVersion, if_pos rfl, hv] at h
      exact Or.inr ⟨m.version, m.ident, target, subject, by rw [← hv, hs₁], ht, hacc, h⟩

theorem artifact?_alignModule (plan : Plan) (s : State) (i : Nat) (slot : Slot) :
    (alignModule plan s i).1.forest.artifact? slot = s.forest.artifact? slot := by
  rcases (alignModule_cases plan s i).2 with hf | ⟨m, target, subject, -, -, -, hf, -⟩
  · rw [hf]
  · rw [hf, Forest.artifact?_setVersion]

theorem artifact?_alignModules (indices : List Nat) (s : State) (slot : Slot) :
    (Walk.untilFault (alignModule plan) indices s).1.forest.artifact? slot =
      s.forest.artifact? slot := by
  apply Walk.untilFault_keeps (f := fun s : State => s.forest.artifact? slot)
  intro s i _
  exact artifact?_alignModule plan s i slot

/-- An artifact is as it was relocated, or has the version of a target in the place of its own. -/
theorem artifact?_prepare (slot : Slot) :
    (prepare plan F).1.forest.artifact? slot =
        (relocate plan F.slots ⟨F, {}, {}⟩).forest.artifact? slot ∨
      ∃ a version ident target subject,
        (relocate plan F.slots ⟨F, {}, {}⟩).forest.artifact? slot = some a ∧
        a.version = some version ∧ plan.targets.get? ident = some target ∧
        acceptLiteral plan.policy subject version target = .ok true ∧
        (prepare plan F).1.forest.artifact? slot =
          some { a with version := some target.version } := by
  have hmodules := artifact?_alignModules plan F.indices (relocate plan F.slots ⟨F, {}, {}⟩) slot
  rw [forest_prepare, ← hmodules]
  rcases Walk.andThen_fst (Walk.untilFault (alignSlot plan) F.slots) _ with h | h
  · exact Or.inl (by rw [enterWishes, h])
  · rw [enterWishes, h]
    generalize (Walk.untilFault (alignModule plan) F.indices _).1 = s
    have honce := Walk.untilFault_once (f := fun s : State => s.forest.artifact? slot)
      F.nodup_slots slot s fun s other _ hother => artifact?_alignSlot_of_ne plan s hother
    rcases honce with h | ⟨s₁, hs₁, h⟩
    · exact Or.inl h
    · have hcases := alignSlot_cases plan s₁ slot
      rcases hcases with ⟨hf, -⟩ | ⟨a, v, target, subject, ha, hv, ht, hacc, hf, -⟩
      · left
        rw [h, hf, hs₁]
      · right
        refine ⟨a, v, a.ident, target, subject, ?_, hv, ht, hacc, ?_⟩
        · rw [← hs₁, ha]
        · rw [h, hf, Forest.artifact?_modifyArtifact, if_pos rfl, ha]
          rfl

end Phases

end Realign.Alignment
