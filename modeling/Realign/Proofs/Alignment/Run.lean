import Realign.Proofs.Alignment.CarryOut

/-!
Whole passes. However a pass ends, its forest is the one that its first phases left, with the
pending revisions carried out once each, as far as the pass came, and with artifacts added
if it came through. Changes of properties and added targets are reported by the phases that
bring them about.
-/
namespace Realign.Alignment

variable {plan : Plan} {F : Forest} {s t : State}

/-- The phases before targets are added. -/
def revise (plan : Plan) (F : Forest) : Outcome :=
  prepare plan F |> Walk.andThen (carryOutAll plan)

theorem revise_invariant {P : State → Prop} (plan : Plan) (F : Forest)
    (hprepare : P (prepare plan F).1) (hcarry : ∀ s q, P s → P (carryOut plan s q).1) :
    P (revise plan F).1 :=
  Walk.andThen_invariant hprepare fun _ => Walk.untilFault_invariant (fun s q _ => hcarry s q) _

/-- However a pass ends, it ends before or after targets are added. -/
theorem run_fst_cases (plan : Plan) (F : Forest) :
    (run plan F).1 = (revise plan F).1 ∨ (run plan F).1 = inject plan (revise plan F).1 :=
  Walk.andThen_fst (fun s => (inject plan s, (none : Option AlignError))) (revise plan F)

/-- What the steps before the carrying out of revisions leave as it was in the log. -/
structure Untouched (s t : State) : Prop where
  propertyUpdates : t.log.propertyUpdates = s.log.propertyUpdates
  injected : t.log.injected = s.log.injected

theorem untouched_relocateSlot (table : RelocationTable) (s : State) (slot : Slot) :
    Untouched s (relocateSlot table s slot) := by
  unfold relocateSlot
  split
  · exact ⟨rfl, rfl⟩
  · split <;> exact ⟨rfl, rfl⟩

theorem untouched_alignModule (plan : Plan) (s : State) (i : Nat) :
    Untouched s (alignModule plan s i).1 := by
  unfold alignModule
  split
  · exact ⟨rfl, rfl⟩
  · split
    · exact ⟨rfl, rfl⟩
    · split
      · exact ⟨rfl, rfl⟩
      · split <;> exact ⟨rfl, rfl⟩

theorem untouched_alignSlot (plan : Plan) (s : State) (slot : Slot) :
    Untouched s (alignSlot plan s slot).1 := by
  unfold alignSlot
  split
  · exact ⟨rfl, rfl⟩
  · split
    · split
      · rw [proposeFor_fst]
        exact ⟨rfl, rfl⟩
      · split
        · exact ⟨rfl, rfl⟩
        · unfold alignLiteral
          dsimp only
          split
          · exact ⟨rfl, rfl⟩
          · split <;> exact ⟨rfl, rfl⟩
    · exact ⟨rfl, rfl⟩

theorem untouched_verifySlot (plan : Plan) (s : State) (slot : Slot) :
    Untouched s (verifySlot plan s slot).1 := by
  unfold verifySlot
  split
  · exact ⟨rfl, rfl⟩
  · split
    · exact ⟨rfl, rfl⟩
    · split <;> exact ⟨rfl, rfl⟩

theorem Untouched.trans {u : State} (h : Untouched s t) (h' : Untouched t u) : Untouched s u :=
  ⟨h'.propertyUpdates.trans h.propertyUpdates, h'.injected.trans h.injected⟩

/-- Before revisions are carried out no change of a property and no added target is reported. -/
theorem untouched_prepare (plan : Plan) (F : Forest) :
    Untouched ⟨F, {}, {}⟩ (prepare plan F).1 := by
  apply prepare_invariant (P := Untouched ⟨F, {}, {}⟩)
  · apply enterWishes_invariant (P := Untouched ⟨F, {}, {}⟩)
    · apply relocate_invariant (P := Untouched ⟨F, {}, {}⟩)
      · intro s slot _ h
        exact h.trans (untouched_relocateSlot plan.relocations s slot)
      · exact ⟨rfl, rfl⟩
    · intro s i h
      exact h.trans (untouched_alignModule plan s i)
    · intro s slot _ h
      exact h.trans (untouched_alignSlot plan s slot)
  · intro s slot h
    exact h.trans (untouched_verifySlot plan s slot)

theorem injected_carryOut (plan : Plan) (s : State) (q : PendingRevision) :
    (carryOut plan s q).1.log.injected = s.log.injected := by
  unfold carryOut
  dsimp only
  split <;> rfl

/-- Before targets are added none is reported. -/
theorem injected_revise (plan : Plan) (F : Forest) : (revise plan F).1.log.injected = [] := by
  apply revise_invariant (P := fun s : State => s.log.injected = [])
  · exact (untouched_prepare plan F).injected
  · intro s q h
    rw [injected_carryOut, h]

theorem extends_injectInto (F : Forest) (a : Artifact) : Forest.Extends F (injectInto F a) := by
  unfold injectInto
  apply List.foldlRecOn (motive := fun G => Forest.Extends F G) _ _ (Forest.Extends.refl F)
  intro G h root _
  exact h.trans (Forest.Extends.append G root .main .managedDependency [a])

/-- An artifact stood in its slot before, or it is the one that was added and its slot is one of the
managed dependencies of a root. -/
theorem artifact?_injectInto {slot : Slot} {added b : Artifact}
    (h : (injectInto F added).artifact? slot = some b) :
    F.artifact? slot = some b ∨
      (slot.holder ∈ F.roots ∧ slot.place = .main ∧ slot.kind = .managedDependency) ∧
        b = added := by
  revert h
  unfold injectInto
  apply List.foldlRecOn (motive := fun G : Forest => G.artifact? slot = some b →
    F.artifact? slot = some b ∨
      (slot.holder ∈ F.roots ∧ slot.place = .main ∧ slot.kind = .managedDependency) ∧
        b = added) _ _ Or.inl
  intro G ih root hroot h
  rcases Forest.artifact?_append_cases h with h | ⟨⟨rfl, hplace, hkind⟩, hb⟩
  · exact ih h
  · exact Or.inr ⟨⟨hroot, hplace.symm, hkind.symm⟩, hb⟩

theorem extends_injectTarget (s : State) (ident : Ident) (target : Target) :
    Forest.Extends s.forest (injectTarget s ident target).forest := by
  unfold injectTarget
  split
  · exact Forest.Extends.refl _
  · exact extends_injectInto _ _

theorem inject_invariant {P : State → Prop} (plan : Plan)
    (keeps : ∀ s ident target, plan.targets.get? ident = some target → P s →
      P (injectTarget s ident target)) (hs : P s) :
    P (inject plan s) := by
  unfold inject
  split
  · apply List.foldlRecOn _ _ hs
    intro s hs row hrow
    exact keeps s row.1 row.2 (Targets.mem_rows.1 (List.mem_filter.1 hrow).1) hs
  · exact hs

/-- Injection only adds artifacts. -/
theorem extends_inject (plan : Plan) (s : State) :
    Forest.Extends s.forest (inject plan s).forest := by
  apply inject_invariant (P := fun s' => Forest.Extends s.forest s'.forest)
  · intro s' ident target _ h
    exact h.trans (extends_injectTarget s' ident target)
  · exact Forest.Extends.refl _

theorem propertyUpdates_inject (plan : Plan) (s : State) :
    (inject plan s).log.propertyUpdates = s.log.propertyUpdates := by
  apply inject_invariant (P := fun s' => s'.log.propertyUpdates = s.log.propertyUpdates)
  · intro s' ident target _ h
    rw [← h]
    unfold injectTarget
    split <;> rfl
  · rfl

/-- The revisions that are pending after the first phases can be carried out once each. -/
theorem orderly_prepare (plan : Plan) (hF : F.NoFieldNames) :
    Orderly (prepare plan F).1.forest (prepare plan F).1.ledger.pending :=
  (ready_prepare plan F hF).orderly

/-- However a pass ends, it ends before, during or after the carrying out of revisions. -/
theorem run_fst (plan : Plan) (F : Forest) :
    ∃ t, (t = (prepare plan F).1 ∨ t = (carryOutAll plan (prepare plan F).1).1) ∧
      Forest.Extends t.forest (run plan F).1.forest := by
  have hcarry := Walk.andThen_fst (carryOutAll plan) (prepare plan F)
  refine ⟨(revise plan F).1, hcarry, ?_⟩
  rcases run_fst_cases plan F with h | h
  · rw [h]
    exact Forest.Extends.refl _
  · rw [h]
    exact extends_inject plan _

theorem version?_run (plan : Plan) (hF : F.NoFieldNames) (i : Nat) :
    (run plan F).1.forest.version? i = (prepare plan F).1.forest.version? i := by
  obtain ⟨t, ht, hrun⟩ := run_fst plan F
  rw [hrun.versions]
  rcases ht with rfl | rfl
  · rfl
  · exact ((orderly_prepare plan hF).revised plan).versions i

theorem artifact?_run (plan : Plan) (hF : F.NoFieldNames) {slot : Slot} {a : Artifact}
    (h : (prepare plan F).1.forest.artifact? slot = some a) :
    (run plan F).1.forest.artifact? slot = some a := by
  obtain ⟨t, ht, hrun⟩ := run_fst plan F
  apply hrun.artifacts
  rcases ht with rfl | rfl
  · exact h
  · have hrev := (orderly_prepare plan hF).revised plan
    rw [Forest.artifact?_eq] at h ⊢
    rw [carryOutAll, hrev.artifacts]
    exact h

/-- An entry is changed by the revision of its scope only, which finds it as it was before. -/
theorem property?_carryOutAll (plan : Plan) {rows : List PendingRevision}
    (h : Orderly s.forest rows) (i : Nat) (place : Place) (name : String) :
    (Walk.untilFault (carryOut plan) rows s).1.forest.property? i place name =
        s.forest.property? i place name ∨
      ∃ q ∈ rows, ∃ s₁ : State, q.scope = ⟨i, name⟩ ∧ s₁.forest.Settled q.scope ∧
        Forest.SameNames s.forest s₁.forest ∧
        s₁.forest.property? i place name = s.forest.property? i place name ∧
        (Walk.untilFault (carryOut plan) rows s).1.forest.property? i place name =
          (carryOut plan s₁ q).1.forest.property? i place name := by
  by_cases hmem : (⟨i, name⟩ : Scope) ∈ rows.map PendingRevision.scope
  · obtain ⟨q, hq, hscope⟩ := List.mem_map.1 hmem
    obtain ⟨before, after, rfl, hsplit⟩ := Walk.untilFault_fst_split (carryOut plan) s hq
    rcases hsplit with hb | ⟨later, hl, hb⟩
    · left
      rw [hb]
      apply ((h.sublist (List.sublist_append_left before _)).revised plan).entries
      rw [← hscope]
      exact h.not_mem_before (List.mem_cons_self ..)
    · have hvisit := h.visited plan hl
      obtain ⟨others, hno, hrev⟩ := hvisit.before
      obtain ⟨others', hno', hrev'⟩ := hvisit.after
      rw [hscope] at hno hno'
      have hbefore := hrev.entries i place name hno
      refine Or.inr ⟨q, hq, _, hscope, hvisit.settled, hrev.names, hbefore, ?_⟩
      rw [hb]
      exact hrev'.entries i place name hno'
  · exact Or.inl ((h.revised plan).entries i place name hmem)

/-- An entry that a pass changes is changed by the one revision of its scope, which finds it as it
was before the pass. -/
theorem property?_run (plan : Plan) (hF : F.NoFieldNames) (i : Nat) (place : Place)
    (name : String) :
    (run plan F).1.forest.property? i place name = F.property? i place name ∨
      ∃ q ∈ (prepare plan F).1.ledger.pending, ∃ s₁ : State, q.scope = ⟨i, name⟩ ∧
        s₁.forest.Settled q.scope ∧ Forest.SameNames F s₁.forest ∧
        s₁.forest.property? i place name = F.property? i place name ∧
        (run plan F).1.forest.property? i place name =
          (carryOut plan s₁ q).1.forest.property? i place name := by
  have hsame := (ready_prepare plan F hF).same
  obtain ⟨t, ht, hrun⟩ := run_fst plan F
  rw [hrun.same.property?, ← hsame.property?]
  rcases ht with rfl | rfl
  · exact Or.inl rfl
  · have hentry := property?_carryOutAll plan (orderly_prepare plan hF) i place name
    rcases hentry with h | ⟨q, hq, s₁, hscope, hset, hnames, hbefore, hafter⟩
    · exact Or.inl h
    · exact Or.inr ⟨q, hq, s₁, hscope, hset, hsame.sameNames.trans hnames, hbefore, hafter⟩

/-- A module with two dependencies, one of them in a version that its parent declares under two
names. -/
def sharedForest : Forest where
  modules := [
    { ident := ⟨"org.foo", "root"⟩, version := "1.0",
      main.properties := .ofRows [("dep.version", "1.0"), ("alias", "$\x7bdep.version\x7d")] },
    { ident := ⟨"org.foo", "app"⟩, version := "1.0", parent := some ⟨"org.foo", "root"⟩,
      main.artifacts.dependencies := [
        { ident := ⟨"org.dep", "a"⟩, version := some "$\x7balias\x7d" },
        { ident := ⟨"org.dep", "b"⟩, version := some "3.0" }] }]
  grounded := ⟨by decide, by decide⟩

def sharedPlan (policy : Policy) (version : String) : Plan where
  policy
  targets.versions := .ofRows [(⟨"org.dep", "a"⟩, version), (⟨"org.dep", "b"⟩, "3.0.redhat-1")]
  relocations := .empty

/-- Strict alignment to versions with a suffix, where violations are tolerated. -/
def tolerant : Policy := { strictAlignment := true, versionSuffix := some "redhat" }

end Realign.Alignment
