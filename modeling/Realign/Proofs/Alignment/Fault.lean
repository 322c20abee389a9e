import Realign.Proofs.Alignment.Exclusion

/-!
Passes that stop. A clash, or a user of a property that did not ask for its revision, comes
to light while the ledger is filled and checked, and that writes no property. Where the carrying
out of revisions stops, the update at fault has written nothing. The revisions before it have
other scopes, and those after it are not reached.
-/
namespace Realign

/-- Whether wishes do not go together, or a user of a property did not ask for its revision. -/
def AlignError.isConflict : AlignError → Bool
  | .propertyClash .. => true
  | .unregisteredContributor .. => true
  | _ => false

theorem UpdateRequest.isConflict_of_written? {r : UpdateRequest} {name declared resolved : String}
    {e : AlignError} (h : r.written? name declared resolved = .error e) : e.isConflict = false := by
  unfold written? at h
  split at h
  · split at h
    · cases h
      rfl
    · cases h
  · split at h
    · split at h
      · cases h
        rfl
      · split at h <;> cases h
    · cases h

namespace Forest

variable {F : Forest} {i : Nat} {r : UpdateRequest} {available : List String} {name : String}
  {e : AlignError}

/-- No update finds wishes at odds. -/
theorem isConflict_of_updateFollowing (h : (F.updateFollowing i r available name).2 = .error e) :
    e.isConflict = false := by
  fun_induction F.updateFollowing i r available name
  case case5 ih => exact ih h
  case case7 hw =>
    cases h
    exact UpdateRequest.isConflict_of_written? hw
  all_goals
    cases h
    try rfl

theorem update_fst_of_error (h : (F.update i r name).2 = .error e) : (F.update i r name).1 = F := by
  rcases F.updateFollowing_cases i r (F.declaredNames i) name with ⟨hsame, -⟩ | ⟨_, _, _, _, -, hu⟩
  · exact hsame
  · rw [update, hu] at h
    cases h

end Forest

namespace Alignment

variable {plan : Plan} {F : Forest} {s t : State} {q : PendingRevision}
  {before after : List PendingRevision} {e : AlignError}

/-- A revision that stops the pass does so in its update. -/
theorem update_of_carryOut_eq_some (h : carryOut plan s q = (t, some e)) :
    (s.forest.update q.scope.holder (request plan q) q.scope.property).2 = .error e := by
  unfold carryOut at h
  dsimp only at h
  rw [request]
  split at h
  case h_1 heq =>
    rw [heq, Option.some.inj (congrArg Prod.snd h)]
  all_goals cases congrArg Prod.snd h

theorem carryOut_forest_of_fault (h : carryOut plan s q = (t, some e)) : t.forest = s.forest := by
  have hforest := carryOut_forest plan s q
  rw [Forest.update_fst_of_error (update_of_carryOut_eq_some h), h] at hforest
  exact hforest

/-- A pass that stopped did so in its first phases, or at one of the revisions that they left. -/
theorem run_eq_some (h : run plan F = (t, some e)) :
    prepare plan F = (t, some e) ∨
      ∃ s, prepare plan F = (s, none) ∧ carryOutAll plan s = (t, some e) := by
  rw [run_eq, Walk.andThen_eq_some] at h
  rcases h with h | ⟨u, -, h⟩
  · exact Walk.andThen_eq_some.1 h
  · cases h

/-- What carrying out revisions stops with is no conflict. -/
theorem isConflict_of_carryOutAll (h : carryOutAll plan s = (t, some e)) :
    e.isConflict = false := by
  obtain ⟨-, q, -, s₁, -, -, hfault⟩ := Walk.untilFault_fault_split h
  exact Forest.isConflict_of_updateFollowing (update_of_carryOut_eq_some hfault)

/-- The entries of the revision at fault, and of all after it, are as they were before revisions
were carried out. -/
theorem Orderly.property?_of_fault {s₁ : State} (h : Orderly s.forest (before ++ q :: after))
    (hbefore : Walk.untilFault (carryOut plan) before s = (s₁, none))
    (hfault : carryOut plan s₁ q = (t, some e)) {x : PendingRevision} (hx : x ∈ q :: after)
    (place : Place) :
    t.forest.property? x.scope.holder place x.scope.property =
      s.forest.property? x.scope.holder place x.scope.property := by
  have hrevised := (h.sublist (List.sublist_append_left before _)).revised plan
  rw [hbefore] at hrevised
  rw [carryOut_forest_of_fault hfault]
  exact hrevised.entries _ _ _ (h.not_mem_before hx)

/-- Conflicts come to light before any property is written: a pass that stops at one leaves every
table of properties as it was. A pass that stops while it carries out revisions came through as far
as the revision at fault, and leaves the entries of this one, and of all that were to follow, as
they were before the pass. -/
theorem properties_of_run_fault (h : run plan F = (t, some e)) :
    (e.isConflict = true → ∀ i place, t.forest.properties? i place = F.properties? i place) ∧
      (F.NoFieldNames → ∀ s, prepare plan F = (s, none) →
        ∃ before q after s₁, s.ledger.pending = before ++ q :: after ∧
          Walk.untilFault (carryOut plan) before s = (s₁, none) ∧
          carryOut plan s₁ q = (t, some e) ∧
          ∀ x ∈ q :: after, ∀ place,
            t.forest.property? x.scope.holder place x.scope.property =
              F.property? x.scope.holder place x.scope.property) := by
  have hsame := sameProperties_prepare plan F
  constructor
  · intro hconflict i place
    rcases run_eq_some h with hprepare | ⟨s, -, hcarry⟩
    · rw [hprepare] at hsame
      exact hsame.properties i place
    · rw [isConflict_of_carryOutAll hcarry] at hconflict
      cases hconflict
  · intro hF s hs
    rw [hs] at hsame
    have horderly := orderly_prepare plan hF
    rw [hs] at horderly
    rcases run_eq_some h with hprepare | ⟨u, hu, hcarry⟩
    · rw [hs] at hprepare
      cases hprepare
    · obtain rfl : s = u := congrArg Prod.fst (hs.symm.trans hu)
      obtain ⟨before, q, after, s₁, hpending, hbefore, hfault⟩ := Walk.untilFault_fault_split hcarry
      refine ⟨before, q, after, s₁, hpending, hbefore, hfault, fun x hx place => ?_⟩
      rw [hpending] at horderly
      rw [horderly.property?_of_fault hbefore hfault hx place]
      exact hsame.property? ..

/-- Two versions for one property. -/
def clashingPlan : Plan where
  policy := {}
  targets.versions := .ofRows [(⟨"org.dep", "a"⟩, "1.1"), (⟨"org.dep", "t"⟩, "1.2")]
  relocations := .empty

/-- A module with three dependencies, each with a property for its version. -/
def threefoldForest : Forest where
  modules := [
    { ident := ⟨"org.foo", "app"⟩, version := "1.0",
      main.properties := .ofRows [("first", "1.0"), ("second", "1.0"), ("third", "1.0")]
      main.artifacts.dependencies := [
        { ident := ⟨"org.dep", "a"⟩, version := some "$\x7bfirst\x7d" },
        { ident := ⟨"org.dep", "b"⟩, version := some "$\x7bsecond\x7d" },
        { ident := ⟨"org.dep", "c"⟩, version := some "$\x7bthird\x7d" }] }]
  grounded := ⟨by decide, by decide⟩

/-- A version for the second property that strict alignment does not let through. -/
def violatingPlan : Plan where
  policy := { tolerant with strictViolationFails := true }
  targets.versions := .ofRows [(⟨"org.dep", "a"⟩, "1.0.0.redhat-1"),
    (⟨"org.dep", "b"⟩, "2.0.redhat-1"), (⟨"org.dep", "c"⟩, "1.0.0.redhat-1")]
  relocations := .empty

/-- A revision of a property of the module. -/
def threefoldRevision (name version : String) : PendingRevision :=
  ⟨⟨0, name⟩, "1.0", version, false⟩

theorem properties_of_clashing_or_violating_run :
    ((run clashingPlan testedForest).2 =
          some (.propertyClash ⟨"org.foo", "app"⟩ "sharedVersion" "1.1" [⟨"org.dep", "a"⟩] "1.2"
            ⟨"org.dep", "t"⟩) ∧
        ∀ i place, (run clashingPlan testedForest).1.forest.properties? i place =
          testedForest.properties? i place) ∧
      (run violatingPlan threefoldForest).2 =
          some (.strictViolation "property second" "1.0" "2.0.redhat-1") ∧
        (run violatingPlan threefoldForest).1.forest.property? 0 .main "first" =
          some "1.0.0.redhat-1" ∧
        ∃ before q after s₁,
          (before.map PendingRevision.scope = [⟨0, "first"⟩] ∧ q.scope = ⟨0, "second"⟩ ∧
            after.map PendingRevision.scope = [⟨0, "third"⟩]) ∧
          (prepare violatingPlan threefoldForest).1.ledger.pending = before ++ q :: after ∧
          Walk.untilFault (carryOut violatingPlan) before
            (prepare violatingPlan threefoldForest).1 = (s₁, none) ∧
          carryOut violatingPlan s₁ q = ((run violatingPlan threefoldForest).1,
            some (.strictViolation "property second" "1.0" "2.0.redhat-1")) ∧
          ∀ x ∈ q :: after, ∀ place,
            (run violatingPlan threefoldForest).1.forest.property? x.scope.holder place
                x.scope.property =
              threefoldForest.property? x.scope.holder place x.scope.property := by
  have hclash : (run clashingPlan testedForest).2 =
      some (.propertyClash ⟨"org.foo", "app"⟩ "sharedVersion" "1.1" [⟨"org.dep", "a"⟩] "1.2"
        ⟨"org.dep", "t"⟩) := by
    decide +kernel
  have hviolation : (run violatingPlan threefoldForest).2 =
      some (.strictViolation "property second" "1.0" "2.0.redhat-1") := by
    decide +kernel
  obtain ⟨before, q, after, s₁, hpending, hbefore, hfault, hkept⟩ :=
    (properties_of_run_fault (Prod.ext rfl hviolation)).2 (by decide) _
      (Prod.ext rfl (by decide +kernel))
  have hrows : (prepare violatingPlan threefoldForest).1.ledger.pending =
      [threefoldRevision "first" "1.0.0.redhat-1"] ++ threefoldRevision "second" "2.0.redhat-1" ::
        [threefoldRevision "third" "1.0.0.redhat-1"] := by
    decide +kernel
  have hwritten : (Walk.untilFault (carryOut violatingPlan)
      [threefoldRevision "first" "1.0.0.redhat-1"]
      (prepare violatingPlan threefoldForest).1).2 = none := by
    decide +kernel
  have hstopped : (carryOut violatingPlan (Walk.untilFault (carryOut violatingPlan)
      [threefoldRevision "first" "1.0.0.redhat-1"] (prepare violatingPlan threefoldForest).1).1
      (threefoldRevision "second" "2.0.redhat-1")).2 =
        some (.strictViolation "property second" "1.0" "2.0.redhat-1") := by
    decide +kernel
  obtain ⟨rfl, rfl, rfl⟩ := Walk.untilFault_fault_unique (hpending.symm.trans hrows) hbefore hfault
    (Prod.ext rfl hwritten) (Prod.ext rfl hstopped)
  refine ⟨⟨hclash, (properties_of_run_fault (Prod.ext rfl hclash)).1 rfl⟩, hviolation,
    by decide +kernel, _, _, _, s₁, ⟨rfl, rfl, rfl⟩, hpending, hbefore, hfault, hkept⟩

end Alignment
end Realign
