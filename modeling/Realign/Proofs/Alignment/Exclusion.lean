import Realign.Proofs.Alignment.Record
import Realign.Proofs.Alignment.Repetition
import Realign.Proofs.Property.Update

/-!
Artifacts in excluded scopes. A pass passes them by, so their declarations stay as they are. A
property is shared by all who refer to it, though: where an artifact that takes part moves one,
it moves for the others as well. That is the only way in which a pass reaches an excluded
artifact. Whatever a pass writes, it writes where the references of someone with a target end,
and a version that comes to no such property resolves as before.
-/
namespace Realign

namespace Forest

variable {F G : Forest} {i : Nat} {name : String} {d : Declaration}

theorem SameNames.exists_declaration? (h : SameNames F G) (hd : F.declaration? i name = some d) :
    ∃ value, G.declaration? i name = some ⟨d.holder, d.place, value⟩ := by
  have hsome := h.names d.holder d.place name
  rw [property?_of_declaration? hd] at hsome
  obtain ⟨value, hvalue⟩ := Option.isSome_iff_exists.1 hsome
  exact ⟨value, h.declaration?_of_property? hd hvalue⟩

/-- A scope whose references lead to the entry of a name at a place. -/
def LeadsTo (F : Forest) (scope : Scope) (i : Nat) (place : Place) (name : String) : Prop :=
  F.Leads scope.holder scope.property name ∧
    ∃ value, F.declaration? scope.holder name = some ⟨i, place, value⟩

/-- Bare values stay, so what a scope leads to it leads to still. -/
theorem Revised.leadsTo {scopes : List Scope} (h : Revised F scopes G) {scope : Scope}
    {place : Place} (hl : F.LeadsTo scope i place name) : G.LeadsTo scope i place name := by
  obtain ⟨hleads, value, hd⟩ := hl
  exact ⟨h.leads hleads, h.names.exists_declaration? hd⟩

theorem SameProperties.leadsTo (h : SameProperties F G) {scope : Scope} {place : Place}
    (hl : F.LeadsTo scope i place name) : G.LeadsTo scope i place name := by
  obtain ⟨hleads, value, hd⟩ := hl
  exact ⟨h.leads hleads, value, by rw [h.declaration?, hd]⟩

end Forest

namespace Alignment

variable {plan : Plan} {F : Forest} {s t : State} {slot : Slot} {slots : List Slot} {a : Artifact}

/-- The scope of a property that an artifact with a target refers to. -/
def Wanted (plan : Plan) (F : Forest) (scope : Scope) : Prop :=
  ∃ slot user target, Uses plan F slot user scope ∧ plan.targets.get? user = some target

section Wishes

/-- Every row of a ledger is that of a wanted scope. -/
def AllWanted (plan : Plan) (F : Forest) (L : Ledger) : Prop :=
  ∀ scope r, L.get? scope = some r → Wanted plan F scope

/-- The step of a slot that makes a wish enters it. -/
theorem ledger_alignSlot_of_wish {version : String} {w : Ledger.Wish}
    (h : wishAt? plan s.forest slot = some (version, w)) :
    (alignSlot plan s slot).1.ledger =
      (s.ledger.propose s.forest plan.policy slot.holder version w).1 := by
  obtain ⟨a, ha, hw⟩ := Option.bind_eq_some_iff.1 h
  obtain ⟨hv, hb, target, ht, rfl⟩ := wishOf?_eq_some.1 hw
  unfold alignSlot
  rw [ha]
  simp only [hv, ht, hb, if_true]
  rw [proposeFor_fst]

/-- Whoever makes a wish for a property refers to it. -/
theorem wanted_of_wish {version name : String} {w : Ledger.Wish} (hslot : slot ∈ F.slots)
    (h : ((F.artifact? slot).map (relocated plan.relocations)).bind (wishOf? plan) =
      some (version, w))
    (hb : Placeholder.bare? version = some name) :
    Wanted plan F (F.declaringScope slot.holder name) := by
  obtain ⟨a, ha, hw⟩ := Option.bind_eq_some_iff.1 h
  obtain ⟨hv, -, target, ht, rfl⟩ := wishOf?_eq_some.1 hw
  have hversion := version_of_alignable? hv
  have hscope : plan.policy.excludes a.scope = false := by
    unfold alignable? at hv
    split at hv
    · cases hv
    · rename_i hscope
      rwa [Bool.not_eq_true] at hscope
  exact ⟨slot, a.ident, target, ⟨(Forest.of_mem_slots hslot).1, a, version, name, ha, rfl, hscope,
    hversion, hb, rfl⟩, ht⟩

theorem AllWanted.alignSlot (h : AllWanted plan F s.ledger)
    (hsame : Forest.SameProperties F s.forest) (hslot : slot ∈ F.slots)
    (ha : s.forest.artifact? slot = (F.artifact? slot).map (relocated plan.relocations)) :
    AllWanted plan F (alignSlot plan s slot).1.ledger := by
  cases hw : wishAt? plan s.forest slot with
  | none => rwa [ledger_alignSlot_of_no_wish hw]
  | some row =>
    obtain ⟨version, w⟩ := row
    rw [ledger_alignSlot_of_wish hw]
    rw [wishAt?, ha] at hw
    rcases Ledger.propose_cases s.ledger s.forest plan.policy slot.holder version w with
      hkept | ⟨name, old, hb, -, henter⟩
    · rwa [hkept]
    · rw [henter]
      intro scope r hr
      rcases Ledger.get?_enter hr with hq | ⟨rfl, -⟩
      · exact h scope r hq
      · rw [hsame.declaringScope]
        exact wanted_of_wish hslot hw hb

/-- By induction on the slots: each is visited once, and then with the artifact as it was
relocated. -/
theorem AllWanted.alignSlots (h : AllWanted plan F s.ledger)
    (hsame : Forest.SameProperties F s.forest) (hnd : slots.Nodup) (hslots : slots ⊆ F.slots)
    (ha : ∀ slot ∈ slots,
      s.forest.artifact? slot = (F.artifact? slot).map (relocated plan.relocations)) :
    AllWanted plan F (Walk.untilFault (Alignment.alignSlot plan) slots s).1.ledger := by
  induction slots generalizing s with
  | nil => exact h
  | cons slot slots ih =>
    rw [List.nodup_cons] at hnd
    rw [List.cons_subset] at hslots
    have hstep := h.alignSlot hsame hslots.1 (ha slot (List.mem_cons_self ..))
    have hsame' := hsame.trans (sameProperties_alignSlot plan s slot)
    have ha' : ∀ other ∈ slots, (Alignment.alignSlot plan s slot).1.forest.artifact? other =
        (F.artifact? other).map (relocated plan.relocations) := by
      intro other hother
      have hne : slot ≠ other := fun e => hnd.1 (e ▸ hother)
      rw [artifact?_alignSlot_of_ne plan s hne]
      exact ha other (List.mem_cons_of_mem _ hother)
    rw [Walk.untilFault]
    rcases hcase : Alignment.alignSlot plan s slot with ⟨s', _ | fault⟩
    · rw [hcase] at hstep hsame' ha'
      exact ih hstep hsame' hnd.2 hslots.2 ha'
    · rwa [hcase] at hstep

/-- Whoever is in the ledger when all wishes are entered refers to a property and has a target. -/
theorem allWanted_enterWishes (plan : Plan) (F : Forest) :
    AllWanted plan F (enterWishes plan F).1.ledger := by
  have hprepared := prepared_relocate plan F F.slots
  obtain ⟨hsame, hledger⟩ :=
    same_alignModules plan F.indices (relocate plan F.slots ⟨F, {}, {}⟩)
  have hempty : AllWanted plan F (Walk.untilFault (alignModule plan) F.indices
      (relocate plan F.slots ⟨F, {}, {}⟩)).1.ledger := by
    rw [hledger, ledger_relocate]
    intro scope r hr
    cases hr
  rcases Walk.andThen_fst (Walk.untilFault (alignSlot plan) F.slots)
    (Walk.untilFault (alignModule plan) F.indices (relocate plan F.slots ⟨F, {}, {}⟩)) with h | h
  · rwa [enterWishes, h]
  · rw [enterWishes, h]
    apply hempty.alignSlots (hprepared.same.trans hsame) F.nodup_slots (List.Subset.refl _)
    intro slot hslot
    rw [artifact?_alignModules, artifact?_relocate plan F.nodup_slots, if_pos hslot]

theorem AllWanted.verifySlot (h : AllWanted plan F s.ledger) (slot : Slot) :
    AllWanted plan F (verifySlot plan s slot).1.ledger := by
  rcases (verifySlot_cases plan s slot).2 with hl | ⟨-, old, hl⟩
  · rwa [hl]
  · rw [hl]
    intro scope r hr
    rw [Ledger.get?_revertMatching] at hr
    obtain ⟨r', hr', -⟩ := Option.map_eq_some_iff.1 hr
    exact h scope r' hr'

/-- A revision is carried out at a wanted scope. -/
theorem wanted_of_pending {q : PendingRevision} (hq : q ∈ (prepare plan F).1.ledger.pending) :
    Wanted plan F q.scope := by
  have hall : AllWanted plan F (prepare plan F).1.ledger := by
    apply prepare_invariant (P := fun s => AllWanted plan F s.ledger)
    · exact allWanted_enterWishes plan F
    · intro s slot h
      exact h.verifySlot slot
  obtain ⟨r, hr, -⟩ := Ledger.mem_pending.1 hq
  exact hall q.scope r hr

end Wishes

section Revisions

/-- Every entry has the value that it had, or the references of a wanted scope lead to it. -/
structure Tracked (plan : Plan) (F G H : Forest) : Prop where
  revised : ∃ scopes, Forest.Revised G scopes H
  entries : ∀ i place name, H.property? i place name = G.property? i place name ∨
    ∃ scope, Wanted plan F scope ∧ H.LeadsTo scope i place name

theorem Tracked.refl (plan : Plan) (F G : Forest) : Tracked plan F G G :=
  ⟨⟨[], Forest.Revised.refl G []⟩, fun _ _ _ => Or.inl rfl⟩

theorem Tracked.rewrite {G H : Forest} (h : Tracked plan F G H) {scope : Scope} {last : String}
    {d : Declaration} (hscope : Wanted plan F scope)
    (hl : H.Leads scope.holder scope.property last)
    (hd : H.declaration? scope.holder last = some d) (hb : Placeholder.bare? d.value = none)
    (written : Option String) : Tracked plan F G (H.rewrite d last written) := by
  obtain ⟨scopes, hrev⟩ := h.revised
  have hstep := Forest.revised_rewrite hd hb written
  refine ⟨⟨_, hrev.trans hstep⟩, fun i place name => ?_⟩
  by_cases hself : d.holder = i ∧ d.place = place ∧ last = name
  · obtain ⟨rfl, rfl, rfl⟩ := hself
    exact Or.inr ⟨scope, hscope, hstep.leads hl, _, Forest.declaration?_rewrite hd written⟩
  · rw [Forest.property?_rewrite_of_ne hd written hself]
    refine (h.entries i place name).imp_right fun hex => ?_
    obtain ⟨other, hother, hto⟩ := hex
    exact ⟨other, hother, hstep.leadsTo hto⟩

theorem Tracked.carryOut {G : Forest} {q : PendingRevision} (h : Tracked plan F G s.forest)
    (hq : Wanted plan F q.scope) : Tracked plan F G (carryOut plan s q).1.forest := by
  rw [carryOut_forest, Forest.update]
  rcases s.forest.updateFollowing_cases q.scope.holder (request plan q)
    (s.forest.declaredNames q.scope.holder) q.scope.property with
    ⟨hsame, -⟩ | ⟨last, d, resolved, written, hl, hu⟩
  · rwa [hsame]
  · rw [hu]
    exact h.rewrite hq hl.leads hl.declared hl.plain written

theorem tracked_revise (plan : Plan) (F : Forest) :
    Tracked plan F (prepare plan F).1.forest (revise plan F).1.forest := by
  rcases Walk.andThen_fst (carryOutAll plan) (prepare plan F) with h | h
  · rw [revise, h]
    exact Tracked.refl plan F _
  · rw [revise, h, carryOutAll]
    apply Walk.untilFault_invariant (P := fun s : State =>
      Tracked plan F (prepare plan F).1.forest s.forest)
    · intro s q hq h
      exact h.carryOut (wanted_of_pending hq)
    · exact Tracked.refl plan F _

theorem sameProperties_prepare (plan : Plan) (F : Forest) :
    Forest.SameProperties F (prepare plan F).1.forest := by
  rw [forest_prepare]
  apply enterWishes_invariant (P := fun s => Forest.SameProperties F s.forest)
  · exact (prepared_relocate plan F F.slots).same
  · intro s i h
    exact h.trans (sameProperties_alignModule plan s i)
  · intro s slot _ h
    exact h.trans (sameProperties_alignSlot plan s slot)

theorem sameNames_run (plan : Plan) (F : Forest) :
    Forest.SameNames F (run plan F).1.forest := by
  obtain ⟨scopes, hrev⟩ := (tracked_revise plan F).revised
  have hnames := (sameProperties_prepare plan F).sameNames.trans hrev.names
  rcases run_fst_cases plan F with h | h
  · rwa [h]
  · rw [h]
    exact hnames.trans (extends_inject plan _).same.sameNames

/-- A pass that changes an entry changes it where the references of someone with a target lead. -/
theorem leadsTo_of_changed (plan : Plan) (F : Forest) {i : Nat} {place : Place} {name : String}
    (h : (run plan F).1.forest.property? i place name ≠ F.property? i place name) :
    ∃ scope, Wanted plan F scope ∧ (run plan F).1.forest.LeadsTo scope i place name := by
  have hrevise := (tracked_revise plan F).entries i place name
  rw [(sameProperties_prepare plan F).property?] at hrevise
  rcases run_fst_cases plan F with hrun | hrun
  · rw [hrun] at h ⊢
    exact hrevise.resolve_left h
  · have hsame := (extends_inject plan (revise plan F).1).same
    rw [hrun] at h ⊢
    rw [hsame.property?] at h
    obtain ⟨scope, hscope, hto⟩ := hrevise.resolve_left h
    exact ⟨scope, hscope, hsame.leadsTo hto⟩

end Revisions

section Excluded

/-- Without targets for modules no module version changes. -/
theorem version?_run_of_no_target (hmodules : ∀ m ∈ F.modules, plan.targets.get? m.ident = none)
    (i : Nat) : (run plan F).1.forest.version? i = F.version? i := by
  have hwishes : Forest.SameProperties F (enterWishes plan F).1.forest ∧
      (enterWishes plan F).1.forest.version? i = F.version? i := by
    apply enterWishes_invariant (P := fun s =>
      Forest.SameProperties F s.forest ∧ s.forest.version? i = F.version? i)
    · exact ⟨(prepared_relocate plan F F.slots).same, version?_relocate F.slots _ i⟩
    · intro s j h
      refine ⟨h.1.trans (sameProperties_alignModule plan s j), ?_⟩
      rcases (alignModule_cases plan s j).2 with hf | ⟨m, target, -, hm, ht, -⟩
      · rw [hf, h.2]
      · obtain ⟨m', hm', he⟩ :=
          Forest.exists_module_of_links h.1.links (List.mem_of_getElem? hm)
        have hident : m'.ident = m.ident := congrArg Link.ident he
        rw [← hident, hmodules m' hm'] at ht
        cases ht
    · intro s slot _ h
      exact ⟨h.1.trans (sameProperties_alignSlot plan s slot), by
        rw [version?_alignSlot, h.2]⟩
  rw [(follows_run plan F).versions, hwishes.2]

/-- A pass without relocations leaves an artifact in an excluded scope where and as it is. -/
theorem artifact?_run_of_excluded (hplan : plan.relocations = .empty)
    (ha : F.artifact? slot = some a) (hscope : plan.policy.excludes a.scope = true) :
    (run plan F).1.forest.artifact? slot = some a := by
  apply (follows_run plan F).artifacts
  apply enterWishes_invariant (P := fun s => s.forest.artifact? slot = some a)
  · rw [relocate_of_empty hplan]
    exact ha
  · intro s i h
    rwa [artifact?_alignModule]
  · intro s other _ h
    by_cases hother : other = slot
    · subst hother
      unfold alignSlot alignable?
      simp only [h, hscope, if_true]
    · rwa [artifact?_alignSlot_of_ne plan s hother]

/-- A declaration that a pass has written over, on behalf of someone whose references lead there. -/
structure Moved (plan : Plan) (F G : Forest) (name : String) (d : Declaration) : Prop where
  changed : G.property? d.holder d.place name ≠ some d.value
  wanted : ∃ scope, Wanted plan F scope ∧ G.LeadsTo scope d.holder d.place name

/-- A name stands for what it stood for, or its declaration has been written over. -/
theorem lookup_run_or_moved (hmodules : ∀ m ∈ F.modules, plan.targets.get? m.ident = none)
    (i : Nat) (name : String) :
    ((run plan F).1.forest.resolver i).lookup name = (F.resolver i).lookup name ∨
      ∃ d, F.fieldText? i name = none ∧ F.declaration? i name = some d ∧
        Moved plan F (run plan F).1.forest name d := by
  have hnames := sameNames_run plan F
  have hfield := Forest.fieldText?_congr hnames (version?_run_of_no_target hmodules) i name
  rw [Forest.lookup_eq, Forest.lookup_eq, hfield]
  cases hf : F.fieldText? i name with
  | some text => exact Or.inl rfl
  | none =>
    cases hd : F.declaration? i name with
    | none => exact Or.inl (by rw [hnames.declaration?_eq_none.2 hd])
    | some d =>
      by_cases hkept : (run plan F).1.forest.property? d.holder d.place name = some d.value
      · exact Or.inl (by rw [hnames.declaration?_of_property? hd hkept])
      · refine Or.inr ⟨d, rfl, rfl, hkept, leadsTo_of_changed plan F ?_⟩
        rwa [Forest.property?_of_declaration? hd]

/-- A text resolves as before, or comes to a property that has been written over. -/
theorem resolve_run_or_moved (hmodules : ∀ m ∈ F.modules, plan.targets.get? m.ident = none)
    {i : Nat} {value text : String} (hr : F.resolve i value = .ok text) :
    (run plan F).1.forest.resolve i value = .ok text ∨
      ∃ name d, Reaches (F.resolver i).lookup value.toList name ∧ F.fieldText? i name = none ∧
        F.declaration? i name = some d ∧ Moved plan F (run plan F).1.forest name d := by
  by_contra hnot
  rw [not_or] at hnot
  obtain ⟨hresolve, hmoved⟩ := hnot
  apply hresolve
  rw [Forest.resolve, Resolver.resolve_eq_ok_iff] at hr ⊢
  apply hr.of_agree
  · intro name hnone
    rcases lookup_run_or_moved hmodules i name with hsame | ⟨d, hf, hd, -⟩
    · rw [hsame, hnone]
    · rw [Forest.lookup_eq, hf, hd] at hnone
      cases hnone
  · intro name hreach
    rcases lookup_run_or_moved hmodules i name with hsame | ⟨d, hf, hd, hm⟩
    · exact hsame
    · exact absurd ⟨name, d, hreach, hf, hd, hm⟩ hmoved

/-- However a pass ends, an artifact in an excluded scope is left as it is. Its version resolves as
before, unless it comes to a property that the pass has moved for an artifact that takes part. -/
theorem run_excluded (plan : Plan) (F : Forest) (hplan : plan.relocations = .empty)
    (hmodules : ∀ m ∈ F.modules, plan.targets.get? m.ident = none) (slot : Slot) (a : Artifact)
    (ha : F.artifact? slot = some a) (hscope : plan.policy.excludes a.scope = true) :
    (run plan F).1.forest.artifact? slot = some a ∧
      ∀ version text, a.version = some version → F.resolve slot.holder version = .ok text →
        (run plan F).1.forest.resolve slot.holder version = .ok text ∨
          ∃ name d, Reaches (F.resolver slot.holder).lookup version.toList name ∧
            F.fieldText? slot.holder name = none ∧
            F.declaration? slot.holder name = some d ∧
            Moved plan F (run plan F).1.forest name d :=
  ⟨artifact?_run_of_excluded hplan ha hscope, fun _ _ _ hr => resolve_run_or_moved hmodules hr⟩

/-- A module with a property for the versions of two dependencies, one of them for tests only. -/
def testedForest : Forest where
  modules := [
    { ident := ⟨"org.foo", "app"⟩, version := "1.0",
      main.properties := .ofRows [("sharedVersion", "1.0")]
      main.artifacts.dependencies := [
        { ident := ⟨"org.dep", "a"⟩, version := some "$\x7bsharedVersion\x7d" },
        { ident := ⟨"org.dep", "t"⟩, version := some "$\x7bsharedVersion\x7d"
          scope := some "test" }] }]
  grounded := ⟨by decide, by decide⟩

def testedPlan : Plan where
  policy := { excludedScopes := ["test"] }
  targets.versions := .ofRows [(⟨"org.dep", "a"⟩, "1.1")]
  relocations := .empty

theorem tested_excluded :
    (run testedPlan testedForest).1.forest.artifact? ⟨0, .main, .dependency, 1⟩ =
        some ⟨⟨"org.dep", "t"⟩, some "$\x7bsharedVersion\x7d", some "test"⟩ ∧
      ((run testedPlan testedForest).1.forest.resolve 0 "$\x7bsharedVersion\x7d" = .ok "1.0" ∨
        ∃ name d,
          Reaches (testedForest.resolver 0).lookup "$\x7bsharedVersion\x7d".toList name ∧
            testedForest.fieldText? 0 name = none ∧
            testedForest.declaration? 0 name = some d ∧
            Moved testedPlan testedForest (run testedPlan testedForest).1.forest name d) :=
  have hresolves : testedForest.resolve 0 "$\x7bsharedVersion\x7d" = .ok "1.0" := by
    decide +kernel
  have hexcluded := run_excluded testedPlan testedForest rfl (by decide)
    ⟨0, .main, .dependency, 1⟩ ⟨⟨"org.dep", "t"⟩, some "$\x7bsharedVersion\x7d", some "test"⟩
    (by decide) (by decide)
  ⟨hexcluded.1, hexcluded.2 _ _ rfl hresolves⟩

/-- What a dependency for tests resolves to moves along with a property that it shares. -/
theorem not_forall_excluded_resolve :
    ¬ ∀ (plan : Plan) (F : Forest) (s : State) (slot : Slot) (a : Artifact)
      (version text : String), plan.relocations = .empty →
      (∀ m ∈ F.modules, plan.targets.get? m.ident = none) → run plan F = (s, none) →
      slot ∈ F.slots → F.artifact? slot = some a → plan.policy.excludes a.scope = true →
      a.version = some version → F.resolve slot.holder version = .ok text →
      s.forest.resolve slot.holder version = .ok text := by
  intro h
  have hmoved : (run testedPlan testedForest).1.forest.resolve 0 "$\x7bsharedVersion\x7d" =
      .ok "1.1" := by decide +kernel
  have hkept := h testedPlan testedForest (run testedPlan testedForest).1
    ⟨0, .main, .dependency, 1⟩
    ⟨⟨"org.dep", "t"⟩, some "$\x7bsharedVersion\x7d", some "test"⟩ "$\x7bsharedVersion\x7d" "1.0"
    rfl (by decide) (Prod.ext rfl (by decide +kernel)) (by decide) (by decide) (by decide) rfl
    (by decide +kernel)
  rw [hmoved] at hkept
  exact absurd hkept (by decide)

end Excluded

end Alignment
end Realign
