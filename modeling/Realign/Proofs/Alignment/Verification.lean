import Realign.Proofs.Alignment.Run
import Realign.Proofs.Property.Rewording

/-!
What the check of the users of properties lets through. A user that has not asked for the change
of its property is idle. An idle user is a fault or rolls back every revision that started from
the same value, so what is pending after the check are the revisions that started from another
value than those of all idle users. Whoever has asked for a change has a target, and an
entry that a pass changes is the scope of a pending revision.
-/
namespace Realign

namespace Ledger

variable {L : Ledger} {F : Forest} {t : Targets} {p : Policy}

/-- Every row knows what it started from, and everyone who asked has a target. -/
def Registered (t : Targets) (L : Ledger) : Prop :=
  ∀ s r, L.get? s = some r →
    (∃ old, r.old = some old) ∧ ∀ x ∈ r.contributors, ∃ target, t.get? x = some target

theorem Registered.propose (h : Registered t L) {ident : Ident} {target : Target}
    (ht : t.get? ident = some target) (i : Nat) (value version : String) (forced : Bool) :
    Registered t (L.propose F p i value ⟨ident, version, forced⟩).1 := by
  rcases propose_cases L F p i value ⟨ident, version, forced⟩ with
    hsame | ⟨name, old, -, -, henter⟩
  · rw [hsame]
    exact h
  · rw [henter]
    intro s r hr
    rcases get?_enter hr with hq | ⟨rfl, new, _, rfl, -, -⟩
    · exact h s r hq
    · refine ⟨⟨_, rfl⟩, fun x hx => ?_⟩
      rcases Revision.mem_contributors_record.1 hx with hx | rfl
      · rw [revisionAt] at hx
        cases hrow : L.get? (F.declaringScope i name) with
        | none =>
          rw [hrow] at hx
          cases hx
        | some r =>
          rw [hrow] at hx
          exact (h _ r hrow).2 x hx
      · exact ⟨target, ht⟩

theorem Registered.revertMatching (h : Registered t L) (old : String) :
    Registered t (L.revertMatching old) := by
  intro s r' hr'
  rw [get?_revertMatching] at hr'
  obtain ⟨r, hr, rfl⟩ := Option.map_eq_some_iff.1 hr'
  rw [Revision.revertFrom]
  split
  · exact h s r hr
  · exact h s r hr

end Ledger

namespace Alignment

variable {plan : Plan} {F : Forest} {s t : State} {slot : Slot} {slots : List Slot}
  {r : Revision} {q : PendingRevision}

/-- The user in a slot has not asked for the change that is pending for its property. -/
def Idle (plan : Plan) (s : State) (slot : Slot) (r : Revision) : Prop :=
  ∃ a name, s.forest.artifact? slot = some a ∧
    (alignable? plan.policy a).bind Placeholder.bare? = some name ∧
    s.ledger.get? (s.forest.declaringScope slot.holder name) = some r ∧
    r.isReverted = false ∧ a.ident ∉ r.contributors

theorem Idle.unique {r' : Revision} (h : Idle plan s slot r) (h' : Idle plan s slot r') :
    r = r' := by
  obtain ⟨a, name, ha, hn, hr, -⟩ := h
  obtain ⟨a', name', ha', hn', hr', -⟩ := h'
  rw [ha] at ha'
  obtain rfl := Option.some.inj ha'
  rw [hn] at hn'
  obtain rfl := Option.some.inj hn'
  rw [hr] at hr'
  exact Option.some.inj hr'

theorem Idle.exists_old (h : Idle plan s slot r) (hrows : s.ledger.Registered plan.targets) :
    ∃ old, r.old = some old := by
  obtain ⟨a, name, -, -, hr, -⟩ := h
  exact (hrows _ r hr).1

/-- An idle user is idle in another state as well if its property has a row there that is to change
and was asked for by the same. -/
theorem Idle.transfer (h : Idle plan s slot r)
    (hartifact : t.forest.artifact? slot = s.forest.artifact? slot)
    (hscope : ∀ name, t.forest.declaringScope slot.holder name =
      s.forest.declaringScope slot.holder name) :
    ∃ scope, s.ledger.get? scope = some r ∧ r.isReverted = false ∧
      ∀ r', t.ledger.get? scope = some r' → r'.isReverted = false →
        r'.contributors = r.contributors → Idle plan t slot r' := by
  obtain ⟨a, name, ha, hn, hr, hpending, huser⟩ := h
  refine ⟨_, hr, hpending, fun r' hr' hpending' hsame => ?_⟩
  refine ⟨a, name, ?_, hn, ?_, hpending', ?_⟩
  · rw [hartifact, ha]
  · rw [hscope, hr']
  · rw [hsame]
    exact huser

section Step

theorem verifySlot_of_not_idle (h : ∀ r, ¬ Idle plan s slot r) :
    verifySlot plan s slot = (s, none) := by
  unfold verifySlot
  cases ha : s.forest.artifact? slot with
  | none => rfl
  | some a =>
    dsimp only
    cases hn : (alignable? plan.policy a).bind Placeholder.bare? with
    | none => rfl
    | some name =>
      dsimp only
      have hverify : s.ledger.verify s.forest plan.policy slot.holder a.ident name =
          (s.ledger, .ok false) := by
        unfold Ledger.verify
        dsimp only
        cases hr : s.ledger.get? (s.forest.declaringScope slot.holder name) with
        | none => exact ite_self _
        | some r =>
          have hagreed : r.isReverted = true ∨ a.ident ∈ r.contributors := by
            by_contra hnot
            rw [not_or, Bool.not_eq_true] at hnot
            exact h r ⟨a, name, ha, hn, hr, hnot⟩
          simp only [hagreed, if_true, ite_self]
      rw [hverify]

theorem verifySlot_of_idle (h : Idle plan s slot r) {old : String} (hold : r.old = some old) :
    (plan.policy.strictPropertyValidation = .revert →
      ∃ t, verifySlot plan s slot = (t, none) ∧ t.forest = s.forest ∧
        t.ledger = s.ledger.revertMatching old) ∧
    (plan.policy.strictPropertyValidation = .enabled →
      ∃ e, (verifySlot plan s slot).2 = some e) := by
  obtain ⟨a, name, ha, hn, hr, hpending, huser⟩ := h
  unfold verifySlot Ledger.verify
  rw [ha]
  simp only [hn, hr, hpending, huser, hold, Bool.false_eq_true, or_self, if_false]
  constructor
  · intro hmode
    simp only [hmode]
    exact ⟨_, rfl, rfl, rfl⟩
  · intro hmode
    simp only [hmode]
    exact ⟨_, rfl⟩

/-- After a rollback those are idle whose property started from another value. -/
theorem idle_revertMatching {old : String} (hforest : t.forest = s.forest)
    (hledger : t.ledger = s.ledger.revertMatching old) :
    Idle plan t slot r ↔ Idle plan s slot r ∧ r.old ≠ some old := by
  have hrow (scope : Scope) (hpending : r.isReverted = false) :
      (s.ledger.revertMatching old).get? scope = some r ↔
        s.ledger.get? scope = some r ∧ r.old ≠ some old := by
    rw [Ledger.get?_revertMatching, Option.map_eq_some_iff]
    constructor
    · intro hex
      obtain ⟨r', hr', rfl⟩ := hex
      rw [Revision.revertFrom] at hpending ⊢
      split
      · rename_i ho
        simp [Revision.isReverted, Revision.revert, ho] at hpending
      · exact ⟨hr', ‹_›⟩
    · intro hboth
      exact ⟨r, hboth.1, by rw [Revision.revertFrom, if_neg hboth.2]⟩
  unfold Idle
  rw [hforest, hledger]
  constructor
  · intro hidle
    obtain ⟨a, name, ha, hn, hr, hpending, huser⟩ := hidle
    obtain ⟨hr, hne⟩ := (hrow _ hpending).1 hr
    exact ⟨⟨a, name, ha, hn, hr, hpending, huser⟩, hne⟩
  · intro hidle
    obtain ⟨⟨a, name, ha, hn, hr, hpending, huser⟩, hne⟩ := hidle
    exact ⟨a, name, ha, hn, (hrow _ hpending).2 ⟨hr, hne⟩, hpending, huser⟩

/-- A check of one user that comes through. It takes out the revisions, and with them the idle
users, that started from the same value as the property of this user, if the user is idle. -/
theorem verifySlot_eq_none (hmode : plan.policy.strictPropertyValidation ≠ .disabled)
    (hrows : s.ledger.Registered plan.targets) (h : verifySlot plan s slot = (t, none)) :
    t.ledger.Registered plan.targets ∧
      (∀ q, q ∈ t.ledger.pending ↔
        q ∈ s.ledger.pending ∧ ∀ r, Idle plan s slot r → r.old ≠ some q.old) ∧
      ∀ other r', Idle plan t other r' ↔
        Idle plan s other r' ∧ ∀ r, Idle plan s slot r → r.old ≠ r'.old := by
  by_cases hidle : ∃ r, Idle plan s slot r
  · obtain ⟨r, hr⟩ := hidle
    obtain ⟨old, hold⟩ := hr.exists_old hrows
    have honly (o : Option String) :
        (∀ r', Idle plan s slot r' → r'.old ≠ o) ↔ o ≠ some old := by
      constructor
      · intro hall
        rw [← hold]
        exact (hall r hr).symm
      · intro hne r' hr'
        rw [hr'.unique hr, hold]
        exact hne.symm
    obtain ⟨hrevert, henabled⟩ := verifySlot_of_idle hr hold
    cases hm : plan.policy.strictPropertyValidation with
    | disabled => exact absurd hm hmode
    | enabled =>
      obtain ⟨e, he⟩ := henabled hm
      rw [h] at he
      cases he
    | revert =>
      obtain ⟨_, ht, hforest, hledger⟩ := hrevert hm
      rw [h] at ht
      obtain rfl := (Prod.mk.inj ht).1
      refine ⟨?_, fun q => ?_, fun other r' => ?_⟩
      · rw [hledger]
        exact hrows.revertMatching old
      · rw [hledger, Ledger.mem_pending_revertMatching, honly]
        simp
      · rw [idle_revertMatching hforest hledger, honly]
  · have hnot := not_exists.1 hidle
    rw [verifySlot_of_not_idle hnot] at h
    obtain rfl := (Prod.mk.inj h).1
    simp [hnot, hrows]

/-- A check of one user comes through unless the user is idle and that is a fault. -/
theorem exists_verifySlot (hrows : s.ledger.Registered plan.targets)
    (h : plan.policy.strictPropertyValidation = .enabled → ∀ r, ¬ Idle plan s slot r) :
    ∃ t, verifySlot plan s slot = (t, none) ∧ t.forest = s.forest ∧
      t.ledger.Registered plan.targets ∧
      (plan.policy.strictPropertyValidation = .enabled → t = s) := by
  cases hm : plan.policy.strictPropertyValidation with
  | disabled =>
    have hsame : verifySlot plan s slot = (s, none) := by
      unfold verifySlot Ledger.verify
      cases s.forest.artifact? slot with
      | none => rfl
      | some a =>
        dsimp only
        cases (alignable? plan.policy a).bind Placeholder.bare? with
        | none => rfl
        | some name => simp only [hm, if_true]
    exact ⟨s, hsame, rfl, hrows, fun _ => rfl⟩
  | enabled => exact ⟨s, verifySlot_of_not_idle (h hm), rfl, hrows, fun _ => rfl⟩
  | revert =>
    by_cases hidle : ∃ r, Idle plan s slot r
    · obtain ⟨r, hr⟩ := hidle
      obtain ⟨old, hold⟩ := hr.exists_old hrows
      obtain ⟨t, ht, hforest, hledger⟩ := (verifySlot_of_idle hr hold).1 hm
      refine ⟨t, ht, hforest, ?_, fun he => by cases he⟩
      rw [hledger]
      exact hrows.revertMatching old
    · exact ⟨s, verifySlot_of_not_idle (not_exists.1 hidle), rfl, hrows, fun he => by cases he⟩

end Step

/-- What is pending after a check that comes through are the revisions that were pending before and
started from another value than the property of any idle user. -/
theorem mem_pending_verifySlots (hmode : plan.policy.strictPropertyValidation ≠ .disabled)
    (hrows : s.ledger.Registered plan.targets)
    (h : Walk.untilFault (verifySlot plan) slots s = (t, none)) :
    q ∈ t.ledger.pending ↔
      q ∈ s.ledger.pending ∧ ∀ slot ∈ slots, ∀ r, Idle plan s slot r → r.old ≠ some q.old := by
  induction slots generalizing s with
  | nil =>
    cases h
    simp
  | cons slot slots ih =>
    obtain ⟨s', hstep, hrest⟩ := Walk.untilFault_cons_eq_none.1 h
    obtain ⟨hrows', hpending, hidle⟩ := verifySlot_eq_none hmode hrows hstep
    rw [ih hrows' hrest, hpending, List.forall_mem_cons, and_assoc, and_congr_right_iff]
    intro _
    rw [and_congr_right_iff]
    intro hself
    constructor
    · intro hothers other hother r' hr' hold
      refine hothers other hother r' ((hidle other r').2 ⟨hr', fun r hr => ?_⟩) hold
      rw [hold]
      exact hself r hr
    · intro hothers other hother r' hr'
      exact hothers other hother r' ((hidle other r').1 hr').1

/-- Where an idle user is a fault, a check that comes through has found none. -/
theorem not_idle_of_enabled (hmode : plan.policy.strictPropertyValidation = .enabled)
    (hrows : s.ledger.Registered plan.targets)
    (h : Walk.untilFault (verifySlot plan) slots s = (t, none)) :
    ∀ slot ∈ slots, ∀ r, ¬ Idle plan s slot r := by
  induction slots with
  | nil => simp
  | cons slot slots ih =>
    obtain ⟨s', hstep, hrest⟩ := Walk.untilFault_cons_eq_none.1 h
    have hself : ∀ r, ¬ Idle plan s slot r := by
      intro r hr
      obtain ⟨old, hold⟩ := hr.exists_old hrows
      obtain ⟨e, he⟩ := (verifySlot_of_idle hr hold).2 hmode
      rw [hstep] at he
      cases he
    rw [verifySlot_of_not_idle hself] at hstep
    obtain rfl := (Prod.mk.inj hstep).1
    exact List.forall_mem_cons.2 ⟨hself, ih hrest⟩

section Run

theorem registered_alignSlot (h : s.ledger.Registered plan.targets) (slot : Slot) :
    (alignSlot plan s slot).1.ledger.Registered plan.targets := by
  rcases alignSlot_cases plan s slot with ⟨-, hl⟩ | ⟨-, -, -, -, -, -, -, -, -, hl, -⟩
  · rcases hl with hl | ⟨ident, version, target, ht, hl⟩
    · rwa [hl]
    · rw [hl]
      exact h.propose ht slot.holder version target.version target.forced
  · rwa [hl]

/-- Everyone who has asked for a change when all wishes are entered has a target. -/
theorem registered_enterWishes (plan : Plan) (F : Forest) :
    (enterWishes plan F).1.ledger.Registered plan.targets := by
  apply enterWishes_invariant (P := fun s : State => s.ledger.Registered plan.targets)
  · rw [ledger_relocate]
    intro scope r hr
    cases hr
  · intro s i h
    rwa [(alignModule_cases plan s i).1]
  · intro s slot _ h
    exact registered_alignSlot h slot

/-- An artifact with a bare version stays as it was relocated. -/
theorem artifact?_enterWishes_of_bare {a : Artifact} {name : String} (hslot : slot ∈ F.slots)
    (ha : (F.artifact? slot).map (relocated plan.relocations) = some a)
    (hb : a.version.bind Placeholder.bare? = some name) :
    (enterWishes plan F).1.forest.artifact? slot = some a := by
  apply enterWishes_invariant (P := fun s : State => s.forest.artifact? slot = some a)
  · rw [artifact?_relocate plan F.nodup_slots, if_pos hslot, ha]
  · intro s i h
    rw [artifact?_alignModule, h]
  · intro s other _ h
    by_cases hother : other = slot
    · rw [hother, alignSlot_forest_of_bare h hb, h]
    · rw [artifact?_alignSlot_of_ne plan s hother, h]

end Run

/-- An artifact that takes part in a pass and has, once relocated, a bare version, with the scope of
the property behind that version. -/
def Uses (plan : Plan) (F : Forest) (slot : Slot) (user : Ident) (scope : Scope) : Prop :=
  slot.place ∈ F.placesOf slot.holder ∧
    ∃ a version name, (F.artifact? slot).map (relocated plan.relocations) = some a ∧
      a.ident = user ∧ plan.policy.excludes a.scope = false ∧ a.version = some version ∧
      Placeholder.bare? version = some name ∧ F.declaringScope slot.holder name = scope

/-- Whether a forest gives the property of a scope another value than before at some place. -/
def Changed (F G : Forest) (scope : Scope) : Prop :=
  ∃ place, G.property? scope.holder place scope.property ≠
    F.property? scope.holder place scope.property

/-- A user without a target is idle as long as the property is to change. -/
theorem Uses.idle (hnames : F.NoFieldNames) {user : Ident} {scope : Scope}
    (h : Uses plan F slot user scope) (hnone : plan.targets.get? user = none)
    (hr : (enterWishes plan F).1.ledger.get? scope = some r) (hpending : r.isReverted = false) :
    slot ∈ F.slots ∧ Idle plan (enterWishes plan F).1 slot r := by
  obtain ⟨hplace, a, version, name, ha, rfl, hscope, hversion, hb, rfl⟩ := h
  obtain ⟨a₀, ha₀, -⟩ := Option.map_eq_some_iff.1 ha
  have hslot := Forest.mem_slots ha₀ hplace
  have halign : alignable? plan.policy a = some version := by
    rw [alignable?, hscope]
    exact hversion
  have hsame := (prepared_enterWishes plan F hnames).same
  have hkept : (enterWishes plan F).1.forest.artifact? slot = some a := by
    apply artifact?_enterWishes_of_bare hslot ha
    rw [hversion]
    exact hb
  refine ⟨hslot, a, name, hkept, ?_, ?_, hpending, ?_⟩
  · rw [halign]
    exact hb
  · rw [hsame.declaringScope]
    exact hr
  · intro hmem
    obtain ⟨target, ht⟩ := (registered_enterWishes plan F _ r hr).2 _ hmem
    rw [hnone] at ht
    cases ht

/-- What is pending when a pass has checked the users of properties. -/
theorem mem_pending_prepare (hp : prepare plan F = (t, none)) :
    q ∈ t.ledger.pending ↔
      q ∈ (enterWishes plan F).1.ledger.pending ∧
        (plan.policy.strictPropertyValidation ≠ .disabled → ∀ slot ∈ F.slots, ∀ r,
          Idle plan (enterWishes plan F).1 slot r → r.old ≠ some q.old) := by
  obtain ⟨w, hw, hverify⟩ := Walk.andThen_eq_none.1 hp
  have hrows := registered_enterWishes plan F
  rw [hw] at hrows ⊢
  by_cases hmode : plan.policy.strictPropertyValidation = .disabled
  · have hkeeps : (Walk.untilFault (verifySlot plan) F.slots w).1.ledger = w.ledger := by
      apply Walk.untilFault_keeps (f := State.ledger)
      intro s slot _
      rcases (verifySlot_cases plan s slot).2 with hl | ⟨hrevert, -⟩
      · exact hl
      · rw [hmode] at hrevert
        cases hrevert
    rw [hverify] at hkeeps
    have hledger : t.ledger = w.ledger := hkeeps
    simp [hmode, hledger]
  · rw [mem_pending_verifySlots hmode hrows hverify]
    simp only [ne_eq, hmode, not_false_eq_true, forall_const]

/-- A scope that a pass changes is that of a revision pending when the users have been checked. -/
theorem Changed.pending (hnames : F.NoFieldNames) (hrun : run plan F = (s, none))
    (hp : prepare plan F = (t, none)) {scope : Scope} (h : Changed F s.forest scope) :
    ∃ q ∈ t.ledger.pending, q.scope = scope := by
  obtain ⟨place, hne⟩ := h
  have hcases := property?_run plan hnames scope.holder place scope.property
  rw [hrun, hp] at hcases
  rcases hcases with hsame | ⟨q, hq, -, hscope, -⟩
  · exact absurd hsame hne
  · exact ⟨q, hq, hscope⟩

/-- A module with properties of its parent for the versions of its dependencies. Two properties have
the same value, and two dependencies share one of these. -/
def cohort : Forest where
  modules := [
    { ident := ⟨"org.foo", "root"⟩, version := "1.0",
      main.properties := .ofRows [("single", "1.0"), ("shared", "1.0"), ("free", "2.0")] },
    { ident := ⟨"org.foo", "app"⟩, version := "1.0", parent := some ⟨"org.foo", "root"⟩,
      main.artifacts.dependencies := [
        { ident := ⟨"org.dep", "a"⟩, version := some "$\x7bsingle\x7d" },
        { ident := ⟨"org.dep", "b"⟩, version := some "$\x7bshared\x7d" },
        { ident := ⟨"org.dep", "c"⟩, version := some "$\x7bshared\x7d" },
        { ident := ⟨"org.dep", "d"⟩, version := some "$\x7bfree\x7d" }] }]
  grounded := ⟨by decide, by decide⟩

/-- Targets for all dependencies but one of those that share a property. -/
def cohortPlan : Plan where
  policy := { strictPropertyValidation := .revert }
  targets.versions := .ofRows [(⟨"org.dep", "a"⟩, "1.1"), (⟨"org.dep", "b"⟩, "1.1"),
    (⟨"org.dep", "d"⟩, "2.1")]
  relocations := .empty

/-- The check of the users of properties lets no change through that one of them has not asked for.
If a pass comes through, every user of a property that it changes has a target. With rollbacks,
a user without a target of a property that was to change keeps every property that
started from the same value as it is, in any module. -/
theorem run_verified (plan : Plan) (F : Forest) (s : State) (hnames : F.NoFieldNames)
    (hmode : plan.policy.strictPropertyValidation ≠ .disabled)
    (hrun : run plan F = (s, none)) :
    (∀ slot user scope, Changed F s.forest scope → Uses plan F slot user scope →
      ∃ target, plan.targets.get? user = some target) ∧
    (plan.policy.strictPropertyValidation = .revert →
      ∀ slot user scope r, Uses plan F slot user scope → plan.targets.get? user = none →
        (enterWishes plan F).1.ledger.get? scope = some r → r.new ≠ r.old →
        ∀ other r', (enterWishes plan F).1.ledger.get? other = some r' → r'.old = r.old →
          ¬ Changed F s.forest other) := by
  obtain ⟨p, u, hp, -, -⟩ := run_eq_none hrun
  -- a changed scope was pending all along, and no idle user had its old value
  have hchanged (scope : Scope) (h : Changed F s.forest scope) :
      ∃ r old, (enterWishes plan F).1.ledger.get? scope = some r ∧ r.isReverted = false ∧
        r.old = some old ∧ ∀ slot ∈ F.slots, ∀ r',
          Idle plan (enterWishes plan F).1 slot r' → r'.old ≠ some old := by
    obtain ⟨q, hq, rfl⟩ := h.pending hnames hrun hp
    obtain ⟨hbefore, hfree⟩ := (mem_pending_prepare hp).1 hq
    obtain ⟨r, hr, hpending⟩ := Ledger.mem_pending.1 hbefore
    obtain ⟨hrev, -, hold, -, -⟩ := Ledger.pendingOf_eq_some.1 hpending
    exact ⟨r, q.old, hr, hrev, hold, hfree hmode⟩
  constructor
  · intro slot user scope h huses
    obtain ⟨r, old, hr, hrev, hold, hfree⟩ := hchanged scope h
    by_contra hnot
    have hnone : plan.targets.get? user = none := by
      rw [← Option.not_isSome_iff_eq_none, Option.isSome_iff_exists]
      exact hnot
    obtain ⟨hslot, hidle⟩ := huses.idle hnames hnone hr hrev
    exact hfree slot hslot r hidle hold
  · intro _ slot user scope r huses hnone hr hne other r' hr' hold h
    obtain ⟨r'', old, hr'', -, hold', hfree⟩ := hchanged other h
    rw [hr'] at hr''
    obtain rfl := Option.some.inj hr''
    have hrev : r.isReverted = false := by
      rw [Revision.isReverted, decide_eq_false (Ne.symm hne), Bool.and_false]
    obtain ⟨hslot, hidle⟩ := huses.idle hnames hnone hr hrev
    exact hfree slot hslot r hidle (hold.symm.trans hold')

theorem cohort_verified :
    (∃ target, cohortPlan.targets.get? ⟨"org.dep", "d"⟩ = some target) ∧
      ¬ Changed cohort (run cohortPlan cohort).1.forest ⟨0, "single"⟩ := by
  have h := run_verified cohortPlan cohort _ (by decide) (by decide)
    (Prod.ext rfl (by decide +kernel))
  constructor
  · apply h.1 ⟨1, .main, .dependency, 3⟩ _ ⟨0, "free"⟩ ⟨.main, by decide +kernel⟩
    exact ⟨by decide, ⟨⟨"org.dep", "d"⟩, some "$\x7bfree\x7d", none⟩, _, "free", by decide, rfl,
      by decide, rfl, by decide, by decide +kernel⟩
  · apply h.2 rfl ⟨1, .main, .dependency, 2⟩ ⟨"org.dep", "c"⟩ ⟨0, "shared"⟩
      ⟨some "1.0", some "1.1", [⟨"org.dep", "b"⟩], false⟩ _ (by decide) (by decide +kernel)
      (by decide) ⟨0, "single"⟩ ⟨some "1.0", some "1.1", [⟨"org.dep", "a"⟩], false⟩
      (by decide +kernel) rfl
    exact ⟨by decide, ⟨⟨"org.dep", "c"⟩, some "$\x7bshared\x7d", none⟩, _, "shared", by decide,
      rfl, by decide, rfl, by decide, by decide +kernel⟩

end Alignment
end Realign
