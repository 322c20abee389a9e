import Realign.Proofs.Alignment.Alike
import Realign.Proofs.Alignment.Completion
import Realign.Proofs.Alignment.Verification

/-!
A second pass over the forest that a pass has left. The two passes go along with each other: the
same wishes are made in the same order, and the ledgers are alike. What is pending in the
second pass was pending in the first, because a scope that the first pass did not change has the
same row in both ledgers, so its users are idle in both or in neither. A revision that has
been carried out once does nothing when it is carried out again. All this needs that a module
field behind a wish stands for the same text in both passes, which may fail where the field is
itself the name of a property that the first pass changed.
-/
namespace Realign.Alignment

open Ledger (Alike)

variable {plan : Plan} {F G : Forest} {s s' t : State} {slot : Slot}

/-- A module field that the version of an artifact with a wish leads to stands for what it stood for
in another forest. -/
def SteadyFields (plan : Plan) (F G : Forest) : Prop :=
  ∀ slot ∈ G.slots, ∀ version w name last text, wishAt? plan G slot = some (version, w) →
    Placeholder.bare? version = some name → name ≠ moduleVersionName →
    G.Leads slot.holder name last → G.fieldText? slot.holder last = some text →
    G.resolve slot.holder text = F.resolve slot.holder text

theorem steadyFields_of_plainFields (h : G.PlainFields) : SteadyFields plan F G := by
  intro slot _ version w name last text _ _ _ _ hf
  have hlit := h.fieldText? hf
  rw [Forest.resolve_literal_iff hlit |>.2 rfl, Forest.resolve_literal_iff hlit |>.2 rfl]

/-- The states of two passes while wishes are entered: one that comes to a forest `F` in the end,
and one over a forest `G`, which it leaves alone. -/
structure Parallel (plan : Plan) (F G : Forest) (s t : State) : Prop where
  forest : t.forest = G
  same : Forest.SameProperties F s.forest
  versions : ∀ i, s.forest.version? i = F.version? i
  wishes : ∀ slot, wishAt? plan s.forest slot = wishAt? plan F slot
  alike : Alike F.LiteralAt s.ledger t.ledger

section Entering

theorem sameProperties_alignSlot (plan : Plan) (s : State) (slot : Slot) :
    Forest.SameProperties s.forest (alignSlot plan s slot).1.forest := by
  rcases alignSlot_cases plan s slot with ⟨hf, -⟩ | ⟨a, v, target, subject, -, -, -, -, hf, -⟩
  · rw [hf]
    exact Forest.SameProperties.refl _
  · rw [hf]
    exact Forest.sameProperties_modifyArtifact ..

/-- The value of a wish resolves in both forests, to the same text unless it is about a literal
property. -/
theorem exists_resolve_of_steady (hF : Repeatable plan F) (hG : F.Reworded G)
    (hversions : ∀ i, G.version? i = F.version? i) (hsteady : SteadyFields plan F G)
    (hslot : slot ∈ G.slots) {version name old : String} {w : Ledger.Wish}
    (hwish : wishAt? plan G slot = some (version, w))
    (hb : Placeholder.bare? version = some name) (hne : name ≠ moduleVersionName)
    (hr : F.resolve slot.holder version = .ok old) :
    ∃ old', G.resolve slot.holder version = .ok old' ∧
      (¬ F.LiteralAt (F.declaringScope slot.holder name) → old' = old) := by
  have hfields (name : String) := Forest.fieldText?_congr hG.names hversions slot.holder name
  obtain ⟨rfl, hname⟩ := Placeholder.bare?_eq_some.1 hb
  have hspell := hG.resolve_spell hfields hF.names hF.values hname
    (fun last text out hl hf hout => by
      rw [← hfields] at hf
      rw [hsteady slot hslot _ w name last text hwish hb hne (hG.leads hl) hf, hout]) hr
  rcases hspell with hlit | hsame
  · obtain ⟨old', hr'⟩ := hG.exists_resolve hfields hr
    exact ⟨old', hr', fun hnot => absurd hlit hnot⟩
  · exact ⟨old, hsame, fun _ => rfl⟩

/-- A slot at rest that makes no wish is passed by in the second pass. -/
theorem Parallel.pass_by (h : Parallel plan F G s t) (hnone : wishAt? plan G slot = none)
    (hrests : ∀ a, G.artifact? slot = some a → Rests plan a) :
    ∃ t', alignSlot plan t slot = (t', none) ∧ Parallel plan F G s t' := by
  rw [← h.forest] at hnone hrests
  obtain ⟨t', ht', hforest, hledger⟩ := alignSlot_of_rests hnone hrests
  refine ⟨t', ht', hforest.trans h.forest, h.same, h.versions, h.wishes, ?_⟩
  rw [hledger]
  exact h.alike

/-- What the step of a slot does in the first pass, it does in the second. -/
theorem Parallel.alignSlot (h : Parallel plan F G s t) (hF : Repeatable plan F)
    (hG : F.Reworded G) (hversions : ∀ i, G.version? i = F.version? i)
    (hsteady : SteadyFields plan F G) (hslot : slot ∈ G.slots)
    (hsame : wishAt? plan G slot = wishAt? plan F slot)
    (hrests : ∀ a, G.artifact? slot = some a → Rests plan a)
    (hstep : alignSlot plan s slot = (s', none)) :
    ∃ t', Alignment.alignSlot plan t slot = (t', none) ∧ Parallel plan F G s' t' := by
  have hproperties := sameProperties_alignSlot plan s slot
  have hkept := version?_alignSlot plan s slot
  have hwishes := wishAt?_alignSlot hF.literal s slot
  rw [hstep] at hproperties hkept hwishes
  have hafter {t' : State} (hforest : t'.forest = G)
      (halike : Alike F.LiteralAt s'.ledger t'.ledger) : Parallel plan F G s' t' :=
    ⟨hforest, h.same.trans hproperties, fun i => (hkept i).trans (h.versions i),
      fun other => (hwishes other).trans (h.wishes other), halike⟩
  cases hw : wishAt? plan F slot with
  | none =>
    have hledger := ledger_alignSlot_of_no_wish ((h.wishes slot).trans hw)
    rw [hstep] at hledger
    obtain ⟨t', ht', hpar⟩ := h.pass_by (hsame.trans hw) hrests
    refine ⟨t', ht', hafter hpar.forest ?_⟩
    have hledger' : s'.ledger = s.ledger := hledger
    rw [hledger']
    exact hpar.alike
  | some row =>
    obtain ⟨version, w⟩ := row
    have hwish : wishAt? plan t.forest slot = some (version, w) := by
      rw [h.forest, hsame, hw]
    obtain ⟨taken, hpropose, -⟩ := (alignSlot_of_wish ((h.wishes slot).trans hw)).1 hstep
    obtain ⟨ledger, hpropose', halike⟩ := h.alike.propose (G := t.forest) (i := slot.holder)
      (fun name => by rw [h.forest, hG.declaringScope, h.same.declaringScope])
      (fun name old hb hne hr => by
        rw [h.same.resolve_iff h.versions] at hr
        rw [h.forest, h.same.declaringScope]
        exact exists_resolve_of_steady hF hG hversions hsteady hslot (hsame.trans hw) hb hne hr)
      hpropose
    exact ⟨{ t with ledger }, (alignSlot_of_wish hwish).2 ⟨taken, hpropose', rfl⟩,
      hafter h.forest halike⟩

end Entering

namespace Completed

variable {w p u w' p' : State} {r r' : Revision} {q' : PendingRevision} {scope : Scope}

section Again

variable (h : Completed plan F w p u) (hF : Repeatable plan F)

include h hF

theorem sublist_slots : F.slots.Sublist (inject plan u).forest.slots := by
  have hnames := (h.reworded hF).names
  apply Forest.sublist_slots hnames.size hnames.places
  intro slot a ha
  have hsome := h.artifact?_entered_isSome hF slot
  rw [ha] at hsome
  obtain ⟨b, hb⟩ := Option.isSome_iff_exists.1 hsome
  exact ⟨b, h.artifact?_of_entered hF hb⟩

/-- An artifact that was added makes no wish and is at rest. -/
theorem added_rests (hslot : slot ∈ (inject plan u).forest.slots) (hnot : slot ∉ F.slots) :
    wishAt? plan (inject plan u).forest slot = none ∧
      ∀ a, (inject plan u).forest.artifact? slot = some a →
        a.version.bind Placeholder.bare? = none ∧ Rests plan a := by
  have hadded (a : Artifact) (ha : (inject plan u).forest.artifact? slot = some a) :
      a.version.bind Placeholder.bare? = none ∧ Rests plan a := by
    obtain ⟨target, ht, hv⟩ := h.added_left hF hslot hnot ha
    constructor
    · rw [hv, Option.bind_some]
      exact Placeholder.bare?_of_not_occursIn (hF.literal _ _ ht)
    · intro version target' hversion ht' _ _
      rw [ht] at ht'
      rw [version_of_alignable? hversion] at hv
      rw [← Option.some.inj ht']
      exact Or.inl (Option.some.inj hv)
  refine ⟨?_, hadded⟩
  obtain ⟨-, a, ha⟩ := Forest.of_mem_slots hslot
  rw [wishAt?, ha, Option.bind_some, wishOf?_of_not_bare (hadded a ha).1]

theorem wishAt?_left (hslot : slot ∈ F.slots) :
    wishAt? plan (inject plan u).forest slot = wishAt? plan F slot := by
  rw [wishAt?, h.artifact?_left hF hslot, ← wishAt?, h.wishAt?_entered hF]

/-- When module versions are set the two passes stand side by side. -/
theorem parallel_start {s t : State}
    (hmodules : Walk.untilFault (alignModule plan) F.indices ⟨F, {}, {}⟩ = (s, none))
    (hslots : Walk.untilFault (alignSlot plan) F.slots s = (w, none))
    (hforest : t.forest = (inject plan u).forest) (hledger : t.ledger = {}) :
    Parallel plan w.forest (inject plan u).forest s t := by
  have hsame := same_alignModules plan F.indices ⟨F, {}, {}⟩
  have hartifact := artifact?_alignModules plan F.indices ⟨F, {}, {}⟩
  have hversion := version?_alignSlots plan F.slots s
  rw [hmodules] at hsame hartifact
  rw [hslots] at hversion
  refine ⟨hforest, (h.prepared hF).same.symm.trans hsame.1, fun i => (hversion i).symm,
    fun slot => ?_, ?_⟩
  · rw [h.wishAt?_entered hF, wishAt?, hartifact, wishAt?]
  · rw [hledger, hsame.2]
    exact Alike.refl _ _

/-- A second pass comes to the end of entering wishes, along with the first. -/
theorem exists_entered_again (hsteady : SteadyFields plan w.forest (inject plan u).forest) :
    ∃ w', enterWishes plan (inject plan u).forest = (w', none) ∧
      Parallel plan w.forest (inject plan u).forest w w' := by
  obtain ⟨s, hmodules, hslots⟩ := h.exists_modules hF
  obtain ⟨t, ht, hforest, hledger⟩ := alignModules_of_rests (s := ⟨(inject plan u).forest, {}, {}⟩)
    (inject plan u).forest.indices (h.moduleRests_left hF)
  have hsub := h.sublist_slots hF
  have hsame := (h.prepared hF).same
  have hagain : ∃ w', Walk.untilFault (alignSlot plan) (inject plan u).forest.slots t =
      (w', none) ∧ Parallel plan w.forest (inject plan u).forest w w' := by
    apply Walk.exists_untilFault_of_sublist hsub (Forest.nodup_slots _) _ _
      (h.parallel_start hF hmodules hslots hforest hledger) hslots
    · intro s s' t slot hslot hpar hstep
      exact hpar.alignSlot (hF.of_same hsame) (hsame.symm.reworded.trans (h.reworded hF))
        (h.version?_left hF) hsteady (hsub.subset hslot)
        (by rw [h.wishAt?_left hF hslot, h.wishAt?_entered hF])
        (fun a => h.rests_left hF hslot) hstep
    · intro s t slot hslot hnot hpar
      obtain ⟨hnone, hadded⟩ := h.added_rests hF hslot hnot
      exact hpar.pass_by hnone fun a ha => (hadded a ha).2
  obtain ⟨w', hw', hpar⟩ := hagain
  refine ⟨w', ?_, hpar⟩
  rw [enterWishes, relocate_of_empty hF.relocations, Walk.andThen_eq_none]
  exact ⟨t, ht, hw'⟩

end Again

end Completed

/-- A pass that came through, and a second one over what it left that has entered its wishes. -/
structure Repeated (plan : Plan) (F : Forest) (w p u w' : State) : Prop extends
    Completed plan F w p u where
  repeatable : Repeatable plan F
  enteredAgain : enterWishes plan (inject plan u).forest = (w', none)
  parallel : Parallel plan w.forest (inject plan u).forest w w'

namespace Repeated

variable {w p u w' p' : State} {r r' : Revision} {q' : PendingRevision} {scope : Scope}

section Verifying

variable (h : Repeated plan F w p u w')

include h

theorem reworded : F.Reworded (inject plan u).forest := h.toCompleted.reworded h.repeatable

theorem noFieldNames : (inject plan u).forest.NoFieldNames :=
  h.reworded.names.noFieldNames h.repeatable.names

theorem prepared : Prepared F plan w := h.toCompleted.prepared h.repeatable

theorem preparedAgain : Prepared (inject plan u).forest plan w' := by
  have hprepared := prepared_enterWishes plan _ h.noFieldNames
  rwa [h.enteredAgain] at hprepared

/-- A row of a scope that the first pass did not change is the same in both ledgers. -/
theorem row_eq (hr : w.ledger.get? scope = some r) (hr' : w'.ledger.get? scope = some r')
    (hsame : ¬ Changed F (inject plan u).forest scope) : r' = r := by
  by_cases hlit : w.forest.LiteralAt scope
  · have hasked := h.prepared.asked scope r hr
    have hasked' := h.preparedAgain.asked scope r' hr'
    obtain ⟨d, hd, hplain⟩ := hlit
    rw [h.prepared.same.declaration?] at hd
    have hvalue := Forest.property?_of_declaration? hd
    have hown := hasked.settled.own d hd
    have hkept : (inject plan u).forest.property? d.holder d.place scope.property =
        some d.value := by
      rw [hown] at hvalue ⊢
      rw [← hvalue]
      by_contra hne
      exact hsame ⟨d.place, hne⟩
    have hd' := h.reworded.names.declaration?_of_property? hd hkept
    obtain ⟨r₀, hr₀, hasks⟩ := h.parallel.alike.get? hr'
    rw [hr] at hr₀
    obtain rfl := Option.some.inj hr₀
    apply Revision.eq_of_asks hasks
    rw [hasked.old d hd hplain, hasked'.old _ hd' hplain]
  · have hrow := h.parallel.alike.same scope hlit
    rw [hr, hr'] at hrow
    exact Option.some.inj hrow

/-- The row of a scope that the first pass changed stayed pending, so no idle user had the value
that it started from. -/
theorem row_of_changed (hchanged : Changed F (inject plan u).forest scope)
    (hr : w.ledger.get? scope = some r) :
    ∃ q ∈ p.ledger.pending, Ledger.pendingOf scope r = some q ∧
      (plan.policy.strictPropertyValidation ≠ .disabled → ∀ slot ∈ F.slots, ∀ r₀,
        Idle plan w slot r₀ → r₀.old ≠ r.old) := by
  obtain ⟨q, hq, rfl⟩ := hchanged.pending h.repeatable.names h.run_eq h.prepare_eq
  obtain ⟨hbefore, hfree⟩ := (mem_pending_prepare h.prepare_eq).1 hq
  rw [h.entered] at hbefore hfree
  obtain ⟨r', hr', hpending⟩ := Ledger.mem_pending.1 hbefore
  rw [hr] at hr'
  obtain rfl := Option.some.inj hr'
  refine ⟨q, hq, hpending, ?_⟩
  rw [(Ledger.pendingOf_eq_some.1 hpending).2.2.1]
  exact hfree

/-- An idle user of the second pass, in a slot from before, with the row that it had. -/
theorem idle_before (hslot : slot ∈ (inject plan u).forest.slots) (hidle : Idle plan w' slot r') :
    slot ∈ F.slots ∧ ∃ scope, w'.ledger.get? scope = some r' ∧ r'.isReverted = false ∧
      ∀ r, w.ledger.get? scope = some r → r.isReverted = false → Idle plan w slot r := by
  have hmem : slot ∈ F.slots := by
    by_contra hnot
    obtain ⟨a, name, ha, hname, -⟩ := hidle
    rw [h.parallel.forest] at ha
    have hbare := (((h.added_rests h.repeatable hslot hnot).2) a ha).1
    obtain ⟨version, hv, hb⟩ := Option.bind_eq_some_iff.1 hname
    rw [version_of_alignable? hv, Option.bind_some, hb] at hbare
    cases hbare
  obtain ⟨scope, hr', hpending, htransfer⟩ := hidle.transfer (t := w)
    (by rw [h.parallel.forest, h.artifact?_left h.repeatable hmem])
    (fun name => by
      rw [h.parallel.forest, h.prepared.same.declaringScope, h.reworded.declaringScope])
  refine ⟨hmem, scope, hr', hpending, fun r hr hnot => htransfer r hr hnot ?_⟩
  obtain ⟨r₀, hr₀, hasks⟩ := h.parallel.alike.get? hr'
  rw [hr] at hr₀
  obtain rfl := Option.some.inj hr₀
  exact (Revision.asks_eq hasks).2.1.symm

/-- An idle user of a property that the first pass did not change is idle in the second. -/
theorem idle_again (hslot : slot ∈ F.slots) (hidle : Idle plan w slot r)
    (hsame : ∀ scope, w.ledger.get? scope = some r →
      ¬ Changed F (inject plan u).forest scope) :
    slot ∈ (inject plan u).forest.slots ∧ Idle plan w' slot r := by
  refine ⟨(h.sublist_slots h.repeatable).subset hslot, ?_⟩
  obtain ⟨scope, hr, hpending, htransfer⟩ := hidle.transfer (t := w')
    (by rw [h.parallel.forest, h.artifact?_left h.repeatable hslot])
    (fun name => by
      rw [h.parallel.forest, h.prepared.same.declaringScope, h.reworded.declaringScope])
  have hasks := h.parallel.alike.asks scope
  rw [hr] at hasks
  obtain ⟨r', hr', -⟩ := Option.map_eq_some_iff.1 hasks
  obtain rfl := h.row_eq hr hr' (hsame scope hr)
  exact htransfer r' hr' hpending rfl

/-- What is pending when the second pass has checked the users was pending in the first. -/
theorem pending_before (hp' : prepare plan (inject plan u).forest = (p', none))
    (hq' : q' ∈ p'.ledger.pending) :
    ∃ q ∈ p.ledger.pending, q.scope = q'.scope ∧ q.new = q'.new ∧ q.forced = q'.forced := by
  obtain ⟨hbefore', hfree'⟩ := (mem_pending_prepare hp').1 hq'
  rw [h.enteredAgain] at hbefore' hfree'
  obtain ⟨r', hr', hpending'⟩ := Ledger.mem_pending.1 hbefore'
  obtain ⟨r, hr, hasks⟩ := h.parallel.alike.get? hr'
  by_cases hchanged : Changed F (inject plan u).forest q'.scope
  · obtain ⟨q, hq, hpending, -⟩ := h.row_of_changed hchanged hr
    obtain ⟨-, hscope, -, hnew, hforced⟩ := Ledger.pendingOf_eq_some.1 hpending
    obtain ⟨-, -, -, hnew', hforced'⟩ := Ledger.pendingOf_eq_some.1 hpending'
    obtain ⟨hn, -, hf⟩ := Revision.asks_eq hasks
    rw [hnew, hnew'] at hn
    rw [hforced, hforced'] at hf
    exact ⟨q, hq, hscope, (Option.some.inj hn).symm, hf.symm⟩
  · obtain rfl := h.row_eq hr hr' hchanged
    refine ⟨q', (mem_pending_prepare h.prepare_eq).2 ?_, rfl, rfl, rfl⟩
    rw [h.entered]
    refine ⟨Ledger.mem_pending.2 ⟨r', hr, hpending'⟩, fun hmode slot hslot r₀ hidle hold => ?_⟩
    -- an idle user of the first pass kept its property from changing, and so is idle again
    have hunchanged (scope : Scope) (hr₀ : w.ledger.get? scope = some r₀) :
        ¬ Changed F (inject plan u).forest scope := by
      intro hchanged
      obtain ⟨-, -, -, hfree⟩ := h.row_of_changed hchanged hr₀
      exact hfree hmode slot hslot r₀ hidle rfl
    obtain ⟨hslot', hidle'⟩ := h.idle_again hslot hidle hunchanged
    exact hfree' hmode slot hslot' r₀ hidle' hold

/-- Where an idle user is a fault, the second pass finds none. -/
theorem not_idle_again (hmode : plan.policy.strictPropertyValidation = .enabled)
    (hslot : slot ∈ (inject plan u).forest.slots) (r' : Revision) : ¬ Idle plan w' slot r' := by
  intro hidle
  obtain ⟨hslot, scope, hr', hpending', hbefore⟩ := h.idle_before hslot hidle
  obtain ⟨r, hr, -⟩ := h.parallel.alike.get? hr'
  have hrows := registered_enterWishes plan F
  rw [h.entered] at hrows
  by_cases hpending : r.isReverted = false
  · exact not_idle_of_enabled hmode hrows h.verified slot hslot r (hbefore r hr hpending)
  · have hsame : ¬ Changed F (inject plan u).forest scope := by
      intro hchanged
      obtain ⟨q, -, hq, -⟩ := h.row_of_changed hchanged hr
      exact hpending (Ledger.pendingOf_eq_some.1 hq).1
    obtain rfl := h.row_eq hr hr' hsame
    exact hpending hpending'

/-- The second check of the users of properties comes through. -/
theorem exists_verified_again :
    ∃ p', prepare plan (inject plan u).forest = (p', none) := by
  have hrows := registered_enterWishes plan (inject plan u).forest
  rw [h.enteredAgain] at hrows
  have hverified : ∃ p', Walk.untilFault (verifySlot plan) (inject plan u).forest.slots w' =
      (p', none) ∧ p'.ledger.Registered plan.targets ∧
        (plan.policy.strictPropertyValidation = .enabled → p' = w') := by
    apply Walk.exists_untilFault (Q := fun t : State => t.ledger.Registered plan.targets ∧
      (plan.policy.strictPropertyValidation = .enabled → t = w'))
    · intro t slot hslot ht
      have hidle (hmode : plan.policy.strictPropertyValidation = .enabled) (r' : Revision) :
          ¬ Idle plan t slot r' := by
        rw [ht.2 hmode]
        exact h.not_idle_again hmode hslot r'
      obtain ⟨t', ht', -, hrows', hsame⟩ := exists_verifySlot ht.1 hidle
      exact ⟨t', ht', hrows', fun hmode => (hsame hmode).trans (ht.2 hmode)⟩
    · exact ⟨hrows, fun _ => rfl⟩
  obtain ⟨p', hp', -⟩ := hverified
  exact ⟨p', Walk.andThen_eq_none.2 ⟨w', h.enteredAgain, hp'⟩⟩

end Verifying

section Carrying

variable (h : Repeated plan F w p u w') (hp' : prepare plan (inject plan u).forest = (p', none))

include h hp'

/-- Carrying out a revision in the second pass does nothing. -/
theorem carryOut_again (hq' : q' ∈ p'.ledger.pending) (ht : t.forest = (inject plan u).forest) :
    ∃ t', carryOut plan t q' = (t', none) ∧ t'.forest = (inject plan u).forest := by
  obtain ⟨q, hq, hscope, hnew, hforced⟩ := h.pending_before hp' hq'
  obtain ⟨s₁, outcome, hcome, hversions, hsettled₁, hupdate, hleft⟩ :=
    h.exists_carried h.repeatable hq
  have hwords : s₁.forest.Reworded (inject plan u).forest := hcome.symm.trans h.reworded
  have hfields (name : String) := Forest.fieldText?_congr hwords.names
    (fun i => by rw [hversions, h.version?_left h.repeatable]) q.scope.holder name
  have hsettled : (inject plan u).forest.Settled q.scope := by
    have hagain := ready_prepare plan _ h.noFieldNames
    rw [hp'] at hagain
    rw [hscope]
    exact (hagain.sound q' hq').settled
  obtain ⟨outcome', hagain⟩ := Forest.update_again hwords
    (hcome.names.noFieldNames h.repeatable.names) hsettled₁ hsettled hupdate hleft
    (hcome.plainValues h.repeatable.values) hfields (h.literal_pending h.repeatable q hq)
  have hrequest : request plan q' = request plan q := by rw [request, request, hnew, hforced]
  have hforest := carryOut_forest plan t q'
  have hnone : (carryOut plan t q').2 = none := by
    apply carryOut_eq_none.2
    exact ⟨outcome', by rw [ht, hrequest, ← hscope, hagain]⟩
  rw [ht, hrequest, ← hscope, hagain] at hforest
  exact ⟨(carryOut plan t q').1, Prod.ext rfl hnone, hforest⟩

theorem carryOutAll_again :
    ∃ u', carryOutAll plan p' = (u', none) ∧ u'.forest = (inject plan u).forest := by
  have hforest := forest_prepare plan (inject plan u).forest
  rw [hp', h.enteredAgain] at hforest
  apply Walk.exists_untilFault (Q := fun t : State => t.forest = (inject plan u).forest)
  · intro t q' hq' ht
    exact h.carryOut_again hp' hq' ht
  · exact hforest.trans h.parallel.forest

end Carrying

end Repeated

/-- A second pass changes nothing. If a pass comes through, then so does another one with the same
targets over what it left, and leaves that as it is, unless a module field that an
artifact with a target leads to has come to stand for something else. -/
theorem run_again (plan : Plan) (F : Forest) (s : State) (hnames : F.NoFieldNames)
    (hvalues : F.PlainValues) (hliteral : plan.targets.Literal)
    (hrelocations : plan.relocations = .empty) (hrun : run plan F = (s, none))
    (hsteady : SteadyFields plan (enterWishes plan F).1.forest s.forest) :
    ∃ t, run plan s.forest = (t, none) ∧ t.forest = s.forest := by
  have hF : Repeatable plan F := ⟨hnames, hvalues, hliteral, hrelocations⟩
  obtain ⟨w, p, u, h, rfl⟩ := run_eq_none_iff.1 hrun
  rw [h.entered] at hsteady
  obtain ⟨w', hw', hpar⟩ := h.exists_entered_again hF hsteady
  have hagain : Repeated plan F w p u w' := ⟨h, hF, hw', hpar⟩
  obtain ⟨p', hp'⟩ := hagain.exists_verified_again
  obtain ⟨u', hu', hforest⟩ := hagain.carryOutAll_again hp'
  refine ⟨inject plan u', ?_, ?_⟩
  · rw [run_eq, hp']
    exact Walk.andThen_eq_none.2 ⟨u', hu', rfl⟩
  · rw [inject_again hforest, hforest]

theorem shared_run_again :
    ∃ t, run (sharedPlan tolerant "2.0.redhat-1")
        (run (sharedPlan tolerant "2.0.redhat-1") sharedForest).1.forest = (t, none) ∧
      t.forest = (run (sharedPlan tolerant "2.0.redhat-1") sharedForest).1.forest :=
  run_again (sharedPlan tolerant "2.0.redhat-1") sharedForest _ (by decide) (by decide) (by decide)
    rfl (Prod.ext rfl (by decide +kernel)) (steadyFields_of_plainFields (by decide +kernel))

/-- A module whose version is a property that a dependency shares with it. Two other dependencies
have the version of the module, under a name of their own. -/
def revisionForest : Forest where
  modules := [
    { ident := ⟨"org.foo", "app"⟩, version := "$\x7brevision\x7d",
      main.properties := .ofRows [("revision", "1.0"), ("own.version", "$\x7bproject.version\x7d")],
      main.artifacts.dependencies := [
        { ident := ⟨"org.dep", "a"⟩, version := some "$\x7bown.version\x7d" },
        { ident := ⟨"org.dep", "b"⟩, version := some "$\x7bown.version\x7d" },
        { ident := ⟨"org.dep", "c"⟩, version := some "$\x7brevision\x7d" }] }]
  grounded := ⟨by decide, by decide⟩

/-- Targets that move the module, and one that asks for the version that the module had. -/
def revisionPlan : Plan where
  policy := { strictPropertyValidation := .enabled }
  targets.versions := .ofRows [(⟨"org.dep", "a"⟩, "1.0"), (⟨"org.dep", "c"⟩, "2.0")]
  relocations := .empty

/-- A second pass may end in a fault: a wish that asked for nothing new in the first pass asks for a
change when the module has moved, and then there is a user that has not asked for it. -/
theorem not_forall_run_again :
    ¬ ∀ (plan : Plan) (F : Forest) (s : State), F.NoFieldNames → F.PlainValues →
      plan.targets.Literal → plan.relocations = .empty → run plan F = (s, none) →
      ∃ t, run plan s.forest = (t, none) ∧ t.forest = s.forest := by
  intro h
  obtain ⟨t, ht, -⟩ := h revisionPlan revisionForest _ (by decide) (by decide) (by decide) rfl
    (Prod.ext rfl (by decide +kernel))
  have hnone : (run revisionPlan (run revisionPlan revisionForest).1.forest).2 = none := by
    rw [ht]
  revert hnone
  decide +kernel

end Realign.Alignment
