import Realign.Proofs.Alignment.Run

/-!
What a pass that comes through delivers. With fatal clashes no wish is lost or replaced, so
at the end of the first phases the scope of every wish is asked to take the version of its
target. The revision of that scope then writes it, and what the name of the artifact leads to
has not moved. A name that leads to a module field or to nothing is left as it is.
-/
namespace Realign

/-- Without strict alignment a literal value is replaced. -/
theorem UpdateRequest.written?_literal {r : UpdateRequest}
    (hstrict : r.policy.strictAlignment = false) {name declared resolved : String}
    (hlit : Placeholder.occursIn declared = false) :
    r.written? name declared resolved = .ok (some r.value) := by
  have hcompound := Placeholder.isCompound_of_not_occursIn hlit
  rw [written?, hstrict, hcompound]
  rfl

namespace Alignment

/-- Targets and switches under which no wish is lost. -/
structure Binding (plan : Plan) : Prop where
  overrides : plan.targets.overrides = .empty
  clash : plan.policy.propertyClashFails = true
  validation : plan.policy.strictPropertyValidation ≠ .revert
  strict : plan.policy.strictAlignment = false
  literal : plan.targets.Literal

/-- A name whose references end at a module field or at a name that is not declared. -/
def Dangling (F : Forest) (i : Nat) (name : String) : Prop :=
  ∃ last, F.Leads i name last ∧
    (FieldName.ofText? last ≠ none ∨ F.declaration? i last = none)

/-- The scope where the references of a name end is asked to take a version. -/
def Promised (F : Forest) (i : Nat) (name version : String) (L : Ledger) : Prop :=
  ∃ last d, F.Leads i name last ∧ F.declaration? i last = some d ∧ F.EndsAt i d ∧
    L.wish? ⟨d.holder, last⟩ = some version

theorem Promised.mono {F : Forest} {i : Nat} {name version : String} {L L' : Ledger}
    (h : Promised F i name version L)
    (keeps : ∀ scope v, L.wish? scope = some v → L'.wish? scope = some v) :
    Promised F i name version L' := by
  obtain ⟨last, d, hl, hd, he, hwish⟩ := h
  exact ⟨last, d, hl, hd, he, keeps _ _ hwish⟩

variable {plan : Plan} {F : Forest} {s t : State} {slot : Slot} {a : Artifact} {version : String}
  {target : Target}

/-- While no wish is lost nothing is purged. -/
structure Faithful (F : Forest) (plan : Plan) (s : State) : Prop extends Prepared F plan s where
  clean : s.ledger.purged = []

theorem Faithful.unforced (h : Faithful F plan s) (hplan : Binding plan) :
    ∀ scope r, s.ledger.get? scope = some r → r.forced = false := by
  intro scope r hr
  exact Targets.eq_false_of_forced hplan.overrides (h.asked scope r hr).forced

theorem Faithful.alignModule (h : Faithful F plan s) (i : Nat) :
    Faithful F plan (alignModule plan s i).1 :=
  ⟨h.toPrepared.alignModule i, by rw [(alignModule_cases plan s i).1]; exact h.clean⟩

/-- The step of a slot keeps every wish. -/
theorem Faithful.alignSlot (h : Faithful F plan s) (hplan : Binding plan) (hF : F.NoFieldNames)
    (slot : Slot) :
    Faithful F plan (alignSlot plan s slot).1 ∧
      ∀ scope v, s.ledger.wish? scope = some v →
        (Alignment.alignSlot plan s slot).1.ledger.wish? scope = some v := by
  have hledger : (Alignment.alignSlot plan s slot).1.ledger.purged = s.ledger.purged ∧
      ∀ scope v, s.ledger.wish? scope = some v →
        (Alignment.alignSlot plan s slot).1.ledger.wish? scope = some v := by
    rcases alignSlot_cases plan s slot with ⟨-, hl⟩ | ⟨-, -, -, -, -, -, -, -, -, hl, -⟩
    · rcases hl with hl | ⟨ident, version, target, ht, hl⟩
      · rw [hl]
        exact ⟨rfl, fun scope v hv => hv⟩
      · rw [hl]
        have hforced := Targets.forced_eq_false hplan.overrides ht
        exact Ledger.propose_keeps hplan.clash hforced (h.unforced hplan) slot.holder version
    · rw [hl]
      exact ⟨rfl, fun scope v hv => hv⟩
  exact ⟨⟨h.toPrepared.alignSlot hF slot, hledger.1.trans h.clean⟩, hledger.2⟩

section Slot

variable (ha : s.forest.artifact? slot = some a) (hv : a.version = some version)
  (hscope : plan.policy.excludes a.scope = false) (ht : plan.targets.get? a.ident = some target)

include ha hv hscope ht

/-- The step of a slot with a literal version sets it to that of the target. -/
theorem alignSlot_literal (hstrict : plan.policy.strictAlignment = false)
    (hlit : Placeholder.occursIn version = false) :
    (alignSlot plan s slot).1.forest.artifact? slot =
      some { a with version := some target.version } := by
  have halign : alignable? plan.policy a = some version := by rw [alignable?, hscope]; exact hv
  have hcompound := Placeholder.isCompound_of_not_occursIn hlit
  have hset (h : a.version = some target.version) :
      a = { a with version := some target.version } := by
    rw [← h]
  unfold alignSlot
  rw [ha]
  simp only [halign, ht, Placeholder.bare?_of_not_occursIn hlit, hcompound, alignLiteral,
    acceptLiteral, hstrict]
  simp only [Option.isSome_none, Bool.false_eq_true, if_false, Bool.not_false, Bool.true_or,
    if_true]
  split
  · rename_i hsame
    rw [hsame] at hv
    rw [ha, ← hset hv]
  · rw [Forest.artifact?_modifyArtifact, if_pos rfl, ha]
    rfl

/-- The step of a slot whose version is bare leaves the slot alone, and the wish for its target is
the wish of the scope where the references of the name end. -/
theorem alignSlot_bare (hplan : Binding plan) (hF : F.NoFieldNames) (h : Faithful F plan s)
    {name : String} (hb : Placeholder.bare? version = some name)
    (hok : alignSlot plan s slot = (t, none)) :
    t.forest = s.forest ∧
      (Dangling F slot.holder name ∨ Promised F slot.holder name target.version t.ledger) := by
  obtain ⟨rfl, hname⟩ := Placeholder.bare?_eq_some.1 hb
  have halign : alignable? plan.policy a = some (Placeholder.spell name) := by
    rw [alignable?, hscope]
    exact hv
  unfold alignSlot at hok
  rw [ha] at hok
  simp only [halign, ht, hb, Option.isSome_some, if_true] at hok
  have hstate : t = { s with ledger := t.ledger } ∧ ∃ taken, s.ledger.propose s.forest plan.policy
      slot.holder (Placeholder.spell name) ⟨a.ident, target.version, target.forced⟩ =
        (t.ledger, .ok taken) := by
    unfold proposeFor at hok
    split at hok
    · rename_i ledger taken hpropose
      cases hok
      exact ⟨rfl, taken, hpropose⟩
    · cases hok
  obtain ⟨hstate, taken, hpropose⟩ := hstate
  refine ⟨by rw [hstate], ?_⟩
  by_cases hne : name = moduleVersionName
  · left
    refine ⟨name, Relation.ReflTransGen.refl, Or.inl ?_⟩
    rw [hne]
    decide
  · have hforced := Targets.forced_eq_false hplan.overrides ht
    obtain ⟨⟨old, hres⟩, hwish⟩ := Ledger.wish?_propose hplan.clash hforced (h.unforced hplan)
      h.clean hname hne hpropose
    have hG := h.same.sameNames.noFieldNames hF
    rcases Forest.declaringScope_eq hG hname hres with ⟨hd, -⟩ | ⟨last, d, hl, hd, he, hscope⟩
    · left
      rw [h.same.declaration?] at hd
      exact ⟨name, Relation.ReflTransGen.refl, Or.inr hd⟩
    · right
      rw [h.same.declaration?] at hd
      rw [hscope] at hwish
      exact ⟨last, d, h.same.symm.leads hl, hd, h.same.symm.endsAt he, hwish⟩

end Slot

theorem faithful_start (plan : Plan) (F : Forest) :
    Faithful F plan (Walk.untilFault (alignModule plan) F.indices
      (relocate plan F.slots ⟨F, {}, {}⟩)).1 := by
  apply Walk.untilFault_invariant
  · intro s i _ h
    exact h.alignModule i
  · refine ⟨prepared_relocate plan F F.slots, ?_⟩
    rw [ledger_relocate]

theorem Faithful.alignSlots (h : Faithful F plan s) (hplan : Binding plan) (hF : F.NoFieldNames)
    (slots : List Slot) :
    Faithful F plan (Walk.untilFault (Alignment.alignSlot plan) slots s).1 ∧
      ∀ scope v, s.ledger.wish? scope = some v →
        (Walk.untilFault (Alignment.alignSlot plan) slots s).1.ledger.wish? scope = some v := by
  apply Walk.untilFault_invariant (P := fun s' => Faithful F plan s' ∧
    ∀ scope v, s.ledger.wish? scope = some v → s'.ledger.wish? scope = some v)
  · intro s' slot _ hs'
    obtain ⟨hfaithful, hwish⟩ := hs'.1.alignSlot hplan hF slot
    exact ⟨hfaithful, fun scope v hv => hwish scope v (hs'.2 scope v hv)⟩
  · exact ⟨h, fun scope v hv => hv⟩

/-- The one step of a slot in a walk that comes through: it finds the relocated artifact, and what
it leaves in the slot and in the ledger stays. -/
theorem enterWishes_split (hplan : Binding plan) (hF : F.NoFieldNames)
    (h : enterWishes plan F = (s, none)) (hslot : slot ∈ F.slots) :
    Faithful F plan s ∧ ∃ s₁ s₂, Faithful F plan s₁ ∧
      s₁.forest.artifact? slot = (F.artifact? slot).map (relocated plan.relocations) ∧
      alignSlot plan s₁ slot = (s₂, none) ∧
      s.forest.artifact? slot = s₂.forest.artifact? slot ∧
      ∀ scope v, s₂.ledger.wish? scope = some v → s.ledger.wish? scope = some v := by
  obtain ⟨s₀, hmodules, hslots⟩ := Walk.andThen_eq_none.1 h
  have hs₀ := faithful_start plan F
  have hrelocated := artifact?_alignModules plan F.indices (relocate plan F.slots ⟨F, {}, {}⟩) slot
  rw [artifact?_relocate plan F.nodup_slots, if_pos hslot] at hrelocated
  rw [hmodules] at hs₀ hrelocated
  obtain ⟨before, after, s₁, s₂, hlist, hbefore, hstep, hafter⟩ :=
    Walk.untilFault_split hslots hslot
  have hnd := F.nodup_slots
  rw [hlist, List.nodup_middle, List.nodup_cons, List.mem_append, not_or] at hnd
  have hs₁ := hs₀.alignSlots hplan hF before
  have ha₁ := artifact?_alignSlots_of_not_mem plan s₀ hnd.1.1
  rw [hbefore] at hs₁ ha₁
  have hs₂ := hs₁.1.alignSlot hplan hF slot
  rw [hstep] at hs₂
  have hs := hs₂.1.alignSlots hplan hF after
  have ha := artifact?_alignSlots_of_not_mem plan s₂ hnd.1.2
  rw [hafter] at hs ha
  exact ⟨hs.1, s₁, s₂, hs₁.1, ha₁.trans hrelocated, hstep, ha, hs.2⟩

/-- Without rollbacks the first phases end with what was entered. -/
theorem prepare_eq_none (hplan : Binding plan) (h : prepare plan F = (t, none)) :
    ∃ s, enterWishes plan F = (s, none) ∧ t.forest = s.forest ∧ t.ledger = s.ledger := by
  obtain ⟨s, hs, hverify⟩ := Walk.andThen_eq_none.1 h
  have hkeeps : ((Walk.untilFault (verifySlot plan) F.slots s).1.forest,
      (Walk.untilFault (verifySlot plan) F.slots s).1.ledger) = (s.forest, s.ledger) := by
    apply Walk.untilFault_keeps (f := fun s : State => (s.forest, s.ledger))
    intro s slot _
    obtain ⟨hf, hl | ⟨hrevert, -⟩⟩ := verifySlot_cases plan s slot
    · rw [hf, hl]
    · exact absurd hrevert hplan.validation
  rw [hverify] at hkeeps
  exact ⟨s, hs, (Prod.mk.inj hkeeps).1, (Prod.mk.inj hkeeps).2⟩

theorem carryOut_literal (hplan : Binding plan) {q : PendingRevision}
    (hnames : s.forest.NoFieldNames) (hset : s.forest.Settled q.scope) {d : Declaration}
    (hd : s.forest.declaration? q.scope.holder q.scope.property = some d)
    (hlit : Placeholder.occursIn d.value = false) :
    (carryOut plan s q).1.forest.declaration? q.scope.holder q.scope.property =
      some ⟨d.holder, d.place, q.new⟩ := by
  have hres : s.forest.resolve q.scope.holder (Placeholder.spell q.scope.property) =
      .ok d.value := by
    rw [Forest.resolve_spell_iff hnames hset.name hd, Forest.resolve_literal_iff hlit]
  have hwritten : (request plan q).written? q.scope.property d.value d.value = .ok (some q.new) :=
    UpdateRequest.written?_literal hplan.strict hlit
  rw [carryOut_forest, Forest.update_of_declared (request plan q) hd
    (Placeholder.bare?_of_not_occursIn hlit) (Forest.ne_moduleVersionName hnames hd) hres]
  split
  · rename_i hsame
    have hnew : q.new = d.value := hsame.symm
    rw [hd, hnew]
  · rw [hwritten]
    exact Forest.declaration?_rewrite hd (some q.new)

/-- Carrying out revisions gives a property the version that its scope is asked to take. -/
theorem declaration?_carryOutAll (hplan : Binding plan) (hF : F.NoFieldNames)
    (hs : Prepared F plan s) (ht : carryOutAll plan s = (t, none)) {i : Nat} {name version : String}
    {d : Declaration} (hd : F.declaration? i name = some d)
    (hlit : Placeholder.occursIn d.value = false)
    (hwish : s.ledger.wish? ⟨d.holder, name⟩ = some version) :
    t.forest.declaration? i name = some ⟨d.holder, d.place, version⟩ := by
  have hord := hs.ready.orderly
  have hrev := hord.revised plan
  rw [← carryOutAll, ht] at hrev
  have hds : s.forest.declaration? i name = some d := by rw [hs.same.declaration?, hd]
  have hown := (Forest.declaration?_holder hd).2
  obtain ⟨r, hr, hnew⟩ := Option.bind_eq_some_iff.1 hwish
  have hold := (hs.asked ⟨d.holder, name⟩ r hr).old d hown hlit
  cases hreverted : r.isReverted with
  | true =>
    -- nothing is pending, and the old value is the one asked for
    have hsame : d.value = version := by
      simpa [Revision.isReverted, hold, hnew] using hreverted
    rw [← hsame]
    exact hrev.declaration? hds (Ledger.not_mem_pending_of_isReverted hr hreverted)
  | false =>
    have hq := Ledger.mem_pending_of_get? hr hreverted hold hnew
    obtain ⟨before, after, s₁, s₂, hlist, hbefore, hstep, hafter⟩ := Walk.untilFault_split ht hq
    rw [hlist] at hord
    have hvisit := hord.visited_of_split hbefore hstep hafter
    have hds' : s.forest.declaration? d.holder name = some d := by rw [hs.same.declaration?, hown]
    have hd₁ := hvisit.declaration?_before hds' rfl
    have hnames := hvisit.sameNames.noFieldNames (hs.same.sameNames.noFieldNames hF)
    have hd₂ := carryOut_literal hplan hnames hvisit.settled hd₁ hlit
    have hdt := hvisit.declaration?_after hd₂ rfl
    exact hrev.names.declaration?_of_property? hds (Forest.property?_of_declaration? hdt)

/-- A name whose scope is asked to take a version resolves to it once revisions are carried out. -/
theorem resolve_of_promised (hplan : Binding plan) (hF : F.NoFieldNames)
    (hvalues : F.PlainValues)
    (hs : Prepared F plan s) (ht : carryOutAll plan s = (t, none)) {G : Forest}
    (hG : Forest.Extends t.forest G) {i : Nat} {name version : String}
    (hname : Placeholder.isName name.toList = true)
    (hlit : Placeholder.occursIn version = false) (h : Promised F i name version s.ledger) :
    Dangling F i name ∨ G.resolve i (Placeholder.spell name) = .ok version := by
  obtain ⟨last, d, hl, hd, he, hwish⟩ := h
  rcases hvalues _ _ _ _ (Forest.property?_of_declaration? hd) with hvalue | hvalue
  · right
    have hrev := hs.ready.orderly.revised plan
    rw [← carryOutAll, ht] at hrev
    have hdG : G.declaration? i last = some ⟨d.holder, d.place, version⟩ := by
      rw [hG.same.declaration?]
      exact declaration?_carryOutAll hplan hF hs ht hd hvalue hwish
    have hnames : G.NoFieldNames := by
      have hnamesG := (hs.same.sameNames.trans hrev.names).trans hG.same.sameNames
      exact hnamesG.noFieldNames hF
    have hlG : G.Leads i name last := hG.same.leads (hrev.leads (hs.same.leads hl))
    rw [hlG.resolve_iff hnames hname, Forest.resolve_spell_iff hnames (hlG.isName hname) hdG,
      Forest.resolve_literal_iff hlit]
  · left
    obtain ⟨other, ho⟩ := Option.isSome_iff_exists.1 hvalue
    refine ⟨other, Relation.ReflTransGen.tail hl ⟨d, hd, ho⟩, ?_⟩
    rcases he other ho with hv | hn
    · left
      rw [hv]
      decide
    · exact Or.inr hn

/-- When a pass comes through, the version of every artifact that has a target is the version of the
target: as a literal, or as what its placeholder resolves to from its module, unless the
references of the name in it end at a module field or at a name that is not declared. -/
theorem run_delivers (plan : Plan) (F : Forest) (s : State) (hplan : Binding plan)
    (hnames : F.NoFieldNames) (hvalues : F.PlainValues)
    (hrun : run plan F = (s, none)) (slot : Slot) (a : Artifact) (version : String)
    (target : Target) (hplace : slot.place ∈ F.placesOf slot.holder)
    (ha : (F.artifact? slot).map (relocated plan.relocations) = some a)
    (hversion : a.version = some version) (hscope : plan.policy.excludes a.scope = false)
    (htarget : plan.targets.get? a.ident = some target) :
    ∃ b, s.forest.artifact? slot = some b ∧
      (Placeholder.occursIn version = false → b.version = some target.version) ∧
      ∀ name, Placeholder.bare? version = some name → b.version = some version ∧
        (Dangling F slot.holder name ∨
          s.forest.resolve slot.holder version = .ok target.version) := by
  obtain ⟨p, u, hp, hu, rfl⟩ := run_eq_none hrun
  obtain ⟨e, he, hforest, hledger⟩ := prepare_eq_none hplan hp
  obtain ⟨a₀, ha₀, -⟩ := Option.map_eq_some_iff.1 ha
  have hslot := Forest.mem_slots ha₀ hplace
  obtain ⟨hfaithful, s₁, s₂, hs₁, ha₁, hstep, hkept, hwishes⟩ :=
    enterWishes_split hplan hnames he hslot
  rw [ha] at ha₁
  have hfinal (b : Artifact) (hb : s₂.forest.artifact? slot = some b) :
      (inject plan u).forest.artifact? slot = some b := by
    have hpb : (prepare plan F).1.forest.artifact? slot = some b := by
      rw [hp, hforest, hkept, hb]
    have hrunb := artifact?_run plan hnames hpb
    rwa [hrun] at hrunb
  by_cases hlit : Placeholder.occursIn version = false
  · have hb := alignSlot_literal ha₁ hversion hscope htarget hplan.strict hlit
    rw [hstep] at hb
    refine ⟨_, hfinal _ hb, fun _ => rfl, fun name hname => ?_⟩
    rw [Placeholder.bare?_of_not_occursIn hlit] at hname
    cases hname
  · cases hbare : Placeholder.bare? version with
    | none =>
      obtain ⟨b, hb⟩ := exists_artifact?_alignSlot plan ha₁
      rw [hstep] at hb
      refine ⟨b, hfinal b hb, fun h => absurd h hlit, fun name hname => ?_⟩
      cases hname
    | some name =>
      obtain ⟨hf, hwish⟩ :=
        alignSlot_bare ha₁ hversion hscope htarget hplan hnames hs₁ hbare hstep
      refine ⟨a, hfinal a (by rw [hf, ha₁]), fun h => absurd h hlit, fun name' hname => ?_⟩
      obtain rfl := Option.some.inj hname
      refine ⟨hversion, ?_⟩
      rcases hwish with hdangling | hpromised
      · exact Or.inl hdangling
      · have hprepared : Prepared F plan p :=
          ⟨by rw [hforest]; exact hfaithful.same, by rw [hledger]; exact hfaithful.asked⟩
        have hkept := hpromised.mono hwishes
        rw [← hledger] at hkept
        obtain ⟨rfl, hname⟩ := Placeholder.bare?_eq_some.1 hbare
        exact resolve_of_promised hplan hnames hvalues hprepared hu (extends_inject plan u) hname
          (hplan.literal _ _ htarget) hkept

theorem alias_delivers :
    ∃ b, (run (sharedPlan {} "2.0") sharedForest).1.forest.artifact? ⟨1, .main, .dependency, 0⟩ =
        some b ∧
      (Placeholder.occursIn "$\x7balias\x7d" = false → b.version = some "2.0") ∧
      ∀ name, Placeholder.bare? "$\x7balias\x7d" = some name →
        b.version = some "$\x7balias\x7d" ∧ (Dangling sharedForest 1 name ∨
          (run (sharedPlan {} "2.0") sharedForest).1.forest.resolve 1 "$\x7balias\x7d" =
            .ok "2.0") :=
  run_delivers (sharedPlan {} "2.0") sharedForest _ ⟨rfl, rfl, by decide, rfl, by decide⟩
    (by decide) (by decide) (Prod.ext rfl (by decide +kernel)) ⟨1, .main, .dependency, 0⟩
    ⟨⟨"org.dep", "a"⟩, some "$\x7balias\x7d", none⟩ _ ⟨"2.0", false⟩ (by decide) (by decide) rfl
    (by decide) (by decide)

end Alignment
end Realign
