import Realign.Proofs.Alignment.Frame

/-!
The log of a pass. No step takes anything back that is in the log, and each step that changes
something enters what it has changed. A module version and a literal version are changed once at
most, so that the entry names the version from before the pass and the final one. What an entry
about a property names is the scope of the revision that was carried out, and nothing else is
written. So all that a pass changes is on record, and a pass with nothing on record has changed
nothing.
-/
namespace Realign

/-- A log with all that another one has. -/
structure AlignmentLog.Grows (log later : AlignmentLog) : Prop where
  moduleVersions : ∀ e ∈ log.moduleVersions, e ∈ later.moduleVersions
  literalUpdates : ∀ e ∈ log.literalUpdates, e ∈ later.literalUpdates
  propertyUpdates : ∀ e ∈ log.propertyUpdates, e ∈ later.propertyUpdates
  relocations : ∀ e ∈ log.relocations, e ∈ later.relocations
  injected : ∀ e ∈ log.injected, e ∈ later.injected

namespace AlignmentLog.Grows

variable {log later last : AlignmentLog}

theorem refl (log : AlignmentLog) : Grows log log :=
  ⟨fun _ => id, fun _ => id, fun _ => id, fun _ => id, fun _ => id⟩

theorem trans (h : Grows log later) (h' : Grows later last) : Grows log last :=
  ⟨fun e he => h'.moduleVersions e (h.moduleVersions e he),
    fun e he => h'.literalUpdates e (h.literalUpdates e he),
    fun e he => h'.propertyUpdates e (h.propertyUpdates e he),
    fun e he => h'.relocations e (h.relocations e he),
    fun e he => h'.injected e (h.injected e he)⟩

end AlignmentLog.Grows

namespace Alignment

open AlignmentLog (Grows)

variable {plan : Plan} {F : Forest} {s t u : State} {slot : Slot} {i : Nat} {a b : Artifact}

section Steps

theorem grows_notice (s : State) (notice : Notice) : Grows s.log (s.notice notice).log :=
  { Grows.refl s.log with }

theorem grows_relocateSlot (table : RelocationTable) (s : State) (slot : Slot) :
    Grows s.log (relocateSlot table s slot).log := by
  unfold relocateSlot
  split
  · exact .refl _
  · split
    · exact .refl _
    · exact { Grows.refl s.log with relocations := fun _ => List.mem_append_left _ }

/-- A step that relocates an artifact enters that. -/
theorem mem_relocations_relocateSlot {table : RelocationTable} {rule : RelocationRule}
    (ha : s.forest.artifact? slot = some a) (hrule : table.get? a.ident = some rule) :
    ⟨s.forest.identOf slot.holder, a.ident, rule.relocate a.ident⟩ ∈
      (relocateSlot table s slot).log.relocations := by
  unfold relocateSlot
  rw [ha]
  simp only [hrule]
  exact List.mem_append_right _ (List.mem_singleton.2 rfl)

theorem grows_alignModule (plan : Plan) (s : State) (i : Nat) :
    Grows s.log (alignModule plan s i).1.log := by
  unfold alignModule
  split
  · exact .refl _
  · split
    · exact .refl _
    · split
      · exact .refl _
      · split
        · exact .refl _
        · exact grows_notice ..
        · exact { Grows.refl s.log with moduleVersions := fun _ => List.mem_append_left _ }

theorem grows_alignLiteral (plan : Plan) (s : State) (slot : Slot) (ident : Ident)
    (version : String) (target : Target) :
    Grows s.log (alignLiteral plan s slot ident version target).1.log := by
  unfold alignLiteral
  dsimp only
  split
  · exact .refl _
  · split
    · exact .refl _
    · exact grows_notice ..
    · exact { Grows.refl s.log with literalUpdates := fun _ => List.mem_append_left _ }

theorem grows_alignSlot (plan : Plan) (s : State) (slot : Slot) :
    Grows s.log (alignSlot plan s slot).1.log := by
  unfold alignSlot
  split
  · exact .refl _
  · split
    · split
      · rw [proposeFor_fst]
        exact .refl _
      · split
        · exact grows_notice ..
        · exact grows_alignLiteral ..
    · exact .refl _

theorem grows_verifySlot (plan : Plan) (s : State) (slot : Slot) :
    Grows s.log (verifySlot plan s slot).1.log := by
  unfold verifySlot
  split
  · exact .refl _
  · split
    · exact .refl _
    · split
      · exact .refl _
      · exact grows_notice ..
      · exact .refl _

theorem grows_carryOut (plan : Plan) (s : State) (q : PendingRevision) :
    Grows s.log (carryOut plan s q).1.log := by
  unfold carryOut
  dsimp only
  split
  · exact .refl _
  · exact { Grows.refl s.log with propertyUpdates := fun _ => List.mem_append_left _ }
  · exact { Grows.refl s.log with }
  · exact .refl _

/-- A revision whose property is found is entered under its scope. -/
theorem carryOut_entry (plan : Plan) {q : PendingRevision}
    (h : (s.forest.update q.scope.holder (request plan q) q.scope.property).2 = .ok .found) :
    ∃ e ∈ (carryOut plan s q).1.log.propertyUpdates,
      e.holder = s.forest.identOf q.scope.holder ∧ e.subject = q.scope.property := by
  unfold request at h
  unfold carryOut
  dsimp only
  split
  · rename_i heq
    rw [heq] at h
    cases h
  · exact ⟨_, List.mem_append_right _ (List.mem_singleton.2 rfl), rfl, rfl⟩
  · rename_i heq
    rw [heq] at h
    cases h
  · rename_i heq
    rw [heq] at h
    cases h

theorem grows_injectTarget (s : State) (ident : Ident) (target : Target) :
    Grows s.log (injectTarget s ident target).log := by
  unfold injectTarget
  split
  · exact .refl _
  · exact { Grows.refl s.log with injected := fun _ => List.mem_append_left _ }

end Steps

section Later

/-- What the phases after wishes are entered do to module versions, artifacts and the log. -/
structure Follows (s t : State) : Prop where
  versions : ∀ i, t.forest.version? i = s.forest.version? i
  artifacts : ∀ slot a, s.forest.artifact? slot = some a → t.forest.artifact? slot = some a
  log : Grows s.log t.log

theorem Follows.trans (h : Follows s t) (h' : Follows t u) : Follows s u :=
  ⟨fun i => (h'.versions i).trans (h.versions i),
    fun slot a ha => h'.artifacts slot a (h.artifacts slot a ha), h.log.trans h'.log⟩

theorem version?_carryOut (plan : Plan) (s : State) (q : PendingRevision) (i : Nat) :
    (carryOut plan s q).1.forest.version? i = s.forest.version? i := by
  rw [carryOut_forest, Forest.update]
  rcases s.forest.updateFollowing_writes q.scope.holder (request plan q)
    (s.forest.declaredNames q.scope.holder) q.scope.property with hsame | ⟨key, d, value, -, hset⟩
  · rw [hsame]
  · rw [hset, Forest.version?_setProperty]

theorem follows_inject (plan : Plan) (s : State) : Follows s (inject plan s) := by
  apply inject_invariant (P := Follows s)
  · intro t ident target _ h
    have hextends := extends_injectTarget t ident target
    exact h.trans ⟨hextends.versions, hextends.artifacts, grows_injectTarget t ident target⟩
  · exact ⟨fun _ => rfl, fun _ _ ha => ha, .refl _⟩

theorem follows_run (plan : Plan) (F : Forest) :
    Follows (enterWishes plan F).1 (run plan F).1 := by
  have hrevise : Follows (enterWishes plan F).1 (revise plan F).1 := by
    apply revise_invariant (P := Follows (enterWishes plan F).1)
    · apply prepare_invariant (P := Follows (enterWishes plan F).1)
      · exact ⟨fun _ => rfl, fun _ _ ha => ha, .refl _⟩
      · intro s slot h
        have hf := (verifySlot_cases plan s slot).1
        exact h.trans ⟨fun i => by rw [hf], fun _ _ ha => by rw [hf, ha], grows_verifySlot ..⟩
    · intro s q h
      exact h.trans ⟨version?_carryOut plan s q,
        fun slot a ha => by rw [artifact?_carryOut, ha], grows_carryOut ..⟩
  rcases run_fst_cases plan F with h | h
  · rwa [h]
  · rw [h]
    exact hrevise.trans (follows_inject plan _)

end Later

section Modules

/-- The version of a module is as before, or its change is on record. -/
def VersionRecorded (F : Forest) (i : Nat) (s : State) : Prop :=
  s.forest.version? i = F.version? i ∨
    ∃ old new, F.version? i = some old ∧ s.forest.version? i = some new ∧
      ⟨F.identOf i, (F.identOf i).toString, old, new⟩ ∈ s.log.moduleVersions

theorem VersionRecorded.of_same (h : VersionRecorded F i s)
    (hversion : t.forest.version? i = s.forest.version? i) (hlog : Grows s.log t.log) :
    VersionRecorded F i t := by
  unfold VersionRecorded
  rw [hversion]
  refine h.imp_right fun hex => ?_
  obtain ⟨old, new, hold, hnew, he⟩ := hex
  exact ⟨old, new, hold, hnew, hlog.moduleVersions _ he⟩

theorem versionRecorded_alignModules (plan : Plan) (F : Forest) (i : Nat) :
    VersionRecorded F i (Walk.untilFault (alignModule plan) F.indices
      (relocate plan F.slots ⟨F, {}, {}⟩)).1 := by
  -- the frame is carried along since an entry names the module as `F` does
  have hstart : Forest.Framed F (relocate plan F.slots ⟨F, {}, {}⟩).forest ∧
      (relocate plan F.slots ⟨F, {}, {}⟩).forest.version? i = F.version? i :=
    ⟨framed_relocate plan F, version?_relocate _ _ i⟩
  have hown (s : State) (h : Forest.Framed F s.forest ∧ s.forest.version? i = F.version? i) :
      (Forest.Framed F (alignModule plan s i).1.forest ∧
        (alignModule plan s i).1.forest.version? i = F.version? i) ∨
          VersionRecorded F i (alignModule plan s i).1 := by
    rcases (alignModule_cases plan s i).2 with hf | ⟨m, target, subject, hm, -, -, hf, he⟩
    · left
      rwa [hf]
    · right
      have hv : s.forest.version? i = some m.version := by
        rw [Forest.version?, hm]
        rfl
      have hident : F.identOf i = m.ident := by
        rw [← h.1.identOf, Forest.identOf, hm]
        rfl
      rw [← hident] at he
      refine Or.inr ⟨m.version, target.version, by rw [← h.2, hv], ?_, he⟩
      rw [hf, Forest.version?_setVersion, if_pos rfl, hv]
      rfl
  have hnd : F.indices.Nodup := List.nodup_range
  have hwalk := Walk.untilFault_ended hnd i hown
    (fun s j _ hne h => ⟨framed_alignModule h.1 j, by
      rw [version?_alignModule_of_ne plan s hne, h.2]⟩)
    (fun s j _ hne h =>
      h.of_same (version?_alignModule_of_ne plan s hne) (grows_alignModule plan s j)) hstart
  rcases hwalk with h | h
  · exact Or.inl h.2
  · exact h

theorem versionRecorded_run (plan : Plan) (F : Forest) (i : Nat) :
    VersionRecorded F i (run plan F).1 := by
  have hwishes : VersionRecorded F i (enterWishes plan F).1 := by
    apply Walk.andThen_invariant (versionRecorded_alignModules plan F i)
    apply Walk.untilFault_invariant
    intro s slot _ h
    exact h.of_same (version?_alignSlot plan s slot i) (grows_alignSlot plan s slot)
  have hlater := follows_run plan F
  exact hwishes.of_same (hlater.versions i) hlater.log

end Modules

section Slots

/-- The artifact is in its slot as it was, or the change of its version is on record. -/
def LiteralRecorded (F : Forest) (slot : Slot) (a : Artifact) (s : State) : Prop :=
  s.forest.artifact? slot = some a ∨
    ∃ old new, s.forest.artifact? slot = some { a with version := some new } ∧
      ⟨F.identOf slot.holder, a.ident.toString, old, new⟩ ∈ s.log.literalUpdates

theorem LiteralRecorded.of_same (h : LiteralRecorded F slot a s)
    (hartifact : ∀ b, s.forest.artifact? slot = some b → t.forest.artifact? slot = some b)
    (hlog : Grows s.log t.log) : LiteralRecorded F slot a t := by
  refine h.imp (hartifact a) fun hex => ?_
  obtain ⟨old, new, hb, he⟩ := hex
  exact ⟨old, new, hartifact _ hb, hlog.literalUpdates _ he⟩

theorem literalRecorded_alignSlots (plan : Plan) (hs : Forest.Framed F s.forest)
    (ha : s.forest.artifact? slot = some a) :
    LiteralRecorded F slot a (Walk.untilFault (alignSlot plan) F.slots s).1 := by
  have hown (s : State) (h : Forest.Framed F s.forest ∧ s.forest.artifact? slot = some a) :
      (Forest.Framed F (alignSlot plan s slot).1.forest ∧
        (alignSlot plan s slot).1.forest.artifact? slot = some a) ∨
          LiteralRecorded F slot a (alignSlot plan s slot).1 := by
    rcases alignSlot_cases plan s slot with
      ⟨hf, -⟩ | ⟨a', version, target, subject, ha', -, -, -, hf, -, he⟩
    · left
      rwa [hf]
    · rw [h.2] at ha'
      obtain rfl := Option.some.inj ha'
      rw [h.1.identOf] at he
      refine Or.inr (Or.inr ⟨version, target.version, ?_, he⟩)
      rw [hf, Forest.artifact?_modifyArtifact, if_pos rfl, h.2]
      rfl
  have hwalk := Walk.untilFault_ended F.nodup_slots slot hown
    (fun s other hother hne h => ⟨framed_alignSlot h.1 hother, by
      rw [artifact?_alignSlot_of_ne plan s hne, h.2]⟩)
    (fun s other _ hne h => h.of_same
      (fun b hb => by rw [artifact?_alignSlot_of_ne plan s hne, hb])
      (grows_alignSlot plan s other)) ⟨hs, ha⟩
  rcases hwalk with h | h
  · exact Or.inl h.2
  · exact h

/-- A relocated artifact is in its slot in the end, or else the version that it has there is on
record. -/
theorem literalRecorded_run (plan : Plan) (hslot : slot ∈ F.slots)
    (ha : F.artifact? slot = some a) :
    LiteralRecorded F slot (relocated plan.relocations a) (run plan F).1 := by
  have hwishes : LiteralRecorded F slot (relocated plan.relocations a) (enterWishes plan F).1 := by
    have hframed : Forest.Framed F (Walk.untilFault (alignModule plan) F.indices
        (relocate plan F.slots ⟨F, {}, {}⟩)).1.forest := by
      apply Walk.untilFault_invariant (P := fun s : State => Forest.Framed F s.forest)
      · intro s i _ h
        exact framed_alignModule h i
      · exact framed_relocate plan F
    have hrelocated := artifact?_alignModules plan F.indices (relocate plan F.slots ⟨F, {}, {}⟩)
      slot
    rw [artifact?_relocate plan F.nodup_slots, if_pos hslot, ha, Option.map_some] at hrelocated
    rcases Walk.andThen_fst (Walk.untilFault (alignSlot plan) F.slots) _ with h | h
    · rw [enterWishes, h]
      exact Or.inl hrelocated
    · rw [enterWishes, h]
      exact literalRecorded_alignSlots plan hframed hrelocated
  have hlater := follows_run plan F
  exact hwishes.of_same (hlater.artifacts slot) hlater.log

theorem mem_relocations_relocate {rule : RelocationRule} {slots : List Slot} (hnd : slots.Nodup)
    (hslot : slot ∈ slots) (ha : s.forest.artifact? slot = some a)
    (hrule : plan.relocations.get? a.ident = some rule) :
    ⟨s.forest.identOf slot.holder, a.ident, rule.relocate a.ident⟩ ∈
      (relocate plan slots s).log.relocations := by
  unfold relocate
  induction slots generalizing s with
  | nil => cases hslot
  | cons first slots ih =>
    rw [List.nodup_cons] at hnd
    rw [List.foldl_cons]
    rcases List.mem_cons.1 hslot with rfl | hslot
    · -- the entry is made here, and no later step takes it back
      have hentry := mem_relocations_relocateSlot ha hrule
      apply List.foldlRecOn (motive := fun t : State =>
        ⟨s.forest.identOf slot.holder, a.ident, rule.relocate a.ident⟩ ∈ t.log.relocations)
        _ _ hentry
      intro t ht other _
      exact (grows_relocateSlot plan.relocations t other).relocations _ ht
    · have hne : first ≠ slot := fun e => hnd.1 (e ▸ hslot)
      have hident : (relocateSlot plan.relocations s first).forest.identOf slot.holder =
          s.forest.identOf slot.holder := by
        rcases relocateSlot_forest plan.relocations s first with hf | ⟨f, hf⟩
        · rw [hf]
        · rw [hf]
          exact (s.forest.sameProperties_modifyArtifact first f).sameNames.identOf _
      rw [← hident]
      apply ih hnd.2 hslot
      rw [artifact?_relocateSlot, if_neg hne, ha]

/-- A relocation is on record in the end. -/
theorem mem_relocations_run {rule : RelocationRule} (hslot : slot ∈ F.slots)
    (ha : F.artifact? slot = some a) (hrule : plan.relocations.get? a.ident = some rule) :
    ⟨F.identOf slot.holder, a.ident, rule.relocate a.ident⟩ ∈
      (run plan F).1.log.relocations := by
  apply (follows_run plan F).log.relocations
  apply enterWishes_invariant (P := fun s =>
    ⟨F.identOf slot.holder, a.ident, rule.relocate a.ident⟩ ∈ s.log.relocations)
  · exact mem_relocations_relocate (s := ⟨F, {}, {}⟩) F.nodup_slots hslot ha hrule
  · intro s i h
    exact (grows_alignModule plan s i).relocations _ h
  · intro s other _ h
    exact (grows_alignSlot plan s other).relocations _ h

/-- An artifact at a place that does not count stays as it is. -/
theorem artifact?_run_of_not_mem (plan : Plan) (hslot : slot ∉ F.slots)
    (ha : F.artifact? slot = some a) : (run plan F).1.forest.artifact? slot = some a := by
  have hidle : slot.place ∉ F.placesOf slot.holder := fun h => hslot (Forest.mem_slots ha h)
  rw [Forest.artifact?_eq, Forest.artifacts?] at ha ⊢
  rw [(framed_run plan F).idle _ _ hidle, ha]

end Slots

section Properties

/-- The value of a property is as before, or its change is on record. -/
def PropertyRecorded (F : Forest) (i : Nat) (place : Place) (name : String) (s : State) : Prop :=
  s.forest.property? i place name = F.property? i place name ∨
    ∃ e ∈ s.log.propertyUpdates, e.holder = F.identOf i ∧ e.subject = name

variable {place : Place} {name : String}

theorem PropertyRecorded.of_same (h : PropertyRecorded F i place name s)
    (hproperty : t.forest.property? i place name = s.forest.property? i place name)
    (hlog : Grows s.log t.log) : PropertyRecorded F i place name t := by
  unfold PropertyRecorded
  rw [hproperty]
  refine h.imp_right fun hex => ?_
  obtain ⟨e, he, hentry⟩ := hex
  exact ⟨e, hlog.propertyUpdates e he, hentry⟩

theorem PropertyRecorded.carryOut {q : PendingRevision} (h : PropertyRecorded F i place name s)
    (hs : Forest.Framed F s.forest) (hset : s.forest.Settled q.scope) :
    PropertyRecorded F i place name (carryOut plan s q).1 := by
  have hgrows := grows_carryOut plan s q
  rcases Forest.update_cases hset (request plan q) with
    ⟨hsame, -⟩ | ⟨d, resolved, written, hw, hu⟩
  · apply h.of_same _ hgrows
    rw [carryOut_forest, hsame]
  · -- what is written is the property of the scope itself, where the module has it declared
    by_cases hscope : q.scope = ⟨i, name⟩
    · obtain ⟨e, he, hholder, hsubject⟩ := carryOut_entry plan (s := s) (q := q) (by rw [hu])
      rw [hs.identOf, hscope] at hholder
      rw [hscope] at hsubject
      exact Or.inr ⟨e, he, hholder, hsubject⟩
    · apply h.of_same _ hgrows
      rw [carryOut_forest, hu]
      apply Forest.property?_rewrite_of_ne hw.declared
      intro hentry
      obtain ⟨rfl, -, rfl⟩ := hentry
      rw [hw.own] at hscope
      exact hscope rfl

theorem propertyRecorded_run (plan : Plan) (hnames : F.NoFieldNames) (i : Nat) (place : Place)
    (name : String) : PropertyRecorded F i place name (run plan F).1 := by
  have hprepare : PropertyRecorded F i place name (prepare plan F).1 :=
    Or.inl ((ready_prepare plan F hnames).same.property? i place name)
  have hrevise : PropertyRecorded F i place name (revise plan F).1 := by
    rcases Walk.andThen_fst (carryOutAll plan) (prepare plan F) with h | h
    · rwa [revise, h]
    · rw [revise, h]
      have hboth := (orderly_prepare plan hnames).invariant plan
        (P := fun s => Forest.Framed F s.forest ∧ PropertyRecorded F i place name s)
        (fun s q _ hset h => ⟨framed_carryOut h.1 q, h.2.carryOut h.1 hset⟩)
        ⟨framed_prepare plan F, hprepare⟩
      exact hboth.2
  rcases run_fst_cases plan F with h | h
  · rwa [h]
  · rw [h]
    exact hrevise.of_same ((extends_inject plan _).same.property? i place name)
      (follows_inject plan _).log

end Properties

/-- The artifact that stands in a slot in the end: relocated or not, and in another version or not,
either of which is on record. -/
theorem artifact?_run_cases (plan : Plan) (ha : F.artifact? slot = some a) :
    ∃ b c, (run plan F).1.forest.artifact? slot = some b ∧
      (c = a ∨ ∃ rule, plan.relocations.get? a.ident = some rule ∧ c = moved rule a ∧
        ⟨F.identOf slot.holder, a.ident, c.ident⟩ ∈ (run plan F).1.log.relocations) ∧
      (b = c ∨ ∃ old new, b = { c with version := some new } ∧
        ⟨F.identOf slot.holder, c.ident.toString, old, new⟩ ∈
          (run plan F).1.log.literalUpdates) := by
  by_cases hslot : slot ∈ F.slots
  · have hrelocated : relocated plan.relocations a = a ∨ ∃ rule,
        plan.relocations.get? a.ident = some rule ∧ relocated plan.relocations a = moved rule a ∧
        ⟨F.identOf slot.holder, a.ident, (relocated plan.relocations a).ident⟩ ∈
          (run plan F).1.log.relocations := by
      unfold relocated
      split
      · rename_i rule hrule
        exact Or.inr ⟨rule, hrule, rfl, mem_relocations_run hslot ha hrule⟩
      · exact Or.inl rfl
    rcases literalRecorded_run plan hslot ha with hsame | ⟨old, new, hnew, he⟩
    · exact ⟨_, _, hsame, hrelocated, Or.inl rfl⟩
    · exact ⟨_, _, hnew, hrelocated, Or.inr ⟨old, new, rfl, he⟩⟩
  · exact ⟨a, a, artifact?_run_of_not_mem plan hslot ha, Or.inl rfl, Or.inl rfl⟩

/-- An artifact in a slot that was empty has been added, and that is on record. -/
theorem mem_injected_run (plan : Plan) (hnone : F.artifact? slot = none)
    (hb : (run plan F).1.forest.artifact? slot = some b) :
    ⟨b.ident, b.version⟩ ∈ (run plan F).1.log.injected := by
  have hempty := artifact?_revise_eq_none plan hnone
  rcases run_fst_cases plan F with h | h
  · rw [h, hempty] at hb
    cases hb
  · rw [h] at hb ⊢
    rcases artifact?_inject_cases hb with hb | ⟨-, -, he⟩
    · rw [hempty] at hb
      cases hb
    · exact he

/-- A pass with nothing on record has changed nothing. -/
theorem forest_run_of_changeCount_eq_zero (plan : Plan) (hnames : F.NoFieldNames)
    (hzero : (run plan F).1.log.changeCount = 0) : (run plan F).1.forest = F := by
  simp only [AlignmentLog.changeCount, Nat.add_eq_zero_iff, List.length_eq_zero_iff] at hzero
  obtain ⟨⟨⟨⟨hversions, hliterals⟩, hproperties⟩, hrelocations⟩, hinjected⟩ := hzero
  have hframed := framed_run plan F
  apply hframed.eq
  · intro i
    rcases versionRecorded_run plan F i with h | ⟨old, new, -, -, he⟩
    · exact h
    · rw [hversions] at he
      cases he
  · intro i place
    apply Forest.body?_eq_of_same (hframed.names i place)
    · intro name
      rcases propertyRecorded_run plan hnames i place name with h | ⟨e, he, -⟩
      · exact h
      · rw [hproperties] at he
        cases he
    · intro kind index
      generalize (⟨i, place, kind, index⟩ : Slot) = slot
      cases ha : F.artifact? slot with
      | none =>
        cases hb : (run plan F).1.forest.artifact? slot with
        | none => rfl
        | some b =>
          have he := mem_injected_run plan ha hb
          rw [hinjected] at he
          cases he
      | some a =>
        obtain ⟨b, c, hb, hc, hbc⟩ := artifact?_run_cases plan ha
        rw [hrelocations] at hc
        rw [hliterals] at hbc
        simp only [List.not_mem_nil, and_false, exists_false, or_false] at hc hbc
        rw [hb, hbc, hc]

/-- The frame of a forest and the scopes of its artifacts are as before, and for all that is
different there is an entry in the log. -/
structure Recorded (plan : Plan) (F : Forest) (s : State) : Prop where
  frame : Forest.Framed F s.forest
  scopes : ∀ slot a, F.artifact? slot = some a →
    ∃ b, s.forest.artifact? slot = some b ∧ b.scope = a.scope
  versions : ∀ i old new, F.version? i = some old → s.forest.version? i = some new → old ≠ new →
    ⟨F.identOf i, (F.identOf i).toString, old, new⟩ ∈ s.log.moduleVersions
  coordinates : ∀ slot a b, F.artifact? slot = some a → s.forest.artifact? slot = some b →
    a.ident ≠ b.ident → ⟨F.identOf slot.holder, a.ident, b.ident⟩ ∈ s.log.relocations
  artifactVersions : ∀ slot a b, F.artifact? slot = some a → s.forest.artifact? slot = some b →
    a.version ≠ b.version →
      (∃ old new, b.version = some new ∧
        ⟨F.identOf slot.holder, b.ident.toString, old, new⟩ ∈ s.log.literalUpdates) ∨
      ∃ rule new, b.version = some new ∧ rule.version = some new ∧
        plan.relocations.get? a.ident = some rule ∧
        ⟨F.identOf slot.holder, a.ident, b.ident⟩ ∈ s.log.relocations
  properties : ∀ i place name, s.forest.property? i place name ≠ F.property? i place name →
    ∃ e ∈ s.log.propertyUpdates, e.holder = F.identOf i ∧ e.subject = name
  artifacts : ∀ slot b, F.artifact? slot = none → s.forest.artifact? slot = some b →
    ⟨b.ident, b.version⟩ ∈ s.log.injected
  unchanged : s.log.changeCount = 0 → s.forest = F

/-- Whatever a pass changes it has on record, whether it comes through or not. -/
theorem recorded_run (plan : Plan) (F : Forest) (hnames : F.NoFieldNames) :
    Recorded plan F (run plan F).1 where
  frame := framed_run plan F
  scopes slot a ha := by
    obtain ⟨b, c, hb, hc, hbc⟩ := artifact?_run_cases plan ha
    refine ⟨b, hb, ?_⟩
    calc b.scope = c.scope := by rcases hbc with rfl | ⟨old, new, rfl, -⟩ <;> rfl
      _ = a.scope := by rcases hc with rfl | ⟨rule, -, rfl, -⟩ <;> rfl
  versions i old new hold hnew hne := by
    rcases versionRecorded_run plan F i with h | ⟨old', new', hold', hnew', he⟩
    · rw [hold, hnew] at h
      exact absurd (Option.some.inj h).symm hne
    · rw [hold] at hold'
      rw [hnew] at hnew'
      rwa [Option.some.inj hold', Option.some.inj hnew']
  coordinates slot a b ha hb hne := by
    obtain ⟨b', c, hb', hc, hbc⟩ := artifact?_run_cases plan ha
    rw [hb] at hb'
    obtain rfl := Option.some.inj hb'
    have hident : b.ident = c.ident := by
      rcases hbc with rfl | ⟨old, new, rfl, -⟩ <;> rfl
    rw [hident] at hne ⊢
    rcases hc with rfl | ⟨rule, -, -, he⟩
    · exact absurd rfl hne
    · exact he
  artifactVersions slot a b ha hb hne := by
    obtain ⟨b', c, hb', hc, hbc⟩ := artifact?_run_cases plan ha
    rw [hb] at hb'
    obtain rfl := Option.some.inj hb'
    rcases hbc with rfl | ⟨old, new, rfl, he⟩
    · rcases hc with rfl | ⟨rule, hrule, rfl, he⟩
      · exact absurd rfl hne
      · right
        cases hversion : rule.version with
        | none =>
          rw [moved, hversion] at hne
          exact absurd rfl hne
        | some new => exact ⟨rule, new, by rw [moved, hversion]; rfl, hversion, hrule, he⟩
    · exact Or.inl ⟨old, new, rfl, he⟩
  properties i place name hne :=
    (propertyRecorded_run plan hnames i place name).resolve_left hne
  artifacts slot b hnone hb := mem_injected_run plan hnone hb
  unchanged hzero := forest_run_of_changeCount_eq_zero plan hnames hzero

theorem dep_version_recorded :
    ∃ e ∈ (run (sharedPlan {} "2.0") sharedForest).1.log.propertyUpdates,
      e.holder = ⟨"org.foo", "root"⟩ ∧ e.subject = "dep.version" :=
  (recorded_run (sharedPlan {} "2.0") sharedForest (by decide)).properties 0 .main "dep.version"
    (by decide +kernel)

end Alignment
end Realign
