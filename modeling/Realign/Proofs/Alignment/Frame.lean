import Realign.Proofs.Alignment.Run
import Realign.Proofs.Forest.Frame

/-!
The frame of a pass. However a pass ends, every step that it has taken has kept the frame of the
forest and has left the artifacts in their slots, with their scopes; only the first phase gives
them other coordinates. A slot that was empty is filled in the last phase or not at all, and that
phase adds to the managed dependencies of the roots.
-/
namespace Realign

namespace Forest

variable {F G : Forest} {slot : Slot}

theorem Framed.modifyArtifact (h : Framed F G) (hslot : slot ∈ F.slots)
    (f : Artifact → Artifact) : Framed F (G.modifyArtifact slot f) := by
  apply h.trans (framed_modifyArtifacts slot.kind _ _)
  rw [h.places]
  exact (of_mem_slots hslot).1

theorem framed_update (F : Forest) (i : Nat) (r : UpdateRequest) (name : String) :
    Framed F (F.update i r name).1 := by
  rcases F.updateFollowing_writes i r (F.declaredNames i) name with
    hsame | ⟨key, d, value, hd, hset⟩
  · rw [update, hsame]
    exact Framed.refl F
  · rw [update, hset]
    exact framed_setProperty hd value

/-- An update changes no artifact. -/
theorem artifact?_update (F : Forest) (i : Nat) (r : UpdateRequest) (name : String) (slot : Slot) :
    (F.update i r name).1.artifact? slot = F.artifact? slot := by
  rcases F.updateFollowing_writes i r (F.declaredNames i) name with
    hsame | ⟨key, d, value, -, hset⟩
  · rw [update, hsame]
  · rw [update, hset, artifact?_eq, artifact?_eq, artifacts?_setProperty]

/-- The index and the parents of a forest are those of every forest with the same frame. -/
theorem Framed.index (h : Framed F G) {i : Nat} {m : Module} (hm : G.modules[i]? = some m) :
    F.find? m.ident = some i ∧ F.parent? i = m.parent.bind F.find? := by
  have hlink : F.links[i]? = some m.link := by
    rw [← h.links, Forest.links, List.getElem?_map, hm]
    rfl
  have hlt : i < F.size := by
    have hlength := (List.getElem?_eq_some_iff.1 hlink).1
    rwa [Forest.links, List.length_map] at hlength
  have hident : F.identOf i = m.ident := by
    rw [identOf_eq_links, hlink]
    rfl
  constructor
  · rw [← hident]
    exact find?_identOf hlt
  · rw [parent?, parentIn, hlink]
    rfl

end Forest

namespace Alignment

variable {plan : Plan} {F : Forest} {s : State} {slot : Slot} {a b : Artifact}

section Frame

theorem framed_relocate (plan : Plan) (F : Forest) :
    Forest.Framed F (relocate plan F.slots ⟨F, {}, {}⟩).forest := by
  apply relocate_invariant (P := fun s => Forest.Framed F s.forest)
  · intro s slot hslot h
    rcases relocateSlot_forest plan.relocations s slot with hs | ⟨f, hs⟩
    · rwa [hs]
    · rw [hs]
      exact h.modifyArtifact hslot f
  · exact Forest.Framed.refl F

theorem framed_alignModule (h : Forest.Framed F s.forest) (i : Nat) :
    Forest.Framed F (alignModule plan s i).1.forest := by
  rcases (alignModule_cases plan s i).2 with hf | ⟨m, target, subject, -, -, -, hf, -⟩
  · rwa [hf]
  · rw [hf]
    exact h.trans (s.forest.framed_setVersion i target.version)

theorem framed_alignSlot (h : Forest.Framed F s.forest) (hslot : slot ∈ F.slots) :
    Forest.Framed F (alignSlot plan s slot).1.forest := by
  rcases alignSlot_cases plan s slot with ⟨hf, -⟩ | ⟨a, v, target, subject, -, -, -, -, hf, -⟩
  · rwa [hf]
  · rw [hf]
    exact h.modifyArtifact hslot _

theorem framed_carryOut (h : Forest.Framed F s.forest) (q : PendingRevision) :
    Forest.Framed F (carryOut plan s q).1.forest := by
  rw [carryOut_forest]
  exact h.trans (s.forest.framed_update _ _ _)

theorem framed_injectInto (F : Forest) (a : Artifact) : Forest.Framed F (injectInto F a) := by
  unfold injectInto
  apply List.foldlRecOn (motive := fun G => Forest.Framed F G) _ _ (Forest.Framed.refl F)
  intro G hG root hroot
  apply hG.trans (Forest.framed_modifyArtifacts _ _ _)
  rw [hG.places]
  exact Forest.main_mem_placesOf (List.mem_range.1 (List.mem_filter.1 hroot).1)

theorem framed_inject (plan : Plan) (s : State) :
    Forest.Framed s.forest (inject plan s).forest := by
  apply inject_invariant (P := fun t => Forest.Framed s.forest t.forest)
  · intro t ident target _ h
    unfold injectTarget
    split
    · exact h
    · exact h.trans (framed_injectInto _ _)
  · exact Forest.Framed.refl _

theorem framed_prepare (plan : Plan) (F : Forest) :
    Forest.Framed F (prepare plan F).1.forest := by
  apply prepare_invariant (P := fun s => Forest.Framed F s.forest)
  · apply enterWishes_invariant (P := fun s => Forest.Framed F s.forest)
    · exact framed_relocate plan F
    · intro s i h
      exact framed_alignModule h i
    · intro s slot hslot h
      exact framed_alignSlot h hslot
  · intro s slot h
    rwa [(verifySlot_cases plan s slot).1]

theorem framed_revise (plan : Plan) (F : Forest) : Forest.Framed F (revise plan F).1.forest := by
  apply revise_invariant (P := fun s => Forest.Framed F s.forest)
  · exact framed_prepare plan F
  · intro s q h
    exact framed_carryOut h q

/-- However a pass ends, the frame of the forest is as before. -/
theorem framed_run (plan : Plan) (F : Forest) : Forest.Framed F (run plan F).1.forest := by
  have hrevise := framed_revise plan F
  rcases run_fst_cases plan F with h | h
  · rwa [h]
  · rw [h]
    exact hrevise.trans (framed_inject plan _)

end Frame

section Slots

/-- An artifact that was given another version at most. -/
def Reversioned (a b : Artifact) : Prop := b.ident = a.ident ∧ b.scope = a.scope

theorem artifact?_carryOut (plan : Plan) (s : State) (q : PendingRevision) (slot : Slot) :
    (carryOut plan s q).1.forest.artifact? slot = s.forest.artifact? slot := by
  rw [carryOut_forest, Forest.artifact?_update]

theorem reversioned_alignSlot (other : Slot)
    (h : ∃ b, s.forest.artifact? slot = some b ∧ Reversioned a b) :
    ∃ b, (alignSlot plan s other).1.forest.artifact? slot = some b ∧ Reversioned a b := by
  obtain ⟨b, hb, hab⟩ := h
  rcases alignSlot_cases plan s other with ⟨hf, -⟩ | ⟨-, -, target, -, -, -, -, -, hf, -⟩
  · exact ⟨b, by rw [hf, hb], hab⟩
  · rw [hf, Forest.artifact?_modifyArtifact, hb]
    split
    · exact ⟨_, rfl, hab⟩
    · exact ⟨b, rfl, hab⟩

/-- After artifacts are relocated none of them leaves its slot before targets are added. -/
theorem reversioned_revise (plan : Plan) (hslot : slot ∈ F.slots)
    (ha : F.artifact? slot = some a) :
    ∃ b, (revise plan F).1.forest.artifact? slot = some b ∧
      Reversioned (relocated plan.relocations a) b := by
  apply revise_invariant (P := fun s => ∃ b, s.forest.artifact? slot = some b ∧
    Reversioned (relocated plan.relocations a) b)
  · apply prepare_invariant (P := fun s => ∃ b, s.forest.artifact? slot = some b ∧
      Reversioned (relocated plan.relocations a) b)
    · apply enterWishes_invariant (P := fun s => ∃ b, s.forest.artifact? slot = some b ∧
        Reversioned (relocated plan.relocations a) b)
      · rw [artifact?_relocate plan F.nodup_slots, if_pos hslot, ha]
        exact ⟨_, rfl, rfl, rfl⟩
      · intro s i h
        rwa [artifact?_alignModule]
      · intro s other _ h
        exact reversioned_alignSlot other h
    · intro s other h
      rwa [(verifySlot_cases plan s other).1]
  · intro s q h
    rwa [artifact?_carryOut]

/-- Nor does one leave its slot later. -/
theorem reversioned_run (plan : Plan) (hslot : slot ∈ F.slots) (ha : F.artifact? slot = some a) :
    ∃ b, (run plan F).1.forest.artifact? slot = some b ∧
      Reversioned (relocated plan.relocations a) b := by
  obtain ⟨b, hb, hab⟩ := reversioned_revise plan hslot ha
  rcases run_fst_cases plan F with h | h
  · exact ⟨b, by rw [h, hb], hab⟩
  · rw [h]
    exact ⟨b, (extends_inject plan _).artifacts slot b hb, hab⟩

/-- Before targets are added no empty slot is filled. -/
theorem artifact?_revise_eq_none (plan : Plan) (hnone : F.artifact? slot = none) :
    (revise plan F).1.forest.artifact? slot = none := by
  apply revise_invariant (P := fun s => s.forest.artifact? slot = none)
  · apply prepare_invariant (P := fun s => s.forest.artifact? slot = none)
    · apply enterWishes_invariant (P := fun s => s.forest.artifact? slot = none)
      · rw [artifact?_relocate plan F.nodup_slots, hnone]
        exact ite_self _
      · intro s i h
        rwa [artifact?_alignModule]
      · intro s other _ h
        rcases alignSlot_cases plan s other with ⟨hf, -⟩ | ⟨-, -, target, -, -, -, -, -, hf, -⟩
        · rwa [hf]
        · rw [hf, Forest.artifact?_modifyArtifact, h]
          exact ite_self _
    · intro s other h
      rwa [(verifySlot_cases plan s other).1]
  · intro s q h
    rwa [artifact?_carryOut]

/-- An artifact stood in its slot before targets were added, or it is one of them, in a slot among
the managed dependencies of a root. -/
theorem artifact?_inject_cases (h : (inject plan s).forest.artifact? slot = some b) :
    s.forest.artifact? slot = some b ∨
      plan.policy.overrideTransitive = true ∧
        (slot.holder ∈ s.forest.roots ∧ slot.place = .main ∧ slot.kind = .managedDependency) ∧
        ⟨b.ident, b.version⟩ ∈ (inject plan s).log.injected := by
  by_cases hwanted : plan.policy.overrideTransitive = true
  · have hadded : (inject plan s).forest.roots = s.forest.roots ∧
        ((inject plan s).forest.artifact? slot = some b → s.forest.artifact? slot = some b ∨
          (slot.holder ∈ s.forest.roots ∧ slot.place = .main ∧ slot.kind = .managedDependency) ∧
            ⟨b.ident, b.version⟩ ∈ (inject plan s).log.injected) := by
      apply inject_invariant (P := fun t => t.forest.roots = s.forest.roots ∧
        (t.forest.artifact? slot = some b → s.forest.artifact? slot = some b ∨
          (slot.holder ∈ s.forest.roots ∧ slot.place = .main ∧ slot.kind = .managedDependency) ∧
            ⟨b.ident, b.version⟩ ∈ t.log.injected))
      · intro t ident target _ ih
        obtain ⟨hroots, ih⟩ := ih
        refine ⟨?_, ?_⟩
        · rw [(extends_injectTarget t ident target).same.sameNames.roots, hroots]
        · unfold injectTarget
          split
          · exact ih
          · intro h
            rw [List.mem_append]
            rcases artifact?_injectInto h with h | ⟨hspot, rfl⟩
            · exact (ih h).imp_right fun hex => ⟨hex.1, Or.inl hex.2⟩
            · rw [hroots] at hspot
              exact Or.inr ⟨hspot, Or.inr (List.mem_singleton.2 rfl)⟩
      · exact ⟨rfl, Or.inl⟩
    exact (hadded.2 h).imp_right fun hspot => ⟨hwanted, hspot⟩
  · rw [inject, if_neg hwanted] at h
    exact Or.inl h

end Slots

/-- What a pass leaves as it was, besides the frame of a forest: the positions of all artifacts in
their lists, their scopes, and their coordinates if no rule relocates them. No list grows but the
managed dependencies of the roots, at their end, if targets are to be added. So the index of
the forest and the parents in it are still right for the modules. -/
structure Frame (plan : Plan) (F G : Forest) : Prop extends Forest.Framed F G where
  artifacts : ∀ slot ∈ F.slots, ∀ a, F.artifact? slot = some a →
    ∃ b, G.artifact? slot = some b ∧ b.ident = (relocated plan.relocations a).ident ∧
      b.scope = a.scope
  added : ∀ slot b, F.artifact? slot = none → G.artifact? slot = some b →
    plan.policy.overrideTransitive = true ∧ slot.holder ∈ F.roots ∧ slot.place = .main ∧
      slot.kind = .managedDependency
  index : ∀ i m, G.modules[i]? = some m →
    F.find? m.ident = some i ∧ F.parent? i = m.parent.bind F.find?

theorem scope_relocated (table : RelocationTable) (a : Artifact) :
    (relocated table a).scope = a.scope := by
  unfold relocated
  split <;> rfl

/-- Whether a pass comes through or not, it keeps to its frame. -/
theorem frame_run (plan : Plan) (F : Forest) : Frame plan F (run plan F).1.forest where
  toFramed := framed_run plan F
  artifacts slot hslot a ha := by
    obtain ⟨b, hb, hident, hscope⟩ := reversioned_run plan hslot ha
    exact ⟨b, hb, hident, hscope.trans (scope_relocated _ a)⟩
  added slot b hnone hb := by
    have hempty := artifact?_revise_eq_none plan hnone
    rcases run_fst_cases plan F with h | h
    · rw [h, hempty] at hb
      cases hb
    · rw [h] at hb
      rcases artifact?_inject_cases hb with hb | ⟨hwanted, ⟨hroot, hplace, hkind⟩, -⟩
      · rw [hempty] at hb
        cases hb
      · refine ⟨hwanted, ?_, hplace, hkind⟩
        rwa [Forest.roots_eq_of_links (framed_revise plan F).links] at hroot
  index i m hm := (framed_run plan F).index hm

end Alignment
end Realign
