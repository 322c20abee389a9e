import Realign.Proofs.Alignment.Run

/-!
The property changes that a pass reports. Each entry comes from one pending revision whose
property was found. It is in effect at the end if the new value was written, unless it
was written behind placeholders that a later revision made to resolve to something else. A
revision that the strict check stood against is reported as well, and then nothing was
written for it.
-/
namespace Realign

/-- Whether what a change of a property says is so in a forest: the property resolves to the new
value from the module that is named. -/
def VersionChange.InEffect (F : Forest) (change : VersionChange) : Prop :=
  ∃ i, F.find? change.holder = some i ∧
    F.resolve i (Placeholder.spell change.subject) = .ok change.new

instance (F : Forest) (change : VersionChange) : Decidable (change.InEffect F) :=
  decidable_of_iff ((F.find? change.holder).any fun i =>
    F.resolve i (Placeholder.spell change.subject) = .ok change.new) (by
      rw [VersionChange.InEffect, Option.any_eq_true]
      simp only [decide_eq_true_eq])

/-- What is reported of a revision whose property is found. -/
def PendingRevision.change (F : Forest) (q : PendingRevision) : VersionChange :=
  ⟨F.identOf q.scope.holder, q.scope.property, q.old, q.new⟩

namespace Alignment

variable {plan : Plan} {F : Forest} {s t : State} {q : PendingRevision}

/-- Before revisions are carried out no change of a property is reported. -/
theorem propertyUpdates_prepare (plan : Plan) (F : Forest) :
    (prepare plan F).1.log.propertyUpdates = [] :=
  (untouched_prepare plan F).propertyUpdates

/-- A change that the step of a revision reports is that of a property that was found. -/
theorem mem_propertyUpdates_carryOut {e : VersionChange}
    (h : e ∈ (carryOut plan s q).1.log.propertyUpdates) :
    e ∈ s.log.propertyUpdates ∨ e = q.change s.forest ∧
      (s.forest.update q.scope.holder (request plan q) q.scope.property).2 = .ok .found := by
  unfold carryOut at h
  dsimp only at h
  split at h
  · exact Or.inl h
  · rename_i heq
    rw [List.mem_append, List.mem_singleton] at h
    refine h.imp_right fun he => ⟨he, ?_⟩
    rw [request, heq]
  · exact Or.inl h
  · exact Or.inl h

/-- What a change that is reported takes to be in effect at the end: what the strict check kept has
come to resolve to the new value, or else the placeholders that were kept resolve as they did
when the revision was carried out. -/
def Lasts (plan : Plan) (G : Forest) (q : PendingRevision) (declared resolved : String) : Prop :=
  if (request plan q).refuses resolved then G.resolve q.scope.holder declared = .ok q.new
  else Placeholder.isCompound declared = true → resolved.toList <+: q.new.toList →
    G.resolve q.scope.holder declared = .ok resolved

/-- What is written over a literal value lasts, so for such a value all depends on the strict
check. -/
theorem lasts_iff_of_literal {F G : Forest} {declared resolved : String}
    (hlit : Placeholder.occursIn declared = false)
    (hres : F.resolve q.scope.holder declared = .ok resolved) (hne : resolved ≠ q.new) :
    Lasts plan G q declared resolved ↔ (request plan q).refuses resolved = false := by
  have hsame : resolved = declared := (Forest.resolve_literal_iff hlit).1 hres
  have hcompound := Placeholder.isCompound_of_not_occursIn hlit
  unfold Lasts
  cases (request plan q).refuses resolved with
  | true =>
    rw [if_pos rfl, Forest.resolve_literal_iff hlit, ← hsame]
    constructor
    · intro h
      exact absurd h.symm hne
    · intro h
      cases h
  | false =>
    rw [if_neg Bool.false_ne_true, hcompound]
    constructor
    · intro _
      rfl
    · intro _ h
      cases h

/-- What the final value of a property resolves to, by what was written. -/
theorem resolve_written_iff {G H : Forest} {d : Declaration} {resolved name : String}
    {written : Option String} (hnew : Placeholder.occursIn q.new = false)
    (hres : G.resolve q.scope.holder d.value = .ok resolved)
    (hw : (request plan q).written? name d.value resolved = .ok written) :
    H.resolve q.scope.holder (written.getD d.value) = .ok q.new ↔
      Lasts plan H q d.value resolved := by
  unfold Lasts
  rcases UpdateRequest.written?_eq_ok hw with ⟨hr, rfl⟩ | ⟨hr, hcases⟩
  · rw [if_pos hr]
    rfl
  · rw [hr, if_neg Bool.false_ne_true]
    rcases hcases with ⟨hcompound, tail, htail, rfl⟩ | ⟨hnot, rfl⟩
    · have hnew' : q.new.toList = resolved.toList ++ tail := htail
      have hpre : resolved.toList <+: q.new.toList := ⟨tail, hnew'.symm⟩
      rw [Forest.resolve, Resolver.resolve_eq_ok_iff] at hres
      rw [Placeholder.occursIn, hnew'] at hnew
      simp only [Option.getD_some, hcompound, hpre, forall_const]
      rw [Forest.resolve, Resolver.resolve_eq_ok_iff, Forest.resolve, Resolver.resolve_eq_ok_iff,
        String.toList_append, String.toList_ofList, unfolds_append_iff hres hnew, hnew']
      constructor
      · intro h
        obtain ⟨base, hb, he⟩ := h
        rwa [← List.append_cancel_right he] at hb
      · intro hb
        exact ⟨_, hb, rfl⟩
    · have hlit : H.resolve q.scope.holder q.new = .ok q.new :=
        (Forest.resolve_literal_iff hnew).2 rfl
      exact iff_of_true hlit fun hcompound hpre => absurd hpre (hnot hcompound)

theorem change_eq {G H : Forest} (h : Forest.SameNames G H) : q.change H = q.change G := by
  rw [PendingRevision.change, h.identOf, PendingRevision.change]

/-- In a forest that has the module, what a reported change of a property says is so exactly when
the property resolves to the new value there. -/
theorem inEffect_change_iff {G H : Forest} (h : Forest.SameNames G H)
    (hlt : q.scope.holder < H.size) :
    (q.change G).InEffect H ↔
      H.resolve q.scope.holder (Placeholder.spell q.scope.property) = .ok q.new := by
  have hfind : H.find? (q.change G).holder = some q.scope.holder := by
    rw [← change_eq h]
    exact Forest.find?_identOf hlt
  constructor
  · intro hin
    obtain ⟨i, hi, hr⟩ := hin
    rw [hfind] at hi
    rwa [← Option.some.inj hi] at hr
  · intro hr
    exact ⟨_, hfind, hr⟩

/-- A pending revision that a pass came to, which found its property declared in this way and
resolving so. -/
def Found (plan : Plan) (F : Forest) (q : PendingRevision) (d : Declaration) (resolved : String) :
    Prop :=
  ∃ p before after s, prepare plan F = (p, none) ∧ p.ledger.pending = before ++ q :: after ∧
    Walk.untilFault (carryOut plan) before p = (s, none) ∧
    F.declaration? q.scope.holder q.scope.property = some d ∧
    s.forest.resolve q.scope.holder d.value = .ok resolved

/-- A revision that is carried out finds its property declared as it was before the pass, and what
it writes there is declared still when the last revision has been carried out. -/
theorem Visited.found {s₁ : State} (h : Visited plan s q s₁ t) (hs : Ready F plan s)
    (hq : Sound F plan q) (hnames : F.NoFieldNames)
    (hfound : (s₁.forest.update q.scope.holder (request plan q) q.scope.property).2 =
      .ok .found) :
    ∃ d resolved written, F.declaration? q.scope.holder q.scope.property = some d ∧
      d.holder = q.scope.holder ∧ resolved ≠ q.new ∧
      s₁.forest.resolve q.scope.holder d.value = .ok resolved ∧
      (request plan q).written? q.scope.property d.value resolved = .ok written ∧
      t.forest.declaration? q.scope.holder q.scope.property =
        some ⟨d.holder, d.place, written.getD d.value⟩ := by
  have hF₁ := hs.same.sameNames.trans h.sameNames
  rcases Forest.update_cases h.settled (request plan q) with
    ⟨-, hne⟩ | ⟨d, resolved, written, hw, hupdate⟩
  · exact absurd hfound hne
  have hdeclared := hw.declared
  have hd : F.declaration? q.scope.holder q.scope.property = some d := by
    cases hd₀ : F.declaration? q.scope.holder q.scope.property with
    | none =>
      rw [hF₁.declaration?_eq_none.2 hd₀] at hdeclared
      cases hdeclared
    | some d₀ =>
      have hsd : s.forest.declaration? q.scope.holder q.scope.property = some d₀ := by
        rw [hs.same.declaration?, hd₀]
      rw [← hdeclared, h.declaration?_before hsd (hq.settled.own d₀ hd₀)]
  have hresolved := hw.resolve_value (hF₁.noFieldNames hnames) h.settled
  refine ⟨d, resolved, written, hd, hw.own, hw.differs, hresolved, hw.writes, ?_⟩
  have hleft : (carryOut plan s₁ q).1.forest.declaration? q.scope.holder q.scope.property =
      some ⟨d.holder, d.place, written.getD d.value⟩ := by
    rw [carryOut_forest, hupdate]
    exact Forest.declaration?_rewrite hdeclared written
  exact h.declaration?_after hleft hw.own

/-- Every change of a property that a pass reports comes from a pending revision, and it is in
effect at the end exactly when what the revision wrote or left alone lasts. For a property with
a literal value this means that the strict check did not stand against the change. -/
theorem inEffect_iff_lasts (plan : Plan) (F : Forest) (s : State) (hnames : F.NoFieldNames)
    (hlit : plan.targets.Literal) (hrun : run plan F = (s, none)) (e : VersionChange)
    (he : e ∈ s.log.propertyUpdates) :
    ∃ q d resolved, Found plan F q d resolved ∧ e = q.change F ∧
      (e.InEffect s.forest ↔ Lasts plan s.forest q d.value resolved) ∧
      (Placeholder.occursIn d.value = false →
        (e.InEffect s.forest ↔ (request plan q).refuses resolved = false)) := by
  obtain ⟨p, u, hp, hu, rfl⟩ := run_eq_none hrun
  have hready := ready_prepare plan F hnames
  have hnone := propertyUpdates_prepare plan F
  simp only [hp] at hready hnone
  rw [propertyUpdates_inject] at he
  rcases Walk.untilFault_source (P := fun s : State => e ∈ s.log.propertyUpdates)
    (fun _ _ => mem_propertyUpdates_carryOut) hu he with
    hstart | ⟨before, q, after, s₁, s₂, hlist, hbefore, hstep, hafter, hchange, hfound⟩
  · rw [hnone] at hstart
    cases hstart
  have hq : q ∈ p.ledger.pending := by
    rw [hlist]
    exact List.mem_append_right _ (List.mem_cons_self ..)
  have hsound := hready.sound q hq
  have hord := hready.orderly
  have hrev := hord.revised plan
  rw [← carryOutAll, hu] at hrev
  rw [hlist] at hord
  have hvisit := hord.visited_of_split hbefore hstep hafter
  obtain ⟨d, resolved, written, hd, hown, hne, hresolved, hwrites, hdu⟩ :=
    hvisit.found hready hsound hnames hfound
  have hF₁ := hready.same.sameNames.trans hvisit.sameNames
  rw [change_eq hF₁] at hchange
  refine ⟨q, d, resolved, ⟨p, before, after, s₁, hp, hlist, hbefore, hd, hresolved⟩, hchange, ?_⟩
  -- what was written is what the final forest declares
  have hH := extends_inject plan u
  have hFH := (hready.same.sameNames.trans hrev.names).trans hH.same.sameNames
  rw [← hH.same.declaration?] at hdu
  have hlt : q.scope.holder < (inject plan u).forest.size := by
    have hlt := Forest.lt_size_of_property? (Forest.property?_of_declaration? hdu)
    rwa [hown] at hlt
  have hnew : Placeholder.occursIn q.new = false := by
    obtain ⟨ident, target, ht, hv⟩ := hsound.wanted
    rw [hv]
    exact hlit ident target ht
  have heffect : e.InEffect (inject plan u).forest ↔
      Lasts plan (inject plan u).forest q d.value resolved := by
    rw [hchange, inEffect_change_iff hFH hlt,
      Forest.resolve_spell_iff (hFH.noFieldNames hnames) hsound.settled.name hdu]
    exact resolve_written_iff hnew hresolved hwrites
  exact ⟨heffect, fun hliteral => heffect.trans (lasts_iff_of_literal hliteral hresolved hne)⟩

theorem dep_version_inEffect_iff_lasts :
    ∃ q d resolved, Found (sharedPlan {} "2.0") sharedForest q d resolved ∧
      ⟨⟨"org.foo", "root"⟩, "dep.version", "1.0", "2.0"⟩ = q.change sharedForest ∧
      (VersionChange.InEffect (run (sharedPlan {} "2.0") sharedForest).1.forest
          ⟨⟨"org.foo", "root"⟩, "dep.version", "1.0", "2.0"⟩ ↔
        Lasts (sharedPlan {} "2.0") (run (sharedPlan {} "2.0") sharedForest).1.forest q d.value
          resolved) ∧
      (Placeholder.occursIn d.value = false →
        (VersionChange.InEffect (run (sharedPlan {} "2.0") sharedForest).1.forest
            ⟨⟨"org.foo", "root"⟩, "dep.version", "1.0", "2.0"⟩ ↔
          (request (sharedPlan {} "2.0") q).refuses resolved = false)) :=
  inEffect_iff_lasts (sharedPlan {} "2.0") sharedForest _ (by decide) (by decide)
    (Prod.ext rfl (by decide +kernel)) _ (by decide +kernel)

/-- A violation of the strict rule that is tolerated is reported as a change. -/
theorem not_forall_inEffect :
    ¬ ∀ (plan : Plan) (F : Forest) (s : State), F.NoFieldNames → plan.targets.Literal →
      run plan F = (s, none) → ∀ e ∈ s.log.propertyUpdates, e.InEffect s.forest := by
  intro h
  have heffect := h (sharedPlan tolerant "2.0.redhat-1") sharedForest _ (by decide) (by decide)
    (Prod.ext rfl (by decide +kernel)) ⟨⟨"org.foo", "root"⟩, "dep.version", "1.0", "2.0.redhat-1"⟩
    (by decide +kernel)
  revert heffect
  decide +kernel

end Alignment
end Realign
