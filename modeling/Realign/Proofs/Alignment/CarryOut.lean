import Realign.Proofs.Alignment.Preparation
import Realign.Proofs.Property.Revision

/-!
Carrying out revisions. Their scopes are settled and distinct, so each revision writes
to an entry of its own and finds there the value from before the phase. Whether the phase
comes through or not, an entry has been written once at most.
-/
namespace Realign.Alignment

variable {plan : Plan} {s s₁ s₂ t : State} {q : PendingRevision}
  {rows before after : List PendingRevision}

/-- The update that carries a revision out. -/
def request (plan : Plan) (q : PendingRevision) : UpdateRequest := ⟨plan.policy, q.forced, q.new⟩

theorem carryOut_forest (plan : Plan) (s : State) (q : PendingRevision) :
    (carryOut plan s q).1.forest =
      (s.forest.update q.scope.holder (request plan q) q.scope.property).1 := by
  unfold carryOut request
  dsimp only
  split <;> rename_i heq <;> rw [heq]

/-- The step of a revision comes through if the update does. -/
theorem carryOut_eq_none :
    (carryOut plan s q).2 = none ↔
      ∃ outcome, (s.forest.update q.scope.holder (request plan q) q.scope.property).2 =
        .ok outcome := by
  unfold carryOut request
  dsimp only
  rcases s.forest.update q.scope.holder ⟨plan.policy, q.forced, q.new⟩ q.scope.property with
    ⟨forest, e | outcome⟩
  · simp
  · cases outcome <;> simp

theorem revised_carryOut (plan : Plan) (hs : s.forest.Settled q.scope) :
    Forest.Revised s.forest [q.scope] (carryOut plan s q).1.forest := by
  rw [carryOut_forest]
  exact Forest.revised_update hs _

/-- Revisions at settled scopes that are to be carried out once each. -/
structure Orderly (F : Forest) (rows : List PendingRevision) : Prop where
  distinct : (rows.map PendingRevision.scope).Nodup
  settled : ∀ q ∈ rows, F.Settled q.scope

theorem Ready.orderly {F : Forest} (h : Ready F plan s) : Orderly s.forest s.ledger.pending :=
  ⟨Ledger.nodup_pending _, fun q hq => h.same.symm.settled (h.sound q hq).settled⟩

/-- After a revision the others are as orderly as before. -/
theorem Orderly.rest (plan : Plan) (h : Orderly s.forest (q :: rows)) :
    q.scope ∉ rows.map PendingRevision.scope ∧ Orderly (carryOut plan s q).1.forest rows := by
  have hnd := h.distinct
  rw [List.map_cons, List.nodup_cons] at hnd
  refine ⟨hnd.1, hnd.2, fun x hx => ?_⟩
  apply (revised_carryOut plan (h.settled q (List.mem_cons_self ..))).settled
  · exact h.settled x (List.mem_cons_of_mem q hx)
  · intro hmem
    rw [List.mem_singleton] at hmem
    exact hnd.1 (hmem ▸ List.mem_map_of_mem hx)

theorem Orderly.sublist {F : Forest} (h : Orderly F rows) (hl : List.Sublist before rows) :
    Orderly F before :=
  ⟨(hl.map PendingRevision.scope).nodup h.distinct, fun x hx => h.settled x (hl.subset hx)⟩

/-- What carrying out a revision keeps, if its scope is settled then. -/
theorem Orderly.invariant {P : State → Prop} (plan : Plan) (h : Orderly s.forest rows)
    (keeps : ∀ s, ∀ q ∈ rows, s.forest.Settled q.scope → P s → P (carryOut plan s q).1)
    (hs : P s) : P (Walk.untilFault (carryOut plan) rows s).1 := by
  induction rows generalizing s with
  | nil => exact hs
  | cons q rows ih =>
    have hstep := keeps s q (List.mem_cons_self ..) (h.settled q (List.mem_cons_self ..)) hs
    have hrest := (h.rest plan).2
    rw [Walk.untilFault]
    rcases hc : carryOut plan s q with ⟨s', _ | fault⟩
    · rw [hc] at hstep hrest
      exact ih hrest (fun s q hq => keeps s q (List.mem_cons_of_mem _ hq)) hstep
    · rwa [hc] at hstep

/-- Carrying out revisions changes values at their scopes only. -/
theorem Orderly.revised (plan : Plan) (h : Orderly s.forest rows) :
    Forest.Revised s.forest (rows.map PendingRevision.scope)
      (Walk.untilFault (carryOut plan) rows s).1.forest := by
  apply h.invariant plan
    (P := fun t => Forest.Revised s.forest (rows.map PendingRevision.scope) t.forest)
  · intro t q hq hset ht
    apply (ht.trans (revised_carryOut plan hset)).mono
    simpa using ⟨q, hq, rfl⟩
  · exact Forest.Revised.refl _ _

/-- A revision shares its scope with none that comes earlier. -/
theorem Orderly.not_mem_before {F : Forest} (h : Orderly F (before ++ after)) (hq : q ∈ after) :
    q.scope ∉ before.map PendingRevision.scope := by
  intro hmem
  have hnd := h.distinct
  rw [List.map_append, List.nodup_append] at hnd
  exact hnd.2.2 _ hmem _ (List.mem_map_of_mem hq) rfl

theorem Orderly.append (plan : Plan) (h : Orderly s.forest (before ++ after)) :
    Orderly (Walk.untilFault (carryOut plan) before s).1.forest after := by
  have hleft := h.sublist (List.sublist_append_left before after)
  have hright := h.sublist (List.sublist_append_right before after)
  exact ⟨hright.distinct, fun x hx =>
    (hleft.revised plan).settled (hright.settled x hx) (h.not_mem_before hx)⟩

/-- A revision that was carried out in the first state on the way from a state to another. The
other revisions on this way have other scopes. -/
structure Visited (plan : Plan) (s : State) (q : PendingRevision) (s₁ t : State) : Prop where
  settled : s₁.forest.Settled q.scope
  before : ∃ scopes, q.scope ∉ scopes ∧ Forest.Revised s.forest scopes s₁.forest
  after : ∃ scopes, q.scope ∉ scopes ∧ Forest.Revised (carryOut plan s₁ q).1.forest scopes t.forest

theorem Orderly.visited (plan : Plan) (h : Orderly s.forest (before ++ q :: after))
    (hl : List.Sublist rows after) :
    Visited plan s q (Walk.untilFault (carryOut plan) before s).1
      (Walk.untilFault (carryOut plan) rows
        (carryOut plan (Walk.untilFault (carryOut plan) before s).1 q).1).1 := by
  have hq := h.append plan
  obtain ⟨hnot, hrest⟩ := hq.rest plan
  refine ⟨hq.settled q (List.mem_cons_self ..),
    ⟨before.map PendingRevision.scope, h.not_mem_before (List.mem_cons_self ..), ?_⟩,
    ⟨rows.map PendingRevision.scope, ?_, ?_⟩⟩
  · exact (h.sublist (List.sublist_append_left _ _)).revised plan
  · intro hmem
    exact hnot ((hl.map PendingRevision.scope).subset hmem)
  · exact (hrest.sublist hl).revised plan

/-- In a walk that came through, every revision was carried out on the way. -/
theorem Orderly.visited_of_split (h : Orderly s.forest (before ++ q :: after))
    (hbefore : Walk.untilFault (carryOut plan) before s = (s₁, none))
    (hstep : carryOut plan s₁ q = (s₂, none))
    (hafter : Walk.untilFault (carryOut plan) after s₂ = (t, none)) : Visited plan s q s₁ t := by
  have hvisit := h.visited plan (List.Sublist.refl after)
  rwa [hbefore, hstep, hafter] at hvisit

namespace Visited

variable {i : Nat} {d : Declaration}

theorem sameNames (h : Visited plan s q s₁ t) : Forest.SameNames s.forest s₁.forest := by
  obtain ⟨scopes, -, hrev⟩ := h.before
  exact hrev.names

/-- The revision finds its property declared as it was. -/
theorem declaration?_before (h : Visited plan s q s₁ t)
    (hd : s.forest.declaration? i q.scope.property = some d) (hown : d.holder = q.scope.holder) :
    s₁.forest.declaration? i q.scope.property = some d := by
  obtain ⟨scopes, hnot, hrev⟩ := h.before
  apply hrev.declaration? hd
  rw [hown]
  exact hnot

/-- What the revision leaves declared stays. -/
theorem declaration?_after (h : Visited plan s q s₁ t)
    (hd : (carryOut plan s₁ q).1.forest.declaration? i q.scope.property = some d)
    (hown : d.holder = q.scope.holder) :
    t.forest.declaration? i q.scope.property = some d := by
  obtain ⟨scopes, hnot, hrev⟩ := h.after
  apply hrev.declaration? hd
  rw [hown]
  exact hnot

/-- What stands declared at the scope of the revision in the end is what the revision left. -/
theorem declaration?_left (h : Visited plan s q s₁ t) :
    t.forest.declaration? q.scope.holder q.scope.property =
      (carryOut plan s₁ q).1.forest.declaration? q.scope.holder q.scope.property := by
  obtain ⟨_, -, hafter⟩ := h.after
  have hnames := (revised_carryOut plan h.settled).names
  cases hd : s₁.forest.declaration? q.scope.holder q.scope.property with
  | none =>
    have hleft := hnames.declaration?_eq_none.2 hd
    rw [hleft, hafter.names.declaration?_eq_none.2 hleft]
  | some d =>
    have hsome := hnames.names d.holder d.place q.scope.property
    rw [Forest.property?_of_declaration? hd] at hsome
    obtain ⟨value, hvalue⟩ := Option.isSome_iff_exists.1 hsome
    have hleft := hnames.declaration?_of_property? hd hvalue
    rw [hleft, h.declaration?_after hleft (h.settled.own d hd)]

end Visited

end Realign.Alignment
