import Mathlib.Data.List.Nodup
import Realign.Alignment.Walk

/-!
Walks that may stop at a fault, split at one of their elements. What comes before the
element leads to the state in which its step is taken, and what comes after it starts
from the state that the step leaves. A walk that came through has taken every step; one
that stopped may have taken the step of the element or not.
-/
namespace Realign.Walk

variable {σ α ε : Type} {step : σ → α → σ × Option ε} {as : List α} {a : α} {s t : σ}

theorem andThen_eq_none {next : σ → σ × Option ε} {x : σ × Option ε} :
    andThen next x = (t, none) ↔ ∃ s, x = (s, none) ∧ next s = (t, none) := by
  obtain ⟨s, _ | fault⟩ := x
  · simp [andThen]
  · simp [andThen]

/-- Two walks stop at a fault of the first, or of the second after the first came through. -/
theorem andThen_eq_some {next : σ → σ × Option ε} {x : σ × Option ε} {fault : ε} :
    andThen next x = (t, some fault) ↔
      x = (t, some fault) ∨ ∃ s, x = (s, none) ∧ next s = (t, some fault) := by
  obtain ⟨s, _ | fault'⟩ := x
  · simp [andThen]
  · simp [andThen]

/-- A second walk starts where the first one ends or is not taken. -/
theorem andThen_fst (next : σ → σ × Option ε) (x : σ × Option ε) :
    (andThen next x).1 = x.1 ∨ (andThen next x).1 = (next x.1).1 := by
  obtain ⟨s, _ | fault⟩ := x
  · exact Or.inr rfl
  · exact Or.inl rfl

theorem andThen_invariant {P : σ → Prop} {next : σ → σ × Option ε} {x : σ × Option ε}
    (hx : P x.1) (keeps : ∀ s, P s → P (next s).1) : P (andThen next x).1 := by
  rcases andThen_fst next x with h | h
  · rw [h]
    exact hx
  · rw [h]
    exact keeps x.1 hx

theorem untilFault_singleton (step : σ → α → σ × Option ε) (a : α) (s : σ) :
    untilFault step [a] s = step s a := by
  rw [untilFault]
  rcases step s a with ⟨t, _ | fault⟩ <;> rfl

theorem untilFault_cons_eq_none :
    untilFault step (a :: as) s = (t, none) ↔
      ∃ s', step s a = (s', none) ∧ untilFault step as s' = (t, none) := by
  rw [untilFault]
  rcases step s a with ⟨s', _ | fault⟩
  · simp
  · simp

/-- A walk whose steps come through as long as something holds that they keep. -/
theorem exists_untilFault {Q : σ → Prop}
    (h : ∀ s, ∀ a ∈ as, Q s → ∃ t, step s a = (t, none) ∧ Q t) (s : σ) (hs : Q s) :
    ∃ t, untilFault step as s = (t, none) ∧ Q t := by
  induction as generalizing s with
  | nil => exact ⟨s, rfl, hs⟩
  | cons a as ih =>
    obtain ⟨s', hstep, hs'⟩ := h s a (List.mem_cons_self ..) hs
    obtain ⟨t, hrest, ht⟩ := ih (fun s b hb => h s b (List.mem_cons_of_mem a hb)) s' hs'
    exact ⟨t, untilFault_cons_eq_none.2 ⟨s', hstep, hrest⟩, ht⟩

/-- A walk that goes along with another one and has steps of its own in between, which change
nothing that ties the two together. -/
theorem exists_untilFault_of_sublist {τ : Type} {step' : τ → α → τ × Option ε} {R : σ → τ → Prop}
    {bs : List α} (hsub : List.Sublist as bs) (hnd : bs.Nodup)
    (hboth : ∀ s s' u, ∀ a ∈ as, R s u → step s a = (s', none) →
      ∃ u', step' u a = (u', none) ∧ R s' u')
    (hextra : ∀ s u, ∀ b ∈ bs, b ∉ as → R s u → ∃ u', step' u b = (u', none) ∧ R s u')
    {u : τ} (hR : R s u) (h : untilFault step as s = (t, none)) :
    ∃ u', untilFault step' bs u = (u', none) ∧ R t u' := by
  induction hsub generalizing s u with
  | slnil =>
    cases h
    exact ⟨u, rfl, hR⟩
  | @cons as bs b hsub ih =>
    rw [List.nodup_cons] at hnd
    have hb : b ∉ as := fun hmem => hnd.1 (hsub.subset hmem)
    obtain ⟨u₁, hstep, hR₁⟩ := hextra s u b (List.mem_cons_self ..) hb hR
    obtain ⟨u', hrest, hR'⟩ := ih hnd.2 hboth
      (fun s u c hc hnot => hextra s u c (List.mem_cons_of_mem b hc) hnot) hR₁ h
    exact ⟨u', untilFault_cons_eq_none.2 ⟨u₁, hstep, hrest⟩, hR'⟩
  | @cons_cons as bs a hsub ih =>
    rw [List.nodup_cons] at hnd
    have hextra' (s : σ) (u : τ) (b : α) (hb : b ∈ bs) (hnot : b ∉ as) (hR : R s u) :
        ∃ u', step' u b = (u', none) ∧ R s u' := by
      apply hextra s u b (List.mem_cons_of_mem a hb) _ hR
      intro hmem
      rcases List.mem_cons.1 hmem with rfl | hmem
      · exact hnd.1 hb
      · exact hnot hmem
    obtain ⟨s₁, hstep, hrest⟩ := untilFault_cons_eq_none.1 h
    obtain ⟨u₁, hstep', hR₁⟩ := hboth s s₁ u a (List.mem_cons_self ..) hR hstep
    obtain ⟨u', hrest', hR'⟩ := ih hnd.2
      (fun s s' u c hc => hboth s s' u c (List.mem_cons_of_mem a hc)) hextra' hR₁ hrest
    exact ⟨u', untilFault_cons_eq_none.2 ⟨u₁, hstep', hrest'⟩, hR'⟩

/-- The state after a walk with a list split in two, whether the walk comes through or not. -/
theorem untilFault_append_fst (left right : List α) (s : σ) :
    (untilFault step (left ++ right) s).1 = (untilFault step left s).1 ∨
      (untilFault step (left ++ right) s).1 =
        (untilFault step right (untilFault step left s).1).1 := by
  rw [untilFault_append]
  exact andThen_fst _ _

/-- A walk that came through has taken the step of every element. -/
theorem untilFault_split (h : untilFault step as s = (t, none)) (ha : a ∈ as) :
    ∃ before after s₁ s₂, as = before ++ a :: after ∧ untilFault step before s = (s₁, none) ∧
      step s₁ a = (s₂, none) ∧ untilFault step after s₂ = (t, none) := by
  obtain ⟨before, after, rfl⟩ := List.append_of_mem ha
  rw [untilFault_append, andThen_eq_none] at h
  obtain ⟨s₁, hb, h⟩ := h
  obtain ⟨s₂, hs, h⟩ := untilFault_cons_eq_none.1 h
  exact ⟨before, after, s₁, s₂, rfl, hb, hs, h⟩

/-- A walk that stopped came through as far as the element whose step is at fault. -/
theorem untilFault_fault_split {fault : ε} (h : untilFault step as s = (t, some fault)) :
    ∃ before a after s₁, as = before ++ a :: after ∧ untilFault step before s = (s₁, none) ∧
      step s₁ a = (t, some fault) := by
  induction as generalizing s with
  | nil => cases h
  | cons a as ih =>
    rw [untilFault] at h
    rcases hstep : step s a with ⟨s', _ | fault'⟩
    · rw [hstep] at h
      obtain ⟨before, b, after, s₁, rfl, hbefore, hfault⟩ := ih h
      refine ⟨a :: before, b, after, s₁, rfl, ?_, hfault⟩
      exact untilFault_cons_eq_none.2 ⟨s', hstep, hbefore⟩
    · rw [hstep] at h
      exact ⟨[], a, as, s, rfl, rfl, hstep.trans h⟩

/-- No other element can be the one whose step is at fault, as the walk came through before it. -/
theorem untilFault_fault_unique {before before' after after' : List α} {a' : α} {s₁ s₁' t' : σ}
    {fault fault' : ε} (has : before ++ a :: after = before' ++ a' :: after')
    (hbefore : untilFault step before s = (s₁, none)) (hfault : step s₁ a = (t, some fault))
    (hbefore' : untilFault step before' s = (s₁', none))
    (hfault' : step s₁' a' = (t', some fault')) :
    before = before' ∧ a = a' ∧ after = after' := by
  induction before generalizing before' s with
  | nil =>
    cases hbefore
    cases before' with
    | nil => exact ⟨rfl, List.cons.inj has⟩
    | cons b before' =>
      obtain ⟨rfl, -⟩ := List.cons.inj has
      obtain ⟨_, hstep, -⟩ := untilFault_cons_eq_none.1 hbefore'
      rw [hfault] at hstep
      cases hstep
  | cons b before ih =>
    obtain ⟨s₂, hstep, hrest⟩ := untilFault_cons_eq_none.1 hbefore
    cases before' with
    | nil =>
      cases hbefore'
      obtain ⟨rfl, -⟩ := List.cons.inj has
      rw [hfault'] at hstep
      cases hstep
    | cons b' before' =>
      obtain ⟨rfl, hlater⟩ := List.cons.inj has
      obtain ⟨s₂', hstep', hrest'⟩ := untilFault_cons_eq_none.1 hbefore'
      obtain rfl : s₂ = s₂' := congrArg Prod.fst (hstep.symm.trans hstep')
      obtain ⟨rfl, hsame⟩ := ih hlater hrest hrest'
      exact ⟨rfl, hsame⟩

/-- What the step of an element brings about, and no other step undoes, holds after a walk that came
through. -/
theorem untilFault_establishes {P : σ → Prop} (hnd : as.Nodup)
    (brings : ∀ s s', step s a = (s', none) → P s')
    (keeps : ∀ s, ∀ b ∈ as, b ≠ a → P s → P (step s b).1)
    (h : untilFault step as s = (t, none)) (ha : a ∈ as) : P t := by
  obtain ⟨before, after, s₁, s₂, rfl, -, hstep, hafter⟩ := untilFault_split h ha
  rw [List.nodup_middle, List.nodup_cons, List.mem_append, not_or] at hnd
  have hkept : P (untilFault step after s₂).1 := by
    apply untilFault_invariant _ s₂ (brings s₁ s₂ hstep)
    intro s b hb
    exact keeps s b (List.mem_append_right _ (List.mem_cons_of_mem a hb))
      fun e => hnd.1.2 (e ▸ hb)
  rwa [hafter] at hkept

/-- Any walk ends before the step of an element, or goes on after it with some of the rest. -/
theorem untilFault_fst_split (step : σ → α → σ × Option ε) (s : σ) (ha : a ∈ as) :
    ∃ before after, as = before ++ a :: after ∧
      ((untilFault step as s).1 = (untilFault step before s).1 ∨
        ∃ later, List.Sublist later after ∧ (untilFault step as s).1 =
          (untilFault step later (step (untilFault step before s).1 a).1).1) := by
  obtain ⟨before, after, rfl⟩ := List.append_of_mem ha
  refine ⟨before, after, rfl, ?_⟩
  rcases untilFault_append_fst before (a :: after) s with h | h
  · exact Or.inl h
  · rw [h, untilFault]
    rcases step (untilFault step before s).1 a with ⟨s', _ | fault⟩
    · exact Or.inr ⟨after, List.Sublist.refl after, rfl⟩
    · exact Or.inr ⟨[], List.nil_sublist after, rfl⟩

/-- What holds after a walk that came through held before it or was brought about by one step. -/
theorem untilFault_source {P : σ → Prop} {Q : σ → α → Prop}
    (brings : ∀ s a, P (step s a).1 → P s ∨ Q s a) (h : untilFault step as s = (t, none))
    (ht : P t) :
    P s ∨ ∃ before a after s₁ s₂, as = before ++ a :: after ∧
      untilFault step before s = (s₁, none) ∧ step s₁ a = (s₂, none) ∧
      untilFault step after s₂ = (t, none) ∧ Q s₁ a := by
  induction as generalizing s with
  | nil =>
    cases h
    exact Or.inl ht
  | cons a as ih =>
    obtain ⟨s', hstep, hrest⟩ := untilFault_cons_eq_none.1 h
    rcases ih hrest with hs' | ⟨before, b, after, s₁, s₂, rfl, hb, hs, ha, hq⟩
    · have hbrings := brings s a
      rw [hstep] at hbrings
      rcases hbrings hs' with hs | hq
      · exact Or.inl hs
      · exact Or.inr ⟨[], a, as, s, s', rfl, rfl, hstep, hrest, hq⟩
    · refine Or.inr ⟨a :: before, b, after, s₁, s₂, rfl, ?_, hs, ha, hq⟩
      exact untilFault_cons_eq_none.2 ⟨s', hstep, hb⟩

theorem untilFault_keeps {β : Type} {f : σ → β} (keeps : ∀ s, ∀ a ∈ as, f (step s a).1 = f s)
    (s : σ) : f (untilFault step as s).1 = f s := by
  apply untilFault_invariant (P := fun s' => f s' = f s)
  · intro s' a ha hs'
    rw [keeps s' a ha, hs']
  · rfl

/-- What only one element of a list without repetition can end holds to the end, or else holds what
the step of that element brings about in its place. -/
theorem untilFault_ended {P Q : σ → Prop} (hnd : as.Nodup) (a : α)
    (own : ∀ s, P s → P (step s a).1 ∨ Q (step s a).1)
    (keeps : ∀ s, ∀ b ∈ as, b ≠ a → P s → P (step s b).1)
    (keeps' : ∀ s, ∀ b ∈ as, b ≠ a → Q s → Q (step s b).1) (h : P s) :
    P (untilFault step as s).1 ∨ Q (untilFault step as s).1 := by
  by_cases ha : a ∉ as
  · left
    apply untilFault_invariant _ s h
    intro s' b hb
    exact keeps s' b hb (fun e => ha (e ▸ hb))
  rw [Classical.not_not] at ha
  obtain ⟨before, after, rfl, hsplit⟩ := untilFault_fst_split step s ha
  have hne := List.nodup_middle.1 hnd
  rw [List.nodup_cons, List.mem_append, not_or] at hne
  have hbefore : P (untilFault step before s).1 := by
    apply untilFault_invariant _ s h
    intro s' b hb
    exact keeps s' b (List.mem_append_left _ hb) (fun e => hne.1.1 (e ▸ hb))
  rcases hsplit with heq | ⟨later, hl, heq⟩
  · left
    rwa [heq]
  · have hafter {b : α} (hb : b ∈ later) : b ∈ before ++ a :: after ∧ b ≠ a := by
      have hmem := hl.subset hb
      exact ⟨List.mem_append_right _ (List.mem_cons_of_mem a hmem), fun e => hne.1.2 (e ▸ hmem)⟩
    rw [heq]
    refine (own _ hbefore).imp (untilFault_invariant ?_ _) (untilFault_invariant ?_ _)
    · intro s' b hb
      exact keeps s' b (hafter hb).1 (hafter hb).2
    · intro s' b hb
      exact keeps' s' b (hafter hb).1 (hafter hb).2

/-- What only one element of a list without repetition can change is changed once at most, and
that by its step in a state where it was as at the beginning. -/
theorem untilFault_once {β : Type} {f : σ → β} (hnd : as.Nodup) (a : α) (s : σ)
    (keeps : ∀ s, ∀ b ∈ as, b ≠ a → f (step s b).1 = f s) :
    f (untilFault step as s).1 = f s ∨
      ∃ s₁, f s₁ = f s ∧ f (untilFault step as s).1 = f (step s₁ a).1 := by
  apply untilFault_ended (P := fun t => f t = f s)
    (Q := fun t => ∃ s₁, f s₁ = f s ∧ f t = f (step s₁ a).1) hnd a
  · intro t ht
    exact Or.inr ⟨t, ht, rfl⟩
  · intro t b hb hne ht
    rw [keeps t b hb hne, ht]
  · intro t b hb hne ht
    rwa [keeps t b hb hne]
  · rfl

end Realign.Walk
