import Realign.Proofs.Alignment.Proposal

/-!
Ledgers that are alike: the same scopes are purged, the same scopes have revisions, and these
ask for the same on behalf of the same. Only what a revision started from may differ, and that at
certain scopes only. A proposal that is answered in one ledger is answered in the same way in
a ledger like it, and what it leaves is alike again.
-/
namespace Realign

/-- What a revision asks for, on behalf of whom, and whether an override did. -/
def Revision.asks (r : Revision) : Option String × List Ident × Bool :=
  (r.new, r.contributors, r.forced)

theorem Revision.asks_eq {r r' : Revision} (h : r'.asks = r.asks) :
    r'.new = r.new ∧ r'.contributors = r.contributors ∧ r'.forced = r.forced := by
  obtain ⟨hnew, hrest⟩ := Prod.mk.inj h
  exact ⟨hnew, Prod.mk.inj hrest⟩

theorem Revision.eq_of_asks {r r' : Revision} (h : r'.asks = r.asks) (hold : r'.old = r.old) :
    r' = r := by
  obtain ⟨hnew, hcontributors, hforced⟩ := asks_eq h
  cases r
  cases r'
  simp_all

theorem Revision.asks_record {r r' : Revision} (h : r'.asks = r.asks) (old old' new : String)
    (contributor : Ident) (forced : Bool) :
    (r'.record old' new contributor forced).asks = (r.record old new contributor forced).asks := by
  obtain ⟨-, hcontributors, hforced⟩ := asks_eq h
  simp [asks, record, hcontributors, hforced]

namespace Ledger

/-- Ledgers that differ in nothing but what revisions at some of the scopes `P` started from. -/
structure Alike (P : Scope → Prop) (L L' : Ledger) : Prop where
  purged : L'.purged = L.purged
  asks : ∀ s, (L'.get? s).map Revision.asks = (L.get? s).map Revision.asks
  same : ∀ s, ¬ P s → L'.get? s = L.get? s

namespace Alike

variable {P : Scope → Prop} {L L' L₁ : Ledger} {F G : Forest} {p : Policy} {s : Scope}
  {w : Wish} {taken : Bool}

theorem refl (P : Scope → Prop) (L : Ledger) : Alike P L L := ⟨rfl, fun _ => rfl, fun _ _ => rfl⟩

theorem isPurged (h : Alike P L L') (s : Scope) : L'.isPurged s = L.isPurged s := by
  rw [Ledger.isPurged, h.purged, Ledger.isPurged]

theorem get? (h : Alike P L L') {r' : Revision} (hr : L'.get? s = some r') :
    ∃ r, L.get? s = some r ∧ r'.asks = r.asks := by
  have hasks := h.asks s
  rw [hr] at hasks
  obtain ⟨r, hr, he⟩ := Option.map_eq_some_iff.1 hasks.symm
  exact ⟨r, hr, he.symm⟩

theorem revisionAt (h : Alike P L L') (s : Scope) :
    (L'.revisionAt s).asks = (L.revisionAt s).asks ∧
      (¬ P s → L'.revisionAt s = L.revisionAt s) := by
  unfold Ledger.revisionAt
  constructor
  · have hasks := h.asks s
    cases hr : L.get? s with
    | none =>
      rw [hr, Option.map_none, Option.map_eq_none_iff] at hasks
      rw [hasks]
    | some r =>
      rw [hr] at hasks
      obtain ⟨r', hr', he⟩ := Option.map_eq_some_iff.1 hasks
      rw [hr']
      exact he
  · intro hs
    rw [h.same s hs]

theorem put (h : Alike P L L') {r r' : Revision} (hasks : r'.asks = r.asks)
    (hsame : ¬ P s → r' = r) : Alike P (L.put s r) (L'.put s r') := by
  refine ⟨h.purged, fun q => ?_, fun q hq => ?_⟩
  · rw [get?_put, get?_put]
    split
    · exact congrArg some hasks
    · exact h.asks q
  · rw [get?_put, get?_put]
    split
    · rename_i hs
      rw [hsame (hs ▸ hq)]
    · exact h.same q hq

theorem purge (h : Alike P L L') (s : Scope) : Alike P (L.purge s) (L'.purge s) := by
  refine ⟨?_, fun q => ?_, fun q hq => ?_⟩
  · simp only [Ledger.purge, h.purged]
  · rw [get?_purge, get?_purge]
    split
    · rfl
    · exact h.asks q
  · rw [get?_purge, get?_purge, h.same q hq]

theorem record (h : Alike P L L') {old old' : String} (hold : ¬ P s → old' = old)
    (version : String) (source : Ident) (forced : Bool) :
    Alike P (L.put s ((L.revisionAt s).record old version source forced))
      (L'.put s ((L'.revisionAt s).record old' version source forced)) := by
  obtain ⟨hasks, hsame⟩ := h.revisionAt s
  apply h.put (Revision.asks_record hasks ..)
  intro hs
  rw [hsame hs, hold hs]

/-- A wish that is entered in one ledger is entered in a ledger like it. -/
theorem enter (h : Alike P L L') {old old' : String} (hold : ¬ P s → old' = old)
    (hok : L.enter F p s old w = (L₁, .ok taken)) :
    ∃ L₁', L'.enter G p s old' w = (L₁', .ok taken) ∧ Alike P L₁ L₁' := by
  obtain ⟨hnew, -, hforced⟩ := Revision.asks_eq (h.revisionAt s).1
  unfold Ledger.enter at hok ⊢
  dsimp only at hok ⊢
  rw [hnew, hforced]
  cases hex : (L.revisionAt s).new with
  | none =>
    rw [hex] at hok
    cases hok
    exact ⟨_, rfl, h.record hold ..⟩
  | some existing =>
    rw [hex] at hok
    dsimp only at hok ⊢
    split_ifs at hok ⊢
    · cases hok
      exact ⟨_, rfl, h.record hold ..⟩
    · cases hok
      exact ⟨_, rfl, h.record hold ..⟩
    · cases hok
    · cases hok
      exact ⟨_, rfl, h.purge s⟩

/-- A proposal that is answered in one ledger is answered in a ledger like it, seen from a forest
where the scopes are the same and the value resolves to the same text, or to any text if it
leads to one of the scopes `P`. -/
theorem propose (h : Alike P L L') {i : Nat} {value : String}
    (hscope : ∀ name, G.declaringScope i name = F.declaringScope i name)
    (hresolve : ∀ name old, Placeholder.bare? value = some name → name ≠ moduleVersionName →
      F.resolve i value = .ok old →
      ∃ old', G.resolve i value = .ok old' ∧ (¬ P (F.declaringScope i name) → old' = old))
    (hok : L.propose F p i value w = (L₁, .ok taken)) :
    ∃ L₁', L'.propose G p i value w = (L₁', .ok taken) ∧ Alike P L₁ L₁' := by
  unfold Ledger.propose at hok ⊢
  cases hb : Placeholder.bare? value with
  | none =>
    rw [hb] at hok
    cases hok
    exact ⟨L', rfl, h⟩
  | some name =>
    rw [hb] at hok
    dsimp only at hok ⊢
    by_cases hmv : name = moduleVersionName
    · rw [if_pos hmv] at hok ⊢
      cases hok
      exact ⟨L', rfl, h⟩
    · rw [if_neg hmv] at hok ⊢
      cases hres : F.resolve i value with
      | error e =>
        rw [hres] at hok
        cases hok
      | ok old =>
        obtain ⟨old', hres', hold⟩ := hresolve name old hb hmv hres
        rw [hres] at hok
        rw [hres']
        dsimp only at hok ⊢
        rw [hscope, h.isPurged]
        split
        · rename_i hpurged
          rw [if_pos hpurged] at hok
          cases hok
          exact ⟨L', rfl, h⟩
        · rename_i hclean
          rw [if_neg hclean] at hok
          exact h.enter hold hok

end Alike

end Ledger
end Realign
