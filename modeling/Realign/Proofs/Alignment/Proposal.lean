import Realign.Proofs.Alignment.Ledger
import Realign.Proofs.Property.Reference
import Realign.Target

/-!
What stands in the ledger once wishes have been entered. Every row belongs to a settled scope,
knows the literal value that the scope declares and asks for the version of some target. When
a clash is fatal, no wish that was taken is ever replaced by a different one.
-/
namespace Realign

namespace Targets

theorem mem_rows {t : Targets} {ident : Ident} {target : Target} :
    (ident, target) ∈ t.rows ↔ t.get? ident = some target := by
  have hover : (ident, target) ∈ (t.overrides.mapValues (Target.mk · true)).rows ↔
      (t.overrides.get? ident).map (Target.mk · true) = some target := by
    rw [← Table.get?_eq_some, Table.get?_mapValues]
  have hversions : (ident, target) ∈
        (t.versions.rows.filter fun row => !t.overrides.contains row.1).map
          (fun row => (row.1, Target.mk row.2 false)) ↔
      (!t.overrides.contains ident) = true ∧
        (t.versions.get? ident).map (Target.mk · false) = some target :=
    Table.mem_map_filter_rows (fun key => !t.overrides.contains key) (Target.mk · false)
  rw [Table.contains] at hversions
  rw [get?]
  refine List.mem_append.trans ((or_congr hover hversions).trans ?_)
  cases t.overrides.get? ident with
  | some version => simp
  | none => simp

theorem forced_eq_false {t : Targets} (h : t.overrides = .empty) {ident : Ident} {target : Target}
    (ht : t.get? ident = some target) : target.forced = false := by
  rw [get?, h, Table.get?_empty] at ht
  obtain ⟨version, -, rfl⟩ := Option.map_eq_some_iff.1 ht
  rfl

/-- Without overrides nothing is so that is so for a forced target only. -/
theorem eq_false_of_forced {t : Targets} (h : t.overrides = .empty) {b : Bool}
    (hb : b = true → ∃ ident target, t.get? ident = some target ∧ target.forced = true) :
    b = false := by
  rw [← Bool.not_eq_true]
  intro htrue
  obtain ⟨ident, target, ht, hforced⟩ := hb htrue
  rw [forced_eq_false h ht] at hforced
  cases hforced

/-- No target is given by a text with placeholders. -/
def Literal (t : Targets) : Prop :=
  ∀ ident target, t.get? ident = some target → Placeholder.occursIn target.version = false

instance (t : Targets) : Decidable t.Literal :=
  decidable_of_iff (∀ row ∈ t.rows, Placeholder.occursIn row.2.version = false) (by
    constructor
    · intro h ident target ht
      exact h (ident, target) (mem_rows.2 ht)
    · intro h row hrow
      obtain ⟨ident, target⟩ := row
      exact h ident target (mem_rows.1 hrow))

end Targets

namespace Ledger

/-- A revision that asks for the version of a target, at a scope where a change lands. -/
structure Asked (F : Forest) (t : Targets) (s : Scope) (r : Revision) : Prop where
  settled : F.Settled s
  old : ∀ d, F.declaration? s.holder s.property = some d →
    Placeholder.occursIn d.value = false → r.old = some d.value
  wanted : ∃ ident target, t.get? ident = some target ∧ r.new = some target.version
  forced : r.forced = true → ∃ ident target, t.get? ident = some target ∧ target.forced = true

def AllAsked (F : Forest) (t : Targets) (L : Ledger) : Prop :=
  ∀ s r, L.get? s = some r → Asked F t s r

/-- The version that a scope is asked to take. -/
def wish? (L : Ledger) (s : Scope) : Option String := (L.get? s).bind Revision.new

section Enter

variable {F G : Forest} {t : Targets} {L : Ledger} {p : Policy} {s q : Scope} {old : String}
  {w : Wish} {r : Revision}

/-- A wish is taken with its version, or joins an override, or clashes with another wish. -/
theorem enter_cases (L : Ledger) (F : Forest) (p : Policy) (s : Scope) (old : String) (w : Wish) :
    (((L.revisionAt s).new = none ∨ (L.revisionAt s).new = some w.version ∨ w.forced = true) ∧
        L.enter F p s old w =
          (L.put s ((L.revisionAt s).record old w.version w.source w.forced), .ok true)) ∨
      ∃ existing, (L.revisionAt s).new = some existing ∧ existing ≠ w.version ∧
        w.forced = false ∧
        (((L.revisionAt s).forced = true ∧ L.enter F p s old w =
            (L.put s ((L.revisionAt s).record old existing w.source false), .ok true)) ∨
          (L.revisionAt s).forced = false ∧ L.enter F p s old w =
            if p.propertyClashFails then
              (L, .error (.propertyClash (F.identOf s.holder) s.property existing
                (L.revisionAt s).contributors w.version w.source))
            else (L.purge s, .ok false)) := by
  unfold enter
  dsimp only
  cases hnew : (L.revisionAt s).new with
  | none => exact Or.inl ⟨Or.inl rfl, rfl⟩
  | some existing =>
    dsimp only
    split
    · rename_i h
      refine Or.inl ⟨?_, rfl⟩
      rcases h with rfl | h
      · exact Or.inr (Or.inl rfl)
      · exact Or.inr (Or.inr h)
    · rename_i h
      rw [not_or, Bool.not_eq_true] at h
      refine Or.inr ⟨existing, rfl, h.1, h.2, ?_⟩
      split
      · rename_i hforced
        exact Or.inl ⟨hforced, rfl⟩
      · rename_i hforced
        exact Or.inr ⟨by simpa using hforced, rfl⟩

/-- A row that stands after a wish stood before it or is the record of the wish. -/
theorem get?_enter (h : (L.enter F p s old w).1.get? q = some r) :
    L.get? q = some r ∨ q = s ∧ ∃ version forced,
      r = (L.revisionAt s).record old version w.source forced ∧
        (version = w.version ∨ (L.revisionAt s).new = some version) ∧
        (forced = true → w.forced = true) := by
  have hput (version : String) (forced : Bool)
      (hp : (L.put s ((L.revisionAt s).record old version w.source forced)).get? q = some r) :
      L.get? q = some r ∨ q = s ∧ r = (L.revisionAt s).record old version w.source forced := by
    rw [get?_put] at hp
    split at hp
    · rename_i hs
      exact Or.inr ⟨hs.symm, (Option.some.inj hp).symm⟩
    · exact Or.inl hp
  rcases enter_cases L F p s old w with ⟨-, he⟩ | ⟨existing, hex, -, -, ⟨-, he⟩ | ⟨-, he⟩⟩
  · rw [he] at h
    rcases hput _ _ h with hq | ⟨hq, hr⟩
    · exact Or.inl hq
    · exact Or.inr ⟨hq, _, _, hr, Or.inl rfl, fun hf => hf⟩
  · rw [he] at h
    rcases hput _ _ h with hq | ⟨hq, hr⟩
    · exact Or.inl hq
    · exact Or.inr ⟨hq, _, _, hr, Or.inr hex, fun hf => by cases hf⟩
  · rw [he] at h
    split at h
    · exact Or.inl h
    · rw [get?_purge] at h
      split at h
      · cases h
      · exact Or.inl h

/-- The record of a wish on behalf of a target asks as it should. -/
theorem Asked.record {version : String} {source : Ident} {forced : Bool}
    (hr : r = {} ∨ Asked F t s r) (hs : F.Settled s)
    (hold : ∀ d, F.declaration? s.holder s.property = some d →
      Placeholder.occursIn d.value = false → old = d.value)
    (hnew : ∃ ident target, t.get? ident = some target ∧ version = target.version)
    (hforced : forced = true → ∃ ident target, t.get? ident = some target ∧ target.forced = true) :
    Asked F t s (r.record old version source forced) := by
  obtain ⟨ident, target, ht, hv⟩ := hnew
  refine ⟨hs, fun d hd hlit => ?_, ⟨ident, target, ht, by rw [Revision.record, hv]⟩, fun hf => ?_⟩
  · rw [Revision.record]
    rcases hr with rfl | hr
    · rw [hold d hd hlit]
      rfl
    · rw [hr.old d hd hlit]
      rfl
  · rw [Revision.record, Bool.or_eq_true] at hf
    rcases hf with hf | hf
    · rcases hr with rfl | hr
      · cases hf
      · exact hr.forced hf
    · exact hforced hf

/-- A proposal enters a wish at the scope of its property or leaves the ledger alone. -/
theorem propose_cases (L : Ledger) (F : Forest) (p : Policy) (i : Nat) (value : String) (w : Wish) :
    (L.propose F p i value w).1 = L ∨
      ∃ name old, Placeholder.bare? value = some name ∧ F.resolve i value = .ok old ∧
        L.propose F p i value w = L.enter F p (F.declaringScope i name) old w := by
  unfold propose
  cases Placeholder.bare? value with
  | none => exact Or.inl rfl
  | some name =>
    dsimp only
    split
    · exact Or.inl rfl
    · cases F.resolve i value with
      | error e => exact Or.inl rfl
      | ok old =>
        dsimp only
        split
        · exact Or.inl rfl
        · exact Or.inr ⟨name, old, rfl, rfl, rfl⟩

/-- Whatever wish for a target is proposed, every row of the ledger asks as it should. -/
theorem AllAsked.propose (hL : AllAsked F t L) (hF : F.NoFieldNames)
    (hFG : Forest.SameProperties F G) {i : Nat} {value : String} {ident : Ident} {target : Target}
    (ht : t.get? ident = some target) :
    AllAsked F t (L.propose G p i value ⟨ident, target.version, target.forced⟩).1 := by
  have hG := hFG.sameNames.noFieldNames hF
  rcases propose_cases L G p i value ⟨ident, target.version, target.forced⟩ with
    hsame | ⟨name, old, hb, hres, henter⟩
  · rw [hsame]
    exact hL
  · rw [henter]
    obtain ⟨rfl, hname⟩ := Placeholder.bare?_eq_some.1 hb
    intro q r hr
    rcases get?_enter hr with hq | ⟨rfl, version, forced, rfl, hversion, hforced⟩
    · exact hL q r hq
    · have hbefore : L.revisionAt (G.declaringScope i name) = {} ∨
          Asked F t (G.declaringScope i name) (L.revisionAt (G.declaringScope i name)) := by
        rw [revisionAt]
        cases hrow : L.get? (G.declaringScope i name) with
        | none => exact Or.inl rfl
        | some r => exact Or.inr (hL _ r hrow)
      apply Asked.record hbefore
      · exact hFG.settled (Forest.settled_declaringScope hG hname hres)
      · intro d hd hlit
        rw [← hFG.declaration?] at hd
        have hd' := Forest.resolve_of_declaringScope hG hname hres hd
        exact (Forest.resolve_literal_iff hlit).1 hd'
      · rcases hversion with hv | hv
        · exact ⟨ident, target, ht, hv⟩
        · rcases hbefore with he | hask
          · rw [he] at hv
            cases hv
          · obtain ⟨ident', target', ht', hn⟩ := hask.wanted
            rw [hv] at hn
            exact ⟨ident', target', ht', Option.some.inj hn⟩
      · intro hf
        exact ⟨ident, target, ht, hforced hf⟩

end Enter

theorem wish?_put (L : Ledger) (s q : Scope) (r : Revision) :
    (L.put s r).wish? q = if s = q then r.new else L.wish? q := by
  rw [wish?, get?_put]
  split <;> rfl

section Taken

variable {F : Forest} {L L' : Ledger} {p : Policy} {w : Wish} {taken : Bool}

/-- When clashes are fatal, a wish that is taken is the only one of its scope, and one that is not
taken changes nothing. -/
theorem enter_of_fatal (hclash : p.propertyClashFails = true) (hw : w.forced = false)
    (hL : ∀ s r, L.get? s = some r → r.forced = false) (s : Scope) (old : String) :
    (∃ e, L.enter F p s old w = (L, .error e)) ∨
      (∀ v, L.wish? s = some v → v = w.version) ∧
        L.enter F p s old w =
          (L.put s ((L.revisionAt s).record old w.version w.source false), .ok true) := by
  have hnew : (L.revisionAt s).new = L.wish? s := by
    rw [revisionAt, wish?]
    cases L.get? s <;> rfl
  have hunforced : (L.revisionAt s).forced = false := by
    rw [revisionAt]
    cases hr : L.get? s with
    | none => rfl
    | some r => exact hL s r hr
  rcases enter_cases L F p s old w with
    ⟨hfree, he⟩ | ⟨existing, -, -, -, ⟨hforced, -⟩ | ⟨-, he⟩⟩
  · rw [hw] at he
    refine Or.inr ⟨fun v hv => ?_, he⟩
    rw [hnew, hv, hw] at hfree
    simpa using hfree
  · rw [hunforced] at hforced
    cases hforced
  · rw [if_pos hclash] at he
    exact Or.inl ⟨_, he⟩

/-- When clashes are fatal no proposal purges a property or replaces a wish. -/
theorem propose_keeps (hclash : p.propertyClashFails = true) (hw : w.forced = false)
    (hL : ∀ s r, L.get? s = some r → r.forced = false) (i : Nat) (value : String) :
    (L.propose F p i value w).1.purged = L.purged ∧
      ∀ s v, L.wish? s = some v → (L.propose F p i value w).1.wish? s = some v := by
  rcases propose_cases L F p i value w with hsame | ⟨name, old, -, -, henter⟩
  · rw [hsame]
    exact ⟨rfl, fun s v hv => hv⟩
  · rw [henter]
    rcases enter_of_fatal (F := F) hclash hw hL (F.declaringScope i name) old with
      ⟨e, he⟩ | ⟨honly, hput⟩
    · rw [he]
      exact ⟨rfl, fun s v hv => hv⟩
    · rw [hput]
      refine ⟨rfl, fun s v hv => ?_⟩
      rw [wish?_put]
      split
      · rename_i hs
        rw [← hs] at hv
        rw [honly v hv]
        rfl
      · exact hv

/-- A wish that is taken when clashes are fatal is the wish of its scope. -/
theorem wish?_propose (hclash : p.propertyClashFails = true) (hw : w.forced = false)
    (hL : ∀ s r, L.get? s = some r → r.forced = false) (hpurged : L.purged = []) {i : Nat}
    {name : String} (hname : Placeholder.isName name.toList = true)
    (hne : name ≠ moduleVersionName)
    (h : L.propose F p i (Placeholder.spell name) w = (L', .ok taken)) :
    (∃ old, F.resolve i (Placeholder.spell name) = .ok old) ∧
      L'.wish? (F.declaringScope i name) = some w.version := by
  have hb := Placeholder.bare?_eq_some.2 ⟨rfl, hname⟩
  have hclean : L.isPurged (F.declaringScope i name) = false := by simp [isPurged, hpurged]
  unfold propose at h
  rw [hb] at h
  dsimp only at h
  rw [if_neg hne] at h
  cases hres : F.resolve i (Placeholder.spell name) with
  | error e =>
    rw [hres] at h
    cases h
  | ok old =>
    rw [hres] at h
    dsimp only at h
    rw [hclean] at h
    refine ⟨⟨old, rfl⟩, ?_⟩
    rcases enter_of_fatal (F := F) hclash hw hL (F.declaringScope i name) old with
      ⟨e, he⟩ | ⟨-, hput⟩
    · simp [he] at h
    · simp only [Bool.false_eq_true, if_false, hput, Prod.mk.injEq] at h
      rw [← h.1, wish?_put, if_pos rfl]
      rfl

end Taken

end Ledger
end Realign
