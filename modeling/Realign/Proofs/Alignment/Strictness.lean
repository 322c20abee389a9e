import Realign.Proofs.Alignment.Run
import Realign.Proofs.WildcardTable

/-!
Strict alignment over a whole pass. A version is set in three ways: as the version of a module,
as the literal version of an artifact and as the value of a property. Each of them is
checked against the value that is there, and as everything is set once at most that is the
value from before the pass. Without overrides nothing is exempt from the check.
-/
namespace Realign

/-- Under strict alignment a literal value is left alone or gives way to a compatible one. -/
theorem UpdateRequest.written?_strict {r : UpdateRequest}
    (hstrict : r.policy.strictAlignment = true) (hbypass : r.bypassStrict = false)
    {name declared resolved : String} {written : Option String}
    (hlit : Placeholder.occursIn declared = false)
    (h : r.written? name declared resolved = .ok written) :
    written = none ∨
      written = some r.value ∧ Strict.compatible r.policy resolved r.value = true := by
  rcases written?_eq_ok h with ⟨-, hw⟩ | ⟨hrefuses, ⟨hcompound, -⟩ | ⟨-, hw⟩⟩
  · exact Or.inl hw
  · rw [Placeholder.isCompound_of_not_occursIn hlit] at hcompound
    cases hcompound
  · rw [refuses, hstrict, hbypass] at hrefuses
    exact Or.inr ⟨hw, by simpa using hrefuses⟩

namespace Alignment

variable {plan : Plan} {F : Forest}

theorem compatible_of_acceptLiteral {p : Policy} (hstrict : p.strictAlignment = true)
    {target : Target} (hforced : target.forced = false) {subject current : String}
    (h : acceptLiteral p subject current target = .ok true) :
    Strict.compatible p current target.version = true := by
  unfold acceptLiteral at h
  rw [hstrict, hforced] at h
  cases hc : Strict.compatible p current target.version with
  | false =>
    simp only [hc, Bool.not_true, Bool.or_false, Bool.false_eq_true, if_false] at h
    split at h
    · cases h
    · cases h
  | true => rfl

/-- A relocation that asks for no version leaves the version of an artifact alone. -/
theorem version_relocated {table : RelocationTable}
    (h : ∀ row ∈ table.rows, row.2.version = none) (a : Artifact) :
    (relocated table a).version = a.version := by
  unfold relocated
  split
  · rename_i rule hr
    obtain ⟨key, hrow⟩ := WildcardTable.exists_mem_rows hr
    have hrule : rule.version = none := h _ hrow
    rw [moved, hrule]
    rfl
  · rfl

/-- What a revision writes over a literal value is compatible with it. -/
theorem property?_carryOut_strict (hstrict : plan.policy.strictAlignment = true) {s : State}
    (hnames : s.forest.NoFieldNames) {q : PendingRevision} (hset : s.forest.Settled q.scope)
    (hforced : q.forced = false) {place : Place} {value : String}
    (hv : s.forest.property? q.scope.holder place q.scope.property = some value)
    (hlit : Placeholder.occursIn value = false) :
    ∃ new, (carryOut plan s q).1.forest.property? q.scope.holder place q.scope.property = some new ∧
      (new = value ∨ Strict.compatible plan.policy value new = true) := by
  rw [carryOut_forest]
  have hcases := Forest.update_cases hset (request plan q)
  rcases hcases with ⟨hsame, -⟩ | ⟨d, resolved, written, hw, hu⟩
  · rw [hsame]
    exact ⟨value, hv, Or.inl rfl⟩
  · rw [hu]
    by_cases hplace : d.place = place
    · have hold := Forest.property?_of_declaration? hw.declared
      rw [hw.own, hplace, hv] at hold
      have hvalue := Option.some.inj hold
      have hresolved := hw.resolve_value hnames hset
      rw [← hvalue, Forest.resolve_literal_iff hlit] at hresolved
      have hnew := Forest.property?_of_declaration?
        (Forest.declaration?_rewrite hw.declared written)
      rw [hw.own, hplace] at hnew
      refine ⟨_, hnew, ?_⟩
      have hwrites := hw.writes
      rw [← hvalue, hresolved] at hwrites
      rcases UpdateRequest.written?_strict hstrict hforced hlit hwrites with rfl | ⟨rfl, hc⟩
      · exact Or.inl hvalue.symm
      · exact Or.inr hc
    · refine ⟨value, ?_, Or.inl rfl⟩
      rw [Forest.property?_rewrite_of_ne hw.declared written fun h => hplace h.2.1]
      exact hv

section Run

variable (hstrict : plan.policy.strictAlignment = true) (hover : plan.targets.overrides = .empty)
  (hnames : F.NoFieldNames)

include hstrict hover hnames

theorem version?_run_strict {i : Nat} {version : String} (hv : F.version? i = some version) :
    ∃ new, (run plan F).1.forest.version? i = some new ∧
      (new = version ∨ Strict.compatible plan.policy version new = true) := by
  rw [version?_run plan hnames]
  rcases version?_prepare plan F i with h | ⟨old, ident, target, subject, hold, ht, hacc, h⟩
  · exact ⟨version, h.trans hv, Or.inl rfl⟩
  · rw [hv] at hold
    rw [← Option.some.inj hold] at hacc
    have hforced := Targets.forced_eq_false hover ht
    exact ⟨_, h, Or.inr (compatible_of_acceptLiteral hstrict hforced hacc)⟩

theorem artifact?_run_strict (hreloc : ∀ row ∈ plan.relocations.rows, row.2.version = none)
    {slot : Slot} {a : Artifact} (ha : F.artifact? slot = some a) :
    ∃ b, (run plan F).1.forest.artifact? slot = some b ∧
      (b.version = a.version ∨ ∃ version new, a.version = some version ∧ b.version = some new ∧
        Strict.compatible plan.policy version new = true) := by
  have hmoved : ∃ b, (relocate plan F.slots ⟨F, {}, {}⟩).forest.artifact? slot = some b ∧
      b.version = a.version := by
    rw [artifact?_relocate plan F.nodup_slots]
    split
    · exact ⟨_, by rw [ha]; rfl, version_relocated hreloc a⟩
    · exact ⟨a, ha, rfl⟩
  obtain ⟨b, hb, hversion⟩ := hmoved
  rcases artifact?_prepare plan F slot with
    h | ⟨c, old, ident, target, subject, hc, hold, ht, hacc, h⟩
  · rw [hb] at h
    exact ⟨b, artifact?_run plan hnames h, Or.inl hversion⟩
  · have hforced := Targets.forced_eq_false hover ht
    have hcompatible := compatible_of_acceptLiteral hstrict hforced hacc
    refine ⟨_, artifact?_run plan hnames h, Or.inr ⟨old, target.version, ?_, rfl, hcompatible⟩⟩
    rw [hb] at hc
    rw [← hversion, Option.some.inj hc, hold]

theorem property?_run_strict {i : Nat} {place : Place} {name value : String}
    (hv : F.property? i place name = some value) (hlit : Placeholder.occursIn value = false) :
    ∃ new, (run plan F).1.forest.property? i place name = some new ∧
      (new = value ∨ Strict.compatible plan.policy value new = true) := by
  rcases property?_run plan hnames i place name with h | ⟨q, hq, s, hscope, hset, hsame, hold, h⟩
  · exact ⟨value, h.trans hv, Or.inl rfl⟩
  · have hsound := (ready_prepare plan F hnames).sound q hq
    have hforced : q.forced = false := Targets.eq_false_of_forced hover hsound.forced
    have hbefore := hold.trans hv
    rw [h]
    have hproperty : q.scope.property = name := by rw [hscope]
    have hholder : q.scope.holder = i := by rw [hscope]
    rw [← hproperty, ← hholder] at hbefore ⊢
    exact property?_carryOut_strict hstrict (hsame.noFieldNames hnames) hset hforced hbefore hlit

end Run

/-- Under strict alignment no pass without overrides puts an incompatible version in the place of a
module version, an artifact version or a literal property, whether it comes through or not. -/
theorem run_compatible_of_strict (plan : Plan) (F : Forest)
    (hstrict : plan.policy.strictAlignment = true) (hover : plan.targets.overrides = .empty)
    (hreloc : ∀ row ∈ plan.relocations.rows, row.2.version = none)
    (hnames : F.NoFieldNames) :
    (∀ i version, F.version? i = some version →
      ∃ new, (run plan F).1.forest.version? i = some new ∧
        (new = version ∨ Strict.compatible plan.policy version new = true)) ∧
    (∀ slot a, F.artifact? slot = some a →
      ∃ b, (run plan F).1.forest.artifact? slot = some b ∧
        (b.version = a.version ∨ ∃ version new, a.version = some version ∧ b.version = some new ∧
          Strict.compatible plan.policy version new = true)) ∧
    (∀ i place name value, F.property? i place name = some value →
      Placeholder.occursIn value = false →
      ∃ new, (run plan F).1.forest.property? i place name = some new ∧
        (new = value ∨ Strict.compatible plan.policy value new = true)) := by
  refine ⟨?_, ?_, ?_⟩
  · intro i version hv
    exact version?_run_strict hstrict hover hnames hv
  · intro slot a ha
    exact artifact?_run_strict hstrict hover hnames hreloc ha
  · intro i place name value hv hlit
    exact property?_run_strict hstrict hover hnames hv hlit

theorem dep_version_compatible_of_strict :
    ∃ new, (run (sharedPlan tolerant "1.0.redhat-1") sharedForest).1.forest.property? 0 .main
        "dep.version" = some new ∧
      (new = "1.0" ∨ Strict.compatible tolerant "1.0" new = true) :=
  (run_compatible_of_strict (sharedPlan tolerant "1.0.redhat-1") sharedForest rfl rfl (by decide)
    (by decide)).2.2 0 .main "dep.version" "1.0" (by decide) (by decide)

end Alignment
end Realign
