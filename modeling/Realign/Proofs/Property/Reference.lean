import Mathlib.Logic.Relation
import Realign.Proofs.Property.Lookup
import Realign.Proofs.Property.Unfolding

/-!
References between the properties of a chain of modules. When no property hides behind the
name of a module field, a declared name stands for the value it is declared with, and a
name whose value is bare resolves as the name it refers to. A name that resolves
therefore never leads back to itself: its references end at a name with another value, at the
module version or at a name that is not declared. There its scope is settled, which
means that the module of the scope declares the property itself and sees it refer to no
other property.
-/
namespace Realign

open Text

namespace Placeholder

theorem bare?_eq_some {value name : String} :
    bare? value = some name ↔ value = spell name ∧ isName name.toList = true := by
  unfold bare?
  rw [Option.map_eq_some_iff]
  constructor
  · intro h
    obtain ⟨chars, hc, rfl⟩ := h
    obtain ⟨hv, hn⟩ := bareChars?_eq_some.1 hc
    rw [spell, String.toList_ofList, ← hv, String.ofList_toList]
    exact ⟨rfl, hn⟩
  · intro h
    obtain ⟨rfl, hn⟩ := h
    refine ⟨name.toList, bareChars?_eq_some.2 ⟨?_, hn⟩, String.ofList_toList⟩
    rw [spell, String.toList_ofList]

theorem closing_not_mem_of_isName {name : List Char} (h : isName name = true) :
    closing ∉ name := by
  intro hmem
  simp [isName, hmem] at h

theorem occursIn_of_bare? {value name : String} (h : bare? value = some name) :
    occursIn value = true := by
  obtain ⟨rfl, -⟩ := bare?_eq_some.1 h
  rw [occursIn, spell, String.toList_ofList, hasWord_eq_true_iff, spellChars, List.append_assoc]
  exact (List.prefix_append _ _).isInfix

theorem isCompound_of_not_occursIn {value : String} (h : occursIn value = false) :
    isCompound value = false := by
  rw [isCompound, h, Bool.false_and]

theorem bare?_of_not_occursIn {value : String} (h : occursIn value = false) :
    bare? value = none := by
  cases hb : bare? value with
  | none => rfl
  | some name =>
    rw [occursIn_of_bare? hb] at h
    cases h

end Placeholder

namespace Forest

/-- No property hides behind the name of a module field. -/
def NoFieldNames (F : Forest) : Prop :=
  ∀ i place name value, F.property? i place name = some value → FieldName.ofText? name = none

instance (F : Forest) : Decidable F.NoFieldNames :=
  F.decidableForall fun name _ => FieldName.ofText? name = none

/-- Every value is literal or one reference and nothing else. -/
def PlainValues (F : Forest) : Prop :=
  ∀ i place name value, F.property? i place name = some value →
    Placeholder.occursIn value = false ∨ (Placeholder.bare? value).isSome = true

instance (F : Forest) : Decidable F.PlainValues :=
  F.decidableForall fun _ value =>
    Placeholder.occursIn value = false ∨ (Placeholder.bare? value).isSome = true

/-- A name whose declared value, as seen from a module, is a bare reference to another. -/
def Refers (F : Forest) (i : Nat) (name other : String) : Prop :=
  ∃ d, F.declaration? i name = some d ∧ Placeholder.bare? d.value = some other

def Leads (F : Forest) (i : Nat) : String → String → Prop := Relation.ReflTransGen (F.Refers i)

/-- Nothing that is declared where references end leads any further. -/
def EndsAt (F : Forest) (i : Nat) (d : Declaration) : Prop :=
  ∀ other, Placeholder.bare? d.value = some other →
    other = moduleVersionName ∨ F.declaration? i other = none

/-- A scope that a change lands in: its own module declares the property, if any does, and there
the references have ended. -/
structure Settled (F : Forest) (s : Scope) : Prop where
  name : Placeholder.isName s.property.toList = true
  own : ∀ d, F.declaration? s.holder s.property = some d → d.holder = s.holder
  ends : ∀ d, F.declaration? s.holder s.property = some d → F.EndsAt s.holder d

section Chain

variable {F : Forest} {i : Nat} {name : String} {d : Declaration}

/-- The module that declares a property for another one declares it for itself. -/
theorem declaration?_holder (h : F.declaration? i name = some d) :
    d.holder ∈ F.ancestors i ∧ F.declaration? d.holder name = some d := by
  obtain ⟨holder, hmem, hd⟩ := List.exists_of_findSome?_eq_some h
  obtain ⟨m, hm, hrest⟩ := Option.bind_eq_some_iff.1 hd
  obtain ⟨⟨place, value⟩, -, hp⟩ := Option.bind_eq_some_iff.1 hrest
  cases hp
  have hlt : holder < F.size := (List.getElem?_eq_some_iff.1 hm).1
  obtain ⟨rest, hrest⟩ := ancestors_eq_cons hlt
  refine ⟨hmem, ?_⟩
  rw [declaration?, hrest, List.findSome?_cons, hd]

/-- Whatever is undeclared for a module is undeclared for its ancestors. -/
theorem declaration?_ancestor_eq_none {j : Nat} (hj : j ∈ F.ancestors i)
    (h : F.declaration? i name = none) : F.declaration? j name = none := by
  unfold declaration? at h ⊢
  rw [List.findSome?_eq_none_iff] at h ⊢
  intro holder hh
  exact h holder ((ancestors_suffix hj).subset hh)

theorem endsAt_of_bare?_eq_none (h : Placeholder.bare? d.value = none) : F.EndsAt i d := by
  intro other ho
  rw [h] at ho
  cases ho

theorem endsAt_of_bare? {next : String} (h : Placeholder.bare? d.value = some next)
    (hend : next = moduleVersionName ∨ F.declaration? i next = none) : F.EndsAt i d := by
  intro other ho
  rw [h] at ho
  rwa [← Option.some.inj ho]

theorem EndsAt.holder (he : F.EndsAt i d) (h : F.declaration? i name = some d) :
    F.EndsAt d.holder d := by
  intro other ho
  rcases he other ho with hv | hn
  · exact Or.inl hv
  · exact Or.inr (declaration?_ancestor_eq_none (declaration?_holder h).1 hn)

theorem settled_holder (hname : Placeholder.isName name.toList = true)
    (h : F.declaration? i name = some d) (he : F.EndsAt i d) : F.Settled ⟨d.holder, name⟩ where
  name := hname
  own d' hd' := by
    rw [(declaration?_holder h).2] at hd'
    rw [← Option.some.inj hd']
  ends d' hd' := by
    rw [(declaration?_holder h).2] at hd'
    rw [← Option.some.inj hd']
    exact he.holder h

theorem settled_undeclared (hname : Placeholder.isName name.toList = true)
    (h : F.declaration? i name = none) : F.Settled ⟨i, name⟩ where
  name := hname
  own d hd := by
    rw [h] at hd
    cases hd
  ends d hd := by
    rw [h] at hd
    cases hd

end Chain

theorem SameNames.noFieldNames {F G : Forest} (h : SameNames F G) (hF : F.NoFieldNames) :
    G.NoFieldNames := by
  intro i place name value hv
  have hn := h.names i place name
  rw [hv] at hn
  obtain ⟨old, hold⟩ := Option.isSome_iff_exists.1 hn.symm
  exact hF i place name old hold

theorem SameProperties.leads {F G : Forest} (h : SameProperties F G) {i : Nat}
    {name other : String} (hl : F.Leads i name other) : G.Leads i name other := by
  induction hl with
  | refl => exact Relation.ReflTransGen.refl
  | tail _ hr ih =>
    obtain ⟨d, hd, ho⟩ := hr
    rw [← h.declaration?] at hd
    exact Relation.ReflTransGen.tail ih ⟨d, hd, ho⟩

theorem SameProperties.endsAt {F G : Forest} (h : SameProperties F G) {i : Nat} {d : Declaration}
    (he : F.EndsAt i d) : G.EndsAt i d := by
  intro other ho
  rw [h.declaration?]
  exact he other ho

theorem SameProperties.settled {F G : Forest} (h : SameProperties F G) {s : Scope}
    (hs : G.Settled s) : F.Settled s where
  name := hs.name
  own d hd := hs.own d ((h.declaration? s.holder s.property).trans hd)
  ends d hd other ho := by
    rw [← h.declaration?] at hd ⊢
    exact hs.ends d hd other ho

section Resolving

variable {F : Forest} {i : Nat} {name other value text : String} {d : Declaration}

/-- A declared name stands for the value that it is declared with. -/
theorem lookup_of_declaration? (hF : F.NoFieldNames) (h : F.declaration? i name = some d) :
    (F.resolver i).lookup name = some d.value := by
  have hfield := hF _ _ _ _ (property?_of_declaration? h)
  rw [Resolver.lookup, hfield, Option.bind_none, table_get?_eq_declaration?, h]
  rfl

/-- A property that is declared is not the module version. -/
theorem ne_moduleVersionName (hF : F.NoFieldNames) (h : F.declaration? i name = some d) :
    name ≠ moduleVersionName := by
  intro hv
  subst hv
  have hfield := hF _ _ _ _ (property?_of_declaration? h)
  have hsome : FieldName.ofText? moduleVersionName ≠ none := by decide
  exact hsome hfield

theorem resolve_literal_iff (h : Placeholder.occursIn value = false) :
    F.resolve i value = .ok text ↔ text = value := by
  rw [resolve, Resolver.resolve_eq_ok_iff, unfolds_literal_iff h, String.toList_inj]

/-- A declared name resolves as its value does. -/
theorem resolve_spell_iff (hF : F.NoFieldNames) (hname : Placeholder.isName name.toList = true)
    (h : F.declaration? i name = some d) :
    F.resolve i (Placeholder.spell name) = .ok text ↔ F.resolve i d.value = .ok text := by
  have hlook := lookup_of_declaration? hF h
  rw [resolve, Resolver.resolve_eq_ok_iff, resolve, Resolver.resolve_eq_ok_iff, Placeholder.spell,
    String.toList_ofList]
  apply unfolds_spellChars_iff (Placeholder.closing_not_mem_of_isName hname)
  rw [String.ofList_toList]
  exact hlook

theorem Refers.isName (h : F.Refers i name other) : Placeholder.isName other.toList = true := by
  obtain ⟨d, -, ho⟩ := h
  exact (Placeholder.bare?_eq_some.1 ho).2

theorem Refers.resolve_iff (hF : F.NoFieldNames) (hname : Placeholder.isName name.toList = true)
    (h : F.Refers i name other) (text : String) :
    F.resolve i (Placeholder.spell name) = .ok text ↔
      F.resolve i (Placeholder.spell other) = .ok text := by
  obtain ⟨d, hd, ho⟩ := h
  rw [resolve_spell_iff hF hname hd, (Placeholder.bare?_eq_some.1 ho).1]

theorem Leads.isName (hname : Placeholder.isName name.toList = true) (h : F.Leads i name other) :
    Placeholder.isName other.toList = true := by
  cases h with
  | refl => exact hname
  | tail _ hstep => exact hstep.isName

/-- A name resolves as any name that it leads to. -/
theorem Leads.resolve_iff (hF : F.NoFieldNames) (hname : Placeholder.isName name.toList = true)
    (h : F.Leads i name other) (text : String) :
    F.resolve i (Placeholder.spell name) = .ok text ↔
      F.resolve i (Placeholder.spell other) = .ok text := by
  induction h with
  | refl => exact Iff.rfl
  | tail hl hstep ih => exact ih.trans (hstep.resolve_iff hF (Leads.isName hname hl) text)

theorem acc_refers_of_unfoldsWithin (hF : F.NoFieldNames) {n : Nat} {out : List Char}
    (hname : Placeholder.isName name.toList = true)
    (h : UnfoldsWithin (F.resolver i).lookup n
      (Piece.ofText (Placeholder.spellChars name.toList)) out) :
    Acc (fun other name => F.Refers i name other) name := by
  induction n using Nat.strong_induction_on generalizing name out with
  | h n ih =>
    refine ⟨_, fun other hr => ?_⟩
    obtain ⟨d, hd, ho⟩ := hr
    obtain ⟨hv, hn⟩ := Placeholder.bare?_eq_some.1 ho
    have hlook := lookup_of_declaration? hF hd
    rw [← String.ofList_toList (s := name)] at hlook
    have hclose := Placeholder.closing_not_mem_of_isName hname
    obtain ⟨m, hm, inner, hi⟩ := h.exists_lt_of_spellChars hclose hlook
    rw [hv, Placeholder.spell, String.toList_ofList] at hi
    exact ih m hm hn hi

/-- The references of a name that resolves come to an end. -/
theorem acc_refers (hF : F.NoFieldNames) (hname : Placeholder.isName name.toList = true)
    (h : F.resolve i (Placeholder.spell name) = .ok text) :
    Acc (fun other name => F.Refers i name other) name := by
  rw [resolve, Resolver.resolve_eq_ok_iff, Placeholder.spell, String.toList_ofList] at h
  obtain ⟨n, hn⟩ := h.exists_within
  exact acc_refers_of_unfoldsWithin hF hname hn

theorem not_transGen_refers_self (h : Acc (fun other name => F.Refers i name other) name) :
    ¬ Relation.TransGen (F.Refers i) name name := by
  induction h with
  | intro name _ ih =>
    intro hcycle
    obtain ⟨other, hstep, hback⟩ := Relation.TransGen.head'_iff.1 hcycle
    exact ih other hstep (Relation.TransGen.tail' hback hstep)

/-- Where following a name ends that never leads back to itself. What may no longer be followed
has led to the name. -/
theorem followScope_eq (h : Acc (fun other name => F.Refers i name other) name)
    {available : List String} (scope : Scope)
    (seen : ∀ x ∈ F.declaredNames i, x ∉ available → Relation.TransGen (F.Refers i) x name) :
    (F.declaration? i name = none ∧ F.followScope i available scope name = scope) ∨
      ∃ last d, F.Leads i name last ∧ F.declaration? i last = some d ∧ F.EndsAt i d ∧
        F.followScope i available scope name = ⟨d.holder, last⟩ := by
  induction h generalizing available scope with
  | intro name hacc ih =>
    cases hd : F.declaration? i name with
    | none =>
      refine Or.inl ⟨rfl, ?_⟩
      rw [followScope, hd]
    | some d =>
      right
      have hav : name ∈ available := by
        by_contra hnot
        exact not_transGen_refers_self ⟨name, hacc⟩
          (seen name (mem_declaredNames_of_declaration? hd) hnot)
      rw [followScope, hd]
      simp only [hav, dite_true]
      cases hb : Placeholder.bare? d.value with
      | none =>
        exact ⟨name, d, Relation.ReflTransGen.refl, hd, endsAt_of_bare?_eq_none hb, rfl⟩
      | some other =>
        by_cases hv : other = moduleVersionName
        · have hends : F.EndsAt i d := endsAt_of_bare? hb (Or.inl hv)
          exact ⟨name, d, Relation.ReflTransGen.refl, hd, hends, by simp [hv]⟩
        · have hstep : F.Refers i name other := ⟨d, hd, hb⟩
          have seen' : ∀ x ∈ F.declaredNames i, x ∉ without name available →
              Relation.TransGen (F.Refers i) x other := by
            intro x hx hnot
            by_cases hxn : x = name
            · rw [hxn]
              exact Relation.TransGen.single hstep
            · have hnot' : x ∉ available := by
                intro hmem
                exact hnot (List.mem_filter.2 ⟨hmem, by simpa using hxn⟩)
              exact (seen x hx hnot').tail hstep
          simp only [hv, if_false]
          have hfollow := ih other hstep ⟨d.holder, name⟩ seen'
          rcases hfollow with ⟨hn, hs⟩ | ⟨last, e, hl, he, hends, hs⟩
          · have hends := endsAt_of_bare? hb (Or.inr hn)
            exact ⟨name, d, Relation.ReflTransGen.refl, hd, hends, hs⟩
          · exact ⟨last, e, Relation.ReflTransGen.head hstep hl, he, hends, hs⟩

/-- The scope of a name that resolves is where its references end. -/
theorem declaringScope_eq (hF : F.NoFieldNames) (hname : Placeholder.isName name.toList = true)
    (h : F.resolve i (Placeholder.spell name) = .ok text) :
    (F.declaration? i name = none ∧ F.declaringScope i name = ⟨i, name⟩) ∨
      ∃ last d, F.Leads i name last ∧ F.declaration? i last = some d ∧ F.EndsAt i d ∧
        F.declaringScope i name = ⟨d.holder, last⟩ := by
  apply followScope_eq (acc_refers hF hname h)
  intro x hx hnot
  exact absurd hx hnot

theorem settled_declaringScope (hF : F.NoFieldNames)
    (hname : Placeholder.isName name.toList = true)
    (h : F.resolve i (Placeholder.spell name) = .ok text) :
    F.Settled (F.declaringScope i name) := by
  rcases declaringScope_eq hF hname h with ⟨hd, hs⟩ | ⟨last, d, hl, hd, he, hs⟩
  · rw [hs]
    exact settled_undeclared hname hd
  · rw [hs]
    exact settled_holder (hl.isName hname) hd he

/-- What the scope of a name declares resolves as the name does. -/
theorem resolve_of_declaringScope (hF : F.NoFieldNames)
    (hname : Placeholder.isName name.toList = true)
    (h : F.resolve i (Placeholder.spell name) = .ok text)
    (hd : F.declaration? (F.declaringScope i name).holder (F.declaringScope i name).property =
      some d) :
    F.resolve i d.value = .ok text := by
  rcases declaringScope_eq hF hname h with ⟨hn, hs⟩ | ⟨last, e, hl, he, -, hs⟩
  · rw [hs, hn] at hd
    cases hd
  · rw [hs, (declaration?_holder he).2] at hd
    rw [← Option.some.inj hd, ← resolve_spell_iff hF (hl.isName hname) he,
      ← hl.resolve_iff hF hname]
    exact h

end Resolving

end Forest
end Realign
