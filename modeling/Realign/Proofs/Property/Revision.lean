import Realign.Proofs.Property.Reference

/-!
Updates of settled scopes. Where references have ended an update is not handed on: it sets
the one entry that the scope declares, or nothing. Forests that differ in the entries of
some scopes only are compared by the list of those scopes, and a scope outside the list
is as settled after the changes as before. Bare values are never written over, so whatever a
name leads to it still leads to.
-/
namespace Realign

namespace UpdateRequest

/-- Whether the strict check stands against the change of a property that resolves so. -/
def refuses (r : UpdateRequest) (resolved : String) : Bool :=
  r.policy.strictAlignment && !r.bypassStrict && !Strict.compatible r.policy resolved r.value

/-- What is written, if no fault comes of it: nothing against the strict check, the rest of the new
value behind the placeholders that resolve to its beginning, or the new value. -/
theorem written?_eq_ok {r : UpdateRequest} {name declared resolved : String}
    {written : Option String} (h : r.written? name declared resolved = .ok written) :
    (r.refuses resolved = true ∧ written = none) ∨
      r.refuses resolved = false ∧
        ((Placeholder.isCompound declared = true ∧ ∃ tail,
            r.value.toList = resolved.toList ++ tail ∧
              written = some (declared ++ String.ofList tail)) ∨
          (Placeholder.isCompound declared = true → ¬ resolved.toList <+: r.value.toList) ∧
            written = some r.value) := by
  unfold written? at h
  rw [← refuses] at h
  cases hrefuses : r.refuses resolved with
  | true =>
    rw [hrefuses, if_pos rfl] at h
    split at h
    · cases h
    · exact Or.inl ⟨rfl, (Except.ok.inj h).symm⟩
  | false =>
    rw [hrefuses, if_neg Bool.false_ne_true] at h
    refine Or.inr ⟨rfl, ?_⟩
    split at h
    · rename_i hcompound
      split at h
      · cases h
      · split at h
        · rename_i tail htail
          exact Or.inl ⟨hcompound, tail, Text.strip?_eq_some.1 htail, (Except.ok.inj h).symm⟩
        · rename_i hnone
          refine Or.inr ⟨fun _ hpre => ?_, (Except.ok.inj h).symm⟩
          obtain ⟨tail, htail⟩ := hpre
          rw [Text.strip?_eq_some.2 htail.symm] at hnone
          cases hnone
    · rename_i hcompound
      exact Or.inr ⟨fun h => absurd h hcompound, (Except.ok.inj h).symm⟩

end UpdateRequest

namespace Forest

/-- Forests that differ in values of the properties of these scopes only, none of them bare
before. -/
structure Revised (F : Forest) (scopes : List Scope) (G : Forest) : Prop where
  names : SameNames F G
  versions : ∀ i, G.version? i = F.version? i
  artifacts : ∀ i place kind, G.artifacts? i place kind = F.artifacts? i place kind
  entries : ∀ i place name, ⟨i, name⟩ ∉ scopes →
    G.property? i place name = F.property? i place name
  bare : ∀ i place name value, F.property? i place name = some value →
    (Placeholder.bare? value).isSome → G.property? i place name = some value

namespace Revised

variable {F G H : Forest} {scopes others : List Scope}

theorem refl (F : Forest) (scopes : List Scope) : Revised F scopes F :=
  ⟨SameNames.refl F, fun _ => rfl, fun _ _ _ => rfl, fun _ _ _ _ => rfl, fun _ _ _ _ h _ => h⟩

theorem trans (h : Revised F scopes G) (h' : Revised G others H) :
    Revised F (scopes ++ others) H where
  names := h.names.trans h'.names
  versions i := (h'.versions i).trans (h.versions i)
  artifacts i place kind := (h'.artifacts i place kind).trans (h.artifacts i place kind)
  entries i place name hn := by
    rw [List.mem_append, not_or] at hn
    exact (h'.entries i place name hn.2).trans (h.entries i place name hn.1)
  bare i place name value hv hb := h'.bare i place name value (h.bare i place name value hv hb) hb

theorem mono (h : Revised F scopes G) (hs : scopes ⊆ others) : Revised F others G :=
  { h with entries := fun i place name hn => h.entries i place name fun hmem => hn (hs hmem) }

/-- What a scope outside the list declares is declared still. -/
theorem declaration? (h : Revised F scopes G) {i : Nat} {name : String} {d : Declaration}
    (hd : F.declaration? i name = some d) (hs : ⟨d.holder, name⟩ ∉ scopes) :
    G.declaration? i name = some d := by
  have hv : G.property? d.holder d.place name = some d.value := by
    rw [h.entries _ _ _ hs]
    exact property?_of_declaration? hd
  exact h.names.declaration?_of_property? hd hv

theorem settled (h : Revised F scopes G) {s : Scope} (hF : F.Settled s) (hs : s ∉ scopes) :
    G.Settled s := by
  cases hd : F.declaration? s.holder s.property with
  | none => exact settled_undeclared hF.name (h.names.declaration?_eq_none.2 hd)
  | some d =>
    have hown := hF.own d hd
    have hG := h.declaration? hd (by rw [hown]; exact hs)
    have hends : G.EndsAt s.holder d := by
      intro other ho
      rcases hF.ends d hd other ho with hv | hn
      · exact Or.inl hv
      · exact Or.inr (h.names.declaration?_eq_none.2 hn)
    have hset := settled_holder hF.name hG hends
    rwa [hown] at hset

theorem refers (h : Revised F scopes G) {i : Nat} {name other : String}
    (hr : F.Refers i name other) : G.Refers i name other := by
  obtain ⟨d, hd, ho⟩ := hr
  have hv := h.bare _ _ _ _ (property?_of_declaration? hd) (by rw [ho]; rfl)
  exact ⟨d, h.names.declaration?_of_property? hd hv, ho⟩

/-- What a name leads to it leads to still. -/
theorem leads (h : Revised F scopes G) {i : Nat} {name other : String}
    (hl : F.Leads i name other) : G.Leads i name other := by
  induction hl with
  | refl => exact Relation.ReflTransGen.refl
  | tail _ hr ih => exact Relation.ReflTransGen.tail ih (h.refers hr)

end Revised

/-- The forest with what is to be written, if anything, as the value of a declaration. -/
def rewrite (F : Forest) (d : Declaration) (name : String) : Option String → Forest
  | some value => F.setProperty d name value
  | none => F

section Rewrite

variable {F : Forest} {i : Nat} {name : String} {d : Declaration}

/-- An entry with another name or at another place keeps its value. -/
theorem property?_rewrite_of_ne (h : F.declaration? i name = some d) (written : Option String)
    {j : Nat} {place : Place} {other : String}
    (hne : ¬ (d.holder = j ∧ d.place = place ∧ name = other)) :
    (F.rewrite d name written).property? j place other = F.property? j place other := by
  cases written with
  | none => rfl
  | some value =>
    rw [rewrite, F.property?_setProperty d name value (property?_of_declaration? h), if_neg hne]

theorem revised_rewrite (h : F.declaration? i name = some d)
    (hb : Placeholder.bare? d.value = none) (written : Option String) :
    Revised F [⟨d.holder, name⟩] (F.rewrite d name written) := by
  have hold := property?_of_declaration? h
  cases written with
  | none => exact Revised.refl F _
  | some value =>
    refine ⟨F.sameNames_setProperty d name value hold, F.version?_setProperty d name value,
      F.artifacts?_setProperty d name value, fun j place other hn => ?_,
      fun j place other old ho hbare => ?_⟩
    · apply property?_rewrite_of_ne h (some value)
      intro hex
      obtain ⟨rfl, -, rfl⟩ := hex
      simp at hn
    · rw [← ho]
      apply property?_rewrite_of_ne h (some value)
      intro hex
      obtain ⟨rfl, rfl, rfl⟩ := hex
      rw [hold] at ho
      rw [← Option.some.inj ho, hb] at hbare
      cases hbare

theorem declaration?_rewrite (h : F.declaration? i name = some d) (written : Option String) :
    (F.rewrite d name written).declaration? i name =
      some ⟨d.holder, d.place, written.getD d.value⟩ := by
  cases written with
  | none => exact h
  | some value => exact declaration?_setProperty_self h value

end Rewrite

section Update

variable {F : Forest} {s : Scope} {d : Declaration} {resolved : String}

/-- An update of a property whose value is not bare. -/
theorem update_of_declared (r : UpdateRequest) (hd : F.declaration? s.holder s.property = some d)
    (hb : Placeholder.bare? d.value = none) (hv : s.property ≠ moduleVersionName)
    (hr : F.resolve s.holder (Placeholder.spell s.property) = .ok resolved) :
    F.update s.holder r s.property =
      if resolved = r.value then (F, .ok .ignored)
      else match r.written? s.property d.value resolved with
        | .error e => (F, .error e)
        | .ok written => (F.rewrite d s.property written, .ok .found) := by
  rw [update, updateFollowing, if_neg hv]
  simp only [hr, hd]
  split
  · rfl
  · split
    · rename_i other ho
      rw [hb] at ho
      cases ho
    · cases r.written? s.property d.value resolved with
      | error e => rfl
      | ok written => cases written <;> rfl

/-- An update that is not carried out changes nothing. -/
theorem updateFollowing_of_unfollowed (r : UpdateRequest) (i : Nat) (available : List String)
    (name : String) (h : name = moduleVersionName ∨ F.declaration? i name = none) :
    (F.updateFollowing i r available name).1 = F ∧
      (F.updateFollowing i r available name).2 ≠ .ok .found := by
  rw [updateFollowing]
  split
  · exact ⟨rfl, by simp⟩
  · rename_i hv
    have hd : F.declaration? i name = none := h.resolve_left hv
    cases F.resolve i (Placeholder.spell name) with
    | error e => exact ⟨rfl, by simp⟩
    | ok resolved =>
      simp only [hd]
      split <;> exact ⟨rfl, by simp⟩

theorem update_of_bare (hs : F.Settled s) (r : UpdateRequest) {other : String}
    (hd : F.declaration? s.holder s.property = some d)
    (hb : Placeholder.bare? d.value = some other) :
    (F.update s.holder r s.property).1 = F ∧
      (F.update s.holder r s.property).2 ≠ .ok .found := by
  rw [update, updateFollowing]
  split
  · exact ⟨rfl, by simp⟩
  · cases F.resolve s.holder (Placeholder.spell s.property) with
    | error e => exact ⟨rfl, by simp⟩
    | ok resolved =>
      simp only [hd]
      split
      · exact ⟨rfl, by simp⟩
      · split
        · rename_i other' ho
          split
          · exact updateFollowing_of_unfollowed r _ _ other' (hs.ends d hd other' ho)
          · exact ⟨rfl, by simp⟩
        · rename_i ho
          rw [hb] at ho
          cases ho

/-- What an update of a settled scope does when the property is found: the value that the scope
declares, what it resolves to, and what is written in its place. -/
structure Rewrites (F : Forest) (s : Scope) (r : UpdateRequest) (d : Declaration)
    (resolved : String) (written : Option String) : Prop where
  declared : F.declaration? s.holder s.property = some d
  own : d.holder = s.holder
  plain : Placeholder.bare? d.value = none
  resolves : F.resolve s.holder (Placeholder.spell s.property) = .ok resolved
  differs : resolved ≠ r.value
  writes : r.written? s.property d.value resolved = .ok written

/-- The value that is to be replaced resolves as the name of the scope does. -/
theorem Rewrites.resolve_value {r : UpdateRequest} {written : Option String}
    (h : F.Rewrites s r d resolved written) (hF : F.NoFieldNames) (hs : F.Settled s) :
    F.resolve s.holder d.value = .ok resolved := by
  rw [← resolve_spell_iff hF hs.name h.declared]
  exact h.resolves

/-- An update of a settled scope is carried out at its own declaration or changes nothing. -/
theorem update_cases (hs : F.Settled s) (r : UpdateRequest) :
    ((F.update s.holder r s.property).1 = F ∧ (F.update s.holder r s.property).2 ≠ .ok .found) ∨
      ∃ d resolved written, F.Rewrites s r d resolved written ∧
        F.update s.holder r s.property = (F.rewrite d s.property written, .ok .found) := by
  by_cases hv : s.property = moduleVersionName
  · exact Or.inl (updateFollowing_of_unfollowed r _ _ _ (Or.inl hv))
  cases hd : F.declaration? s.holder s.property with
  | none => exact Or.inl (updateFollowing_of_unfollowed r _ _ _ (Or.inr hd))
  | some d =>
    cases hb : Placeholder.bare? d.value with
    | some other => exact Or.inl (update_of_bare hs r hd hb)
    | none =>
      cases hr : F.resolve s.holder (Placeholder.spell s.property) with
      | error e =>
        left
        rw [update, updateFollowing, if_neg hv, hr]
        exact ⟨rfl, by simp⟩
      | ok resolved =>
        rw [update_of_declared r hd hb hv hr]
        split
        · exact Or.inl ⟨rfl, by simp⟩
        · rename_i hne
          cases hw : r.written? s.property d.value resolved with
          | error e => exact Or.inl ⟨rfl, by simp⟩
          | ok written =>
            exact Or.inr ⟨d, resolved, written, ⟨hd, hs.own d hd, hb, hr, hne, hw⟩, rfl⟩

theorem revised_update (hs : F.Settled s) (r : UpdateRequest) :
    Revised F [s] (F.update s.holder r s.property).1 := by
  rcases update_cases hs r with ⟨hsame, -⟩ | ⟨d, resolved, written, hw, hu⟩
  · rw [hsame]
    exact Revised.refl F _
  · rw [hu]
    have h := revised_rewrite hw.declared hw.plain written
    rwa [hw.own] at h

end Update

end Forest
end Realign
