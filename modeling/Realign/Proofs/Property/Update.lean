import Realign.Proofs.Property.Agreement
import Realign.Proofs.Property.Rewording

/-!
What an update of a property comes to. It goes down the references to the first value that is
none itself and writes there. The names on the way stand as they stood, so the name that was
asked for resolves as what was written does. A literal value gives way to the new value. A
compound value keeps its references, and none of them leads back to its own name: they resolve
as before, to the beginning of the new value, and the rest of it follows.
-/
namespace Realign.Forest

/-- What an update finds at the end of the references of a name: the name there and its
declaration, what it resolves to, and what is written in its place. -/
structure Lands (F : Forest) (i : Nat) (r : UpdateRequest) (name last : String) (d : Declaration)
    (resolved : String) (written : Option String) : Prop where
  leads : F.Leads i name last
  declared : F.declaration? i last = some d
  plain : Placeholder.bare? d.value = none
  resolves : F.resolve i (Placeholder.spell last) = .ok resolved
  differs : resolved ≠ r.value
  writes : r.written? last d.value resolved = .ok written

variable {F : Forest} {i : Nat} {r : UpdateRequest} {name last : String} {d : Declaration}
  {resolved : String} {written : Option String}

theorem Lands.of_refers {other : String} (hr : F.Refers i name other)
    (h : F.Lands i r other last d resolved written) : F.Lands i r name last d resolved written :=
  { h with leads := Relation.ReflTransGen.head hr h.leads }

/-- An update writes where the references of the name end or changes nothing. -/
theorem updateFollowing_cases (F : Forest) (i : Nat) (r : UpdateRequest) (available : List String)
    (name : String) :
    ((F.updateFollowing i r available name).1 = F ∧
        (F.updateFollowing i r available name).2 ≠ .ok .found) ∨
      ∃ last d resolved written, F.Lands i r name last d resolved written ∧
        F.updateFollowing i r available name = (F.rewrite d last written, .ok .found) := by
  fun_induction F.updateFollowing i r available name
  case case5 available name _ resolved _ _ d hd other hb _ ih =>
    rcases ih with hsame | ⟨last, e, text, written, hl, hu⟩
    · exact Or.inl hsame
    · exact Or.inr ⟨last, e, text, written, hl.of_refers ⟨d, hd, hb⟩, hu⟩
  case case8 available name _ resolved hr hne d hd hb hw =>
    exact Or.inr ⟨name, d, resolved, none, ⟨.refl, hd, hb, hr, hne, hw⟩, rfl⟩
  case case9 available name _ resolved hr hne d hd hb value hw =>
    exact Or.inr ⟨name, d, resolved, some value, ⟨.refl, hd, hb, hr, hne, hw⟩, rfl⟩
  all_goals exact Or.inl ⟨rfl, by simp⟩

/-- A name that resolves to the new value already is left alone. -/
theorem update_of_resolve (hv : name ≠ moduleVersionName)
    (hr : F.resolve i (Placeholder.spell name) = .ok r.value) :
    F.update i r name = (F, .ok .ignored) := by
  rw [update, updateFollowing, if_neg hv]
  simp only [hr, if_true]

/-- Every other name stands for what it stood for. -/
theorem lookup_rewrite_of_ne (h : F.declaration? i last = some d)
    (hb : Placeholder.bare? d.value = none) (written : Option String) {other : String}
    (hne : other ≠ last) :
    ((F.rewrite d last written).resolver i).lookup other = (F.resolver i).lookup other := by
  have hrev := revised_rewrite h hb written
  rw [lookup_eq, lookup_eq, fieldText?_congr hrev.names hrev.versions]
  cases he : F.declaration? i other with
  | none => rw [hrev.names.declaration?_eq_none.2 he]
  | some e => rw [hrev.declaration? he (by simp [hne])]

namespace Lands

variable (h : F.Lands i r name last d resolved written) (hF : F.NoFieldNames)
  (hname : Placeholder.isName name.toList = true)

include h hF hname

theorem resolve_value : F.resolve i d.value = .ok resolved := by
  rw [← resolve_spell_iff hF (h.leads.isName hname) h.declared]
  exact h.resolves

/-- After the update the name resolves as what was written does. -/
theorem resolve_rewrite_iff (text : String) :
    (F.rewrite d last written).resolve i (Placeholder.spell name) = .ok text ↔
      (F.rewrite d last written).resolve i (written.getD d.value) = .ok text := by
  have hrev := revised_rewrite h.declared h.plain written
  have hG := hrev.names.noFieldNames hF
  rw [(hrev.leads h.leads).resolve_iff hG hname,
    resolve_spell_iff hG (h.leads.isName hname) (declaration?_rewrite h.declared written)]

/-- The references of the value that is written over resolve afterwards as they did before. -/
theorem resolve_extended {tail : List Char} (hnew : Placeholder.occursIn r.value = false)
    (hvalue : r.value.toList = resolved.toList ++ tail) :
    (F.rewrite d last written).resolve i (d.value ++ String.ofList tail) = .ok r.value := by
  have hu := (Resolver.resolve_eq_ok_iff ..).1 (h.resolve_value hF hname)
  have hu' : Unfolds ((F.rewrite d last written).resolver i).lookup
      (Piece.ofText d.value.toList) resolved.toList :=
    hu.of_agree_elsewhere (fun _ hne => lookup_rewrite_of_ne h.declared h.plain written hne)
      (lookup_of_declaration? hF h.declared)
  rw [Placeholder.occursIn, hvalue] at hnew
  rw [resolve, Resolver.resolve_eq_ok_iff, String.toList_append, String.toList_ofList, hvalue,
    unfolds_append_iff hu hnew]
  exact ⟨_, hu', rfl⟩

/-- The strict check stood against the new value, or the name resolves to it now. -/
theorem refused_or_resolve (hnew : Placeholder.occursIn r.value = false) :
    (r.refuses resolved = true ∧ written = none) ∨
      (F.rewrite d last written).resolve i (Placeholder.spell name) = .ok r.value := by
  rw [h.resolve_rewrite_iff hF hname]
  rcases UpdateRequest.written?_eq_ok h.writes with
    hrefused | ⟨-, ⟨-, tail, hvalue, rfl⟩ | ⟨-, rfl⟩⟩
  · exact Or.inl hrefused
  · exact Or.inr (h.resolve_extended hF hname hnew hvalue)
  · exact Or.inr ((resolve_literal_iff hnew).2 rfl)

end Lands

/-- An update that finds its property was refused by the strict check and changed nothing, or the
property resolves to the new value from then on and the same update once more does nothing. -/
theorem refused_or_resolve_of_update_found {G : Forest} (hF : F.NoFieldNames)
    (hname : Placeholder.isName name.toList = true)
    (hnew : Placeholder.occursIn r.value = false) (h : F.update i r name = (G, .ok .found)) :
    ((∃ resolved, F.resolve i (Placeholder.spell name) = .ok resolved ∧
        r.refuses resolved = true) ∧ G = F) ∨
      (G.resolve i (Placeholder.spell name) = .ok r.value ∧
        G.update i r name = (G, .ok .ignored)) := by
  have hv : name ≠ moduleVersionName := by
    rintro rfl
    exact (updateFollowing_of_unfollowed r i _ _ (Or.inl rfl)).2 (congrArg Prod.snd h)
  rw [update] at h
  rcases F.updateFollowing_cases i r (F.declaredNames i) name with
    ⟨-, hnot⟩ | ⟨last, d, resolved, written, hl, hu⟩
  · exact absurd (congrArg Prod.snd h) hnot
  · rw [hu] at h
    obtain rfl := (Prod.mk.inj h).1
    rcases hl.refused_or_resolve hF hname hnew with ⟨hrefused, rfl⟩ | hr
    · exact Or.inl ⟨⟨resolved, (hl.leads.resolve_iff hF hname _).2 hl.resolves, hrefused⟩, rfl⟩
    · exact Or.inr ⟨hr, update_of_resolve hv hr⟩

/-- A name that a profile hands on to a compound value of the parent. -/
def layeredForest : Forest where
  modules := [
    { ident := ⟨"org.foo", "root"⟩, version := "1.0",
      main.properties := .ofRows [("base", "1.0"), ("full", "$\x7bbase\x7d-GA")] },
    { ident := ⟨"org.foo", "app"⟩, version := "1.0", parent := some ⟨"org.foo", "root"⟩,
      profiles := [{
        id := "product", active := true
        body.properties := .ofRows [("alias", "$\x7bfull\x7d")] }] }]
  grounded := ⟨by decide, by decide⟩

def suffixedRequest : UpdateRequest where
  policy := { strictAlignment := true, versionSuffix := some "redhat" }
  bypassStrict := false
  value := "1.0-GA.redhat-1"

example : (layeredForest.update 1 suffixedRequest "alias").1.property? 0 .main "full" =
    some "$\x7bbase\x7d-GA.redhat-1" := by
  decide +kernel

theorem layered_update_found :
    (layeredForest.update 1 suffixedRequest "alias").2 = .ok .found ∧
      (((∃ resolved, layeredForest.resolve 1 (Placeholder.spell "alias") = .ok resolved ∧
            suffixedRequest.refuses resolved = true) ∧
          (layeredForest.update 1 suffixedRequest "alias").1 = layeredForest) ∨
        ((layeredForest.update 1 suffixedRequest "alias").1.resolve 1
              (Placeholder.spell "alias") = .ok "1.0-GA.redhat-1" ∧
          (layeredForest.update 1 suffixedRequest "alias").1.update 1 suffixedRequest "alias" =
            ((layeredForest.update 1 suffixedRequest "alias").1, .ok .ignored))) :=
  have hfound : (layeredForest.update 1 suffixedRequest "alias").2 = .ok .found := by
    decide +kernel
  ⟨hfound, refused_or_resolve_of_update_found (by decide) (by decide) (by decide)
    (Prod.ext rfl hfound)⟩

end Realign.Forest
