import Realign.Proofs.Forest.Frame
import Realign.Proofs.Property.Recursion
import Realign.Proofs.Property.Update

/-!
Where an update lands, how it ends and what it leaves as it was. Where no property hides behind
the name of a module field, an update that has something to do goes the way of the scope: it
ends at the module version, at a name that nothing declares, or at the value that the scope
declares. Whatever forest it is, nothing changes unless the update finds a declared value, and
then no more than the value of one entry that was there, at its position in its table.
-/
namespace Realign

namespace Forest

open Relation

variable {F G : Forest} {i : Nat} {r : UpdateRequest} {name last x y text : String}
  {d : Declaration}

section Ending

theorem not_refers_of_undeclared (h : F.declaration? i name = none) (other : String) :
    ¬ F.Refers i name other := by
  intro hr
  obtain ⟨d, hd, -⟩ := hr
  rw [h] at hd
  cases hd

theorem not_refers_of_plain (hd : F.declaration? i name = some d)
    (hb : Placeholder.bare? d.value = none) (other : String) : ¬ F.Refers i name other := by
  intro hr
  obtain ⟨e, he, ho⟩ := hr
  rw [hd] at he
  rw [← Option.some.inj he, hb] at ho
  cases ho

theorem declaration?_moduleVersionName (hF : F.NoFieldNames) (i : Nat) :
    F.declaration? i moduleVersionName = none := by
  cases hd : F.declaration? i moduleVersionName with
  | none => rfl
  | some d => exact absurd rfl (ne_moduleVersionName hF hd)

/-- The references of a name end at one name only. -/
theorem Leads.unique (hx : F.Leads i name x) (hy : F.Leads i name y)
    (hxend : ∀ z, ¬ F.Refers i x z) (hyend : ∀ z, ¬ F.Refers i y z) : x = y := by
  rcases ReflTransGen.total_of_right_unique (refers_rightUnique F i) hx hy with h | h
  · rcases ReflTransGen.cases_head_iff.1 h with he | ⟨z, hz, -⟩
    · exact he
    · exact absurd hz (hxend z)
  · rcases ReflTransGen.cases_head_iff.1 h with he | ⟨z, hz, -⟩
    · exact he.symm
    · exact absurd hz (hyend z)

/-- An update that has something to do comes to the same from wherever the name leads. -/
theorem update_of_leads (hF : F.NoFieldNames) (hname : Placeholder.isName name.toList = true)
    (hr : F.resolve i (Placeholder.spell name) = .ok text) (hne : text ≠ r.value)
    (h : F.Leads i name last) : F.update i r name = F.update i r last := by
  induction h using ReflTransGen.head_induction_on with
  | refl => rfl
  | head hstep _ ih =>
    have hnext := (hstep.resolve_iff hF hname text).1 hr
    obtain ⟨d, hd, -⟩ := id hstep
    have hmoves : F.Moves i r _ := ⟨ne_moduleVersionName hF hd, text, hr, hne⟩
    rw [update_of_handsOn (not_circles hF) ⟨hmoves, hstep⟩]
    exact ih hstep.isName hnext

theorem update_of_unresolved {e : ResolveError} (hv : name ≠ moduleVersionName)
    (hr : F.resolve i (Placeholder.spell name) = .error e) :
    F.update i r name = (F, .error (.resolve e)) := by
  rw [update, updateFollowing, if_neg hv, hr]

theorem update_moduleVersionName (F : Forest) (i : Nat) (r : UpdateRequest) :
    F.update i r moduleVersionName = (F, .ok .ignored) := by
  rw [update, updateFollowing, if_pos rfl]

theorem update_of_undeclared (hv : name ≠ moduleVersionName)
    (hr : F.resolve i (Placeholder.spell name) = .ok text) (hne : text ≠ r.value)
    (hd : F.declaration? i name = none) : F.update i r name = (F, .ok .notFound) := by
  rw [update, updateFollowing, if_neg hv, hr]
  simp only [hne, hd, if_false]

/-- What an update comes to that has something to do at a value that is no reference itself. -/
def overwrite (F : Forest) (r : UpdateRequest) (d : Declaration) (name resolved : String) :
    Forest × Except AlignError UpdateOutcome :=
  match r.written? name d.value resolved with
  | .error e => (F, .error e)
  | .ok written => (F.rewrite d name written, .ok .found)

theorem update_of_plain (hv : name ≠ moduleVersionName)
    (hr : F.resolve i (Placeholder.spell name) = .ok text) (hd : F.declaration? i name = some d)
    (hb : Placeholder.bare? d.value = none) :
    F.update i r name =
      if text = r.value then (F, .ok .ignored) else F.overwrite r d name text :=
  update_of_declared (s := ⟨i, name⟩) r hd hb hv hr

/-- What an update that has something to do finds at the end of the references of the name, and
what becomes of it there: the module version, a name that nothing declares, or a value that is
no reference itself. -/
inductive Ending (F : Forest) (i : Nat) (r : UpdateRequest) (name text : String) : Prop where
  | version (leads : F.Leads i name moduleVersionName)
      (update : F.update i r name = (F, .ok .ignored))
  | undeclared (last : String) (leads : F.Leads i name last) (other : last ≠ moduleVersionName)
      (declared : F.declaration? i last = none) (update : F.update i r name = (F, .ok .notFound))
  | declared (last : String) (d : Declaration) (leads : F.Leads i name last)
      (declared : F.declaration? i last = some d) (plain : Placeholder.bare? d.value = none)
      (scope : F.declaringScope i name = ⟨d.holder, last⟩)
      (update : F.update i r name = F.overwrite r d last text)

theorem ending_of_moves (hF : F.NoFieldNames) (hname : Placeholder.isName name.toList = true)
    (hv : name ≠ moduleVersionName) (hr : F.resolve i (Placeholder.spell name) = .ok text)
    (hne : text ≠ r.value) : F.Ending i r name text := by
  rcases declaringScope_eq hF hname hr with ⟨hd, -⟩ | ⟨last, d, hl, hd, hends, hs⟩
  · exact .undeclared name .refl hv hd (update_of_undeclared hv hr hne hd)
  cases hb : Placeholder.bare? d.value with
  | some other =>
    have hother : F.Leads i name other := .tail hl ⟨d, hd, hb⟩
    have hsame := update_of_leads hF hname hr hne hother
    by_cases hversion : other = moduleVersionName
    · subst hversion
      exact .version hother (hsame.trans (update_moduleVersionName F i r))
    · have hnone := (hends other hb).resolve_left hversion
      have hrother := (hother.resolve_iff hF hname text).1 hr
      exact .undeclared other hother hversion hnone
        (hsame.trans (update_of_undeclared hversion hrother hne hnone))
  | none =>
    have hrlast := (hl.resolve_iff hF hname text).1 hr
    have hupdate := update_of_plain (r := r) (ne_moduleVersionName hF hd) hrlast hd hb
    rw [if_neg hne] at hupdate
    exact .declared last d hl hd hb hs ((update_of_leads hF hname hr hne hl).trans hupdate)

end Ending

section Scope

/-- The references of the name come to nothing that could be set: it stands for the new value
already, or they reach the module version. -/
def Passes (F : Forest) (i : Nat) (r : UpdateRequest) (name : String) : Prop :=
  F.resolve i (Placeholder.spell name) = .ok r.value ∨ F.Leads i name moduleVersionName

/-- The references of the name reach one that nothing declares. -/
def Strays (F : Forest) (i : Nat) (name : String) : Prop :=
  ∃ last, F.Leads i name last ∧ F.declaration? i last = none

/-- References that end elsewhere do not reach the module version. -/
theorem not_passes_of_ends (hF : F.NoFieldNames)
    (hr : F.resolve i (Placeholder.spell name) = .ok text) (hne : text ≠ r.value)
    (hl : F.Leads i name last) (hends : ∀ other, ¬ F.Refers i last other)
    (hother : last ≠ moduleVersionName) : ¬ F.Passes i r name := by
  rintro (hvalue | hversion)
  · rw [hr] at hvalue
    exact hne (Except.ok.inj hvalue)
  · have hundeclared := declaration?_moduleVersionName hF i
    exact hother (hl.unique hversion hends (not_refers_of_undeclared hundeclared))

theorem not_strays_of_declared (hl : F.Leads i name last) (hd : F.declaration? i last = some d)
    (hb : Placeholder.bare? d.value = none) : ¬ F.Strays i name := by
  rintro ⟨stray, hstray, hundeclared⟩
  have hsame := hl.unique hstray (not_refers_of_plain hd hb) (not_refers_of_undeclared hundeclared)
  rw [hsame, hundeclared] at hd
  cases hd

/-- What a module finds declared is what the module that holds it declares. -/
theorem exists_module_of_declaration? (h : F.declaration? i name = some d) :
    ∃ m, F.modules[d.holder]? = some m ∧ m.declaration? name = some (d.place, d.value) := by
  obtain ⟨holder, -, hd⟩ := List.exists_of_findSome?_eq_some h
  obtain ⟨m, hm, hrest⟩ := Option.bind_eq_some_iff.1 hd
  obtain ⟨⟨place, value⟩, hp, he⟩ := Option.bind_eq_some_iff.1 hrest
  cases he
  exact ⟨m, hm, hp⟩

/-- The scope of a name tells where an update of it writes, and what its references reach tells
how the update ends, if there is no fault. -/
theorem update_lands_in_scope (hF : F.NoFieldNames)
    (hname : Placeholder.isName name.toList = true) (hv : name ≠ moduleVersionName) (i : Nat)
    (r : UpdateRequest) :
    ((F.update i r name).1 = F ∨
      ∃ m place old new, F.modules[(F.declaringScope i name).holder]? = some m ∧
        m.declaration? (F.declaringScope i name).property = some (place, old) ∧
        (F.update i r name).1 = F.setProperty ⟨(F.declaringScope i name).holder, place, old⟩
          (F.declaringScope i name).property new) ∧
    ∀ outcome, (F.update i r name).2 = .ok outcome →
      (outcome = .ignored ↔ F.Passes i r name) ∧
      (outcome = .notFound ↔ ¬ F.Passes i r name ∧ F.Strays i name) ∧
      (outcome = .found ↔ ¬ F.Passes i r name ∧ ¬ F.Strays i name) := by
  cases hr : F.resolve i (Placeholder.spell name) with
  | error e =>
    rw [update_of_unresolved hv hr]
    exact ⟨Or.inl rfl, fun outcome h => by cases h⟩
  | ok text =>
    by_cases hne : text = r.value
    · rw [hne] at hr
      rw [update_of_resolve hv hr]
      have hpasses : F.Passes i r name := Or.inl hr
      refine ⟨Or.inl rfl, fun outcome h => ?_⟩
      obtain rfl := Except.ok.inj h
      simp [hpasses]
    cases ending_of_moves hF hname hv hr hne with
    | version leads update =>
      have hyes : F.Passes i r name := Or.inr leads
      rw [update]
      refine ⟨Or.inl rfl, fun outcome h => ?_⟩
      obtain rfl := Except.ok.inj h
      simp [hyes]
    | undeclared last leads other declared update =>
      have hno := not_passes_of_ends hF hr hne leads (not_refers_of_undeclared declared) other
      have hstrays : F.Strays i name := ⟨last, leads, declared⟩
      rw [update]
      refine ⟨Or.inl rfl, fun outcome h => ?_⟩
      obtain rfl := Except.ok.inj h
      simp [hno, hstrays]
    | declared last d leads declared plain scope update =>
      have hno := not_passes_of_ends hF hr hne leads (not_refers_of_plain declared plain)
        (ne_moduleVersionName hF declared)
      have hstrays := not_strays_of_declared leads declared plain
      obtain ⟨m, hm, hdeclares⟩ := exists_module_of_declaration? declared
      rw [update, scope, overwrite]
      cases hw : r.written? last d.value text with
      | error e => exact ⟨Or.inl rfl, fun outcome h => by cases h⟩
      | ok written =>
        refine ⟨?_, fun outcome h => ?_⟩
        · cases written with
          | none => exact Or.inl rfl
          | some new => exact Or.inr ⟨m, d.place, d.value, new, hm, hdeclares, rfl⟩
        · obtain rfl := Except.ok.inj h
          simp [hno, hstrays]

theorem layered_update_lands :
    layeredForest.NoFieldNames ∧ Placeholder.isName "alias".toList = true ∧
      "alias" ≠ moduleVersionName ∧ layeredForest.declaringScope 1 "alias" = ⟨0, "full"⟩ ∧
      (∃ m place old new, layeredForest.modules[0]? = some m ∧
        m.declaration? "full" = some (place, old) ∧
        (layeredForest.update 1 suffixedRequest "alias").1 =
          layeredForest.setProperty ⟨0, place, old⟩ "full" new) ∧
      (layeredForest.update 1 suffixedRequest "alias").2 = .ok .found ∧
      ¬ layeredForest.Passes 1 suffixedRequest "alias" ∧ ¬ layeredForest.Strays 1 "alias" := by
  have hscope : layeredForest.declaringScope 1 "alias" = ⟨0, "full"⟩ := by decide +kernel
  have hfound : (layeredForest.update 1 suffixedRequest "alias").2 = .ok .found := by
    decide +kernel
  have hwritten : (layeredForest.update 1 suffixedRequest "alias").1 ≠ layeredForest := by
    intro hsame
    have hvalue := congrArg (Forest.property? · 0 .main "full") hsame
    exact absurd hvalue (by decide +kernel)
  have hlands := update_lands_in_scope (F := layeredForest) (by decide) (by decide)
    (by decide : "alias" ≠ moduleVersionName) 1 suffixedRequest
  rw [hscope] at hlands
  exact ⟨by decide, by decide, by decide, hscope, hlands.1.resolve_left hwritten, hfound,
    (hlands.2 .found hfound).2.2.1 rfl⟩

end Scope

section Frame

/-- Forests that differ at most in the value of the one entry at a position of a table. -/
structure ValueReplaced (F G : Forest) (holder : Nat) (place : Place) (position : Nat)
    (name old new : String) : Prop where
  links : G.links = F.links
  profiles : ∀ i, G.profiles? i = F.profiles? i
  versions : ∀ i, G.version? i = F.version? i
  elsewhere : ∀ i other, ¬ (i = holder ∧ other = place) → G.body? i other = F.body? i other
  artifacts : ∀ kind, G.artifacts? holder place kind = F.artifacts? holder place kind
  entry : ∃ before after, F.properties? holder place = some before ∧
    G.properties? holder place = some after ∧ before.rows[position]? = some (name, old) ∧
    after.rows = before.rows.set position (name, new)

/-- An entry that keeps its value. -/
theorem valueReplaced_self (h : F.declaration? i name = some d) :
    ∃ position, ValueReplaced F F d.holder d.place position name d.value d.value := by
  obtain ⟨table, htable, hget⟩ := Option.bind_eq_some_iff.1 (property?_of_declaration? h)
  obtain ⟨position, hold, -⟩ := Table.exists_rows_insert hget d.value
  obtain ⟨hlt, hrow⟩ := List.getElem?_eq_some_iff.1 hold
  exact ⟨position, rfl, fun _ => rfl, fun _ => rfl, fun _ _ _ => rfl, fun _ => rfl,
    table, table, htable, htable, hold, by rw [← hrow, List.set_getElem_self]⟩

theorem body?_setProperty (F : Forest) (d : Declaration) (name value : String) (j : Nat)
    (other : Place) :
    (F.setProperty d name value).body? j other =
      if d.holder = j ∧ d.place = other then
        (F.body? j other).map fun body =>
          { body with properties := body.properties.insert name value }
      else F.body? j other :=
  F.body?_modifyBody d.holder d.place _ (Module.link_modifyBody d.place _) j other

theorem valueReplaced_setProperty (h : F.declaration? i name = some d) (new : String) :
    ∃ position, ValueReplaced F (F.setProperty d name new) d.holder d.place position name d.value
      new := by
  have hframed := framed_setProperty h new
  obtain ⟨table, htable, hget⟩ := Option.bind_eq_some_iff.1 (property?_of_declaration? h)
  obtain ⟨body, hbody, rfl⟩ := Option.map_eq_some_iff.1 htable
  obtain ⟨position, hold, hrows⟩ := Table.exists_rows_insert hget new
  refine ⟨position, hframed.links, hframed.profiles, F.version?_setProperty d name new,
    fun j other hne => ?_, F.artifacts?_setProperty d name new d.holder d.place,
    body.properties, body.properties.insert name new, htable, ?_, hold, hrows⟩
  · rw [body?_setProperty, if_neg fun he => hne ⟨he.1.symm, he.2.symm⟩]
  · rw [properties?, body?_setProperty, if_pos ⟨rfl, rfl⟩, hbody]
    rfl

/-- An update changes nothing, or it finds a declared value and replaces it where it stands. -/
theorem update_replaces_value (F : Forest) (i : Nat) (r : UpdateRequest) (name : String) :
    ((F.update i r name).2 ≠ .ok .found → (F.update i r name).1 = F) ∧
    ((F.update i r name).2 = .ok .found →
      ∃ holder place position key old new, holder ∈ F.ancestors i ∧ place ∈ F.placesOf holder ∧
        ValueReplaced F (F.update i r name).1 holder place position key old new) := by
  rcases F.updateFollowing_cases i r (F.declaredNames i) name with
    ⟨hsame, hnot⟩ | ⟨last, d, resolved, written, hl, hu⟩
  · exact ⟨fun _ => hsame, fun hfound => absurd hfound hnot⟩
  · rw [update, hu]
    refine ⟨fun hnot => absurd rfl hnot, fun _ => ?_⟩
    have hreplaced : ∃ position new,
        ValueReplaced F (F.rewrite d last written) d.holder d.place position last d.value new := by
      cases written with
      | none =>
        obtain ⟨position, hself⟩ := valueReplaced_self hl.declared
        exact ⟨position, d.value, hself⟩
      | some new =>
        obtain ⟨position, hset⟩ := valueReplaced_setProperty hl.declared new
        exact ⟨position, new, hset⟩
    obtain ⟨position, new, hreplaced⟩ := hreplaced
    exact ⟨d.holder, d.place, position, last, d.value, new, (declaration?_holder hl.declared).1,
      place_mem_of_declaration? hl.declared, hreplaced⟩

end Frame

end Forest
end Realign
