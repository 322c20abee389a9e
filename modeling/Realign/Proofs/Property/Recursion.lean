import Mathlib.Data.List.Chain
import Mathlib.Data.List.Dedup
import Mathlib.Data.List.Perm.Subperm
import Realign.Proofs.Lists
import Realign.Proofs.Property.Rewording

/-!
How often an update is handed on. It goes from a name to the one that the declared value refers
to. If it came to a name again it would do so forever, for nothing has changed on the way.
Resolution would have found such a circle, unless it goes another way: where a property has the
name of a module field, resolution reads the field and never sees what the property refers to.
Without such a property in the circle no name is met twice, and there is at most one call more
than there are names.
-/
namespace Realign.Forest

open Relation

variable {F : Forest} {i : Nat} {r : UpdateRequest} {name other x y : String}

/-- An update of the name does not end before its declaration is looked at. -/
def Moves (F : Forest) (i : Nat) (r : UpdateRequest) (name : String) : Prop :=
  name ≠ moduleVersionName ∧
    ∃ text, F.resolve i (Placeholder.spell name) = .ok text ∧ text ≠ r.value

/-- An update of the one name is handed on to the other. -/
def HandsOn (F : Forest) (i : Nat) (r : UpdateRequest) (name other : String) : Prop :=
  F.Moves i r name ∧ F.Refers i name other

/-- The references of the name lead round in a circle that resolution does not follow, because it
reads a module field there, and nothing on the way ends an update. -/
structure Circles (F : Forest) (i : Nat) (r : UpdateRequest) (name : String) : Prop where
  moves : F.Moves i r name
  circle : ∃ x, F.Leads i name x ∧ TransGen (F.Refers i) x x ∧ (F.fieldText? i x).isSome
  fields : ∀ x, F.Leads i name x → (F.fieldText? i x).isSome → F.Moves i r x

/-- The names of all properties, each once. -/
def propertyNames (F : Forest) : List String :=
  (F.modules.flatMap fun m => m.bodies.flatMap fun body => body.properties.keys).dedup

/-- The update without a record of the names that were followed: it is handed on at most so many
times, and has a given outcome where it would be handed on again. -/
def updateWithin (F : Forest) (i : Nat) (r : UpdateRequest)
    (deeper : Forest × Except AlignError UpdateOutcome) :
    Nat → String → Forest × Except AlignError UpdateOutcome
  | depth, name =>
    if name = moduleVersionName then (F, .ok .ignored)
    else match F.resolve i (Placeholder.spell name) with
      | .error e => (F, .error (.resolve e))
      | .ok resolved =>
        if resolved = r.value then (F, .ok .ignored)
        else match F.declaration? i name with
          | none => (F, .ok .notFound)
          | some d =>
            match Placeholder.bare? d.value with
            | some other =>
              match depth with
              | 0 => deeper
              | depth + 1 => updateWithin F i r deeper depth other
            | none =>
              match r.written? name d.value resolved with
              | .error e => (F, .error e)
              | .ok none => (F, .ok .found)
              | .ok (some value) => (F.setProperty d name value, .ok .found)

section Calls

variable {deeper : Forest × Except AlignError UpdateOutcome} {available : List String}

theorem refers_rightUnique (F : Forest) (i : Nat) : Relator.RightUnique (F.Refers i) := by
  intro name other other' h h'
  obtain ⟨d, hd, ho⟩ := h
  obtain ⟨e, he, ho'⟩ := h'
  rw [hd] at he
  obtain rfl := Option.some.inj he
  rw [ho] at ho'
  exact Option.some.inj ho'

theorem updateFollowing_of_handsOn (h : F.HandsOn i r name other) :
    F.updateFollowing i r available name =
      if name ∈ available then F.updateFollowing i r (without name available) other
      else (F, .error (.endlessReference name)) := by
  obtain ⟨⟨hv, text, hr, hne⟩, d, hd, ho⟩ := h
  rw [updateFollowing, if_neg hv, hr]
  simp only [hne, hd, if_false]
  split
  · rename_i other' ho'
    rw [ho] at ho'
    obtain rfl := Option.some.inj ho'
    split <;> simp [*]
  · rename_i hn
    rw [ho] at hn
    cases hn

theorem updateWithin_of_handsOn (h : F.HandsOn i r name other) (depth : Nat) :
    F.updateWithin i r deeper 0 name = deeper ∧
      F.updateWithin i r deeper (depth + 1) name = F.updateWithin i r deeper depth other := by
  obtain ⟨⟨hv, text, hr, hne⟩, d, hd, ho⟩ := h
  constructor
  · rw [updateWithin, if_neg hv, hr]
    simp only [hne, hd, ho, if_false]
  · rw [updateWithin, if_neg hv, hr]
    simp only [hne, hd, ho, if_false]

theorem written?_ne_endlessReference (r : UpdateRequest) (name declared resolved : String) :
    r.written? name declared resolved ≠ .error (.endlessReference x) := by
  unfold UpdateRequest.written?
  repeat' split
  all_goals simp

/-- Where an update ends, no record of names is looked at. -/
theorem updateWithin_of_ends (h : ∀ other, ¬ F.HandsOn i r name other) (depth : Nat) :
    F.updateWithin i r deeper depth name = F.updateFollowing i r available name ∧
      ∀ x, (F.updateFollowing i r available name).2 ≠ .error (.endlessReference x) := by
  rw [updateWithin, updateFollowing]
  by_cases hv : name = moduleVersionName
  · simp [hv]
  cases hr : F.resolve i (Placeholder.spell name) with
  | error e => simp [hv]
  | ok text =>
    by_cases hne : text = r.value
    · simp [hv, hne]
    cases hd : F.declaration? i name with
    | none => simp [hv, hne]
    | some d =>
      cases hb : Placeholder.bare? d.value with
      | some other => exact absurd ⟨⟨hv, text, hr, hne⟩, d, hd, hb⟩ (h other)
      | none =>
        have hfault (x : String) := written?_ne_endlessReference (x := x) r name d.value text
        cases hw : r.written? name d.value text with
        | error e =>
          rw [hw] at hfault
          refine ⟨by simp [hv, hne, hb, hw], fun x => ?_⟩
          simpa [hv, hne, hb, hw] using hfault x
        | ok written => cases written <;> simp [hv, hne, hb, hw]

/-- A circle can be entered at every name that leads into it. -/
theorem exists_handsOn_of_transGen (h : ReflTransGen (F.HandsOn i r) name x)
    (hx : TransGen (F.HandsOn i r) x x) :
    ∃ other, F.HandsOn i r name other ∧ ReflTransGen (F.HandsOn i r) other x := by
  rcases ReflTransGen.cases_head_iff.1 h with rfl | hstep
  · exact TransGen.head'_iff.1 hx
  · exact hstep

/-- Calls that come to a name again never end. -/
theorem updateWithin_of_transGen (h : ReflTransGen (F.HandsOn i r) name x)
    (hx : TransGen (F.HandsOn i r) x x) (depth : Nat) :
    F.updateWithin i r deeper depth name = deeper := by
  induction depth generalizing name with
  | zero =>
    obtain ⟨other, hstep, -⟩ := exists_handsOn_of_transGen h hx
    exact (updateWithin_of_handsOn hstep 0).1
  | succ depth ih =>
    obtain ⟨other, hstep, hrest⟩ := exists_handsOn_of_transGen h hx
    rw [(updateWithin_of_handsOn hstep depth).2]
    exact ih hrest

theorem updateFollowing_of_transGen (h : ReflTransGen (F.HandsOn i r) name x)
    (hx : TransGen (F.HandsOn i r) x x) :
    ∃ last, F.updateFollowing i r available name = (F, .error (.endlessReference last)) := by
  induction hlen : available.length using Nat.strong_induction_on generalizing available name
  rename_i n ih
  obtain ⟨other, hstep, hrest⟩ := exists_handsOn_of_transGen h hx
  rw [updateFollowing_of_handsOn hstep]
  split
  · rename_i hav
    exact ih _ (hlen ▸ length_without_lt hav) hrest rfl
  · exact ⟨name, rfl⟩

/-- Calls that come to no name again are those of an update, if there are so many at most. -/
theorem updateWithin_eq {depth : Nat}
    (hdepth : ∀ names, List.IsChain (F.HandsOn i r) (name :: names) → names.length ≤ depth)
    (hself : ∀ x, ReflTransGen (F.HandsOn i r) name x → ¬ TransGen (F.HandsOn i r) x x)
    (seen : ∀ x ∈ F.declaredNames i, x ∉ available → TransGen (F.HandsOn i r) x name) :
    F.updateWithin i r deeper depth name = F.updateFollowing i r available name ∧
      ∀ last, (F.updateFollowing i r available name).2 ≠ .error (.endlessReference last) := by
  induction depth generalizing name available with
  | zero =>
    apply updateWithin_of_ends
    intro other hstep
    have hone := hdepth [other] (List.isChain_pair.2 hstep)
    simp at hone
  | succ depth ih =>
    by_cases hex : ∃ other, F.HandsOn i r name other
    · obtain ⟨other, hstep⟩ := hex
      have hav : name ∈ available := by
        obtain ⟨-, d, hd, -⟩ := hstep
        by_contra hnot
        exact hself name .refl (seen name (mem_declaredNames_of_declaration? hd) hnot)
      rw [(updateWithin_of_handsOn hstep depth).2, updateFollowing_of_handsOn hstep, if_pos hav]
      apply ih
      · intro names hnames
        have hlonger := hdepth (other :: names) (List.isChain_cons_cons.2 ⟨hstep, hnames⟩)
        simpa using hlonger
      · intro x hx
        exact hself x (.head hstep hx)
      · intro x hx hnot
        by_cases hxn : x = name
        · exact hxn ▸ .single hstep
        · have hnot' : x ∉ available := by
            intro hmem
            exact hnot (List.mem_filter.2 ⟨hmem, by simpa using hxn⟩)
          exact (seen x hx hnot').tail hstep
    · exact updateWithin_of_ends (fun other hstep => hex ⟨other, hstep⟩) _

theorem mem_propertyNames {place : Place} {value : String}
    (h : F.property? i place name = some value) : name ∈ F.propertyNames := by
  have hall : ∀ m ∈ F.modules, ∀ body ∈ m.bodies, ∀ row ∈ body.properties.rows,
      row.1 ∈ F.propertyNames := by
    intro m hm body hbody row hrow
    rw [propertyNames, List.mem_dedup]
    exact List.mem_flatMap.2 ⟨m, hm, List.mem_flatMap.2 ⟨body, hbody, List.mem_map_of_mem hrow⟩⟩
  exact forall_property?_iff (P := fun name _ => name ∈ F.propertyNames).2 hall _ _ _ _ h

/-- All names of a chain of calls but the last one are declared. -/
theorem dropLast_subset_propertyNames {names : List String}
    (h : List.IsChain (F.HandsOn i r) (name :: names)) :
    (name :: names).dropLast ⊆ F.propertyNames := by
  induction names generalizing name with
  | nil => exact List.nil_subset _
  | cons other names ih =>
    obtain ⟨⟨-, d, hd, -⟩, hrest⟩ := List.isChain_cons_cons.1 h
    rw [List.dropLast_cons_cons]
    exact List.cons_subset.2 ⟨mem_propertyNames (property?_of_declaration? hd), ih hrest⟩

theorem length_le_of_nodup {names : List String}
    (h : List.IsChain (F.HandsOn i r) (name :: names)) (hnodup : (name :: names).Nodup) :
    names.length ≤ F.propertyNames.length := by
  have hsub := (hnodup.sublist (List.dropLast_sublist _)).subperm (dropLast_subset_propertyNames h)
  simpa using hsub.length_le

end Calls

section Circle

/-- Where a property is declared, there is a module whose version goes by that name. -/
theorem fieldText?_moduleVersionName {d : Declaration} (h : F.declaration? i name = some d) :
    (F.fieldText? i moduleVersionName).isSome := by
  have hmem := mem_declaredNames_of_declaration? h
  obtain ⟨m, hm, -⟩ := List.mem_flatMap.1 hmem
  have hne : F.lineage i ≠ [] := List.ne_nil_of_mem hm
  have hlast : (F.resolver i).last.isSome := List.getLast?_isSome.2 hne
  obtain ⟨last, hlast⟩ := Option.isSome_iff_exists.1 hlast
  have hfield : FieldName.ofText? moduleVersionName = some ⟨false, .version⟩ := by decide
  rw [fieldText?, hfield, Option.bind_some, Resolver.field?, hlast]
  rfl

/-- A name that no field has resolves as the one that it refers to. -/
theorem Refers.resolve_iff_of_not_field (hf : F.fieldText? i name = none)
    (hname : Placeholder.isName name.toList = true) (h : F.Refers i name other) (text : String) :
    F.resolve i (Placeholder.spell name) = .ok text ↔
      F.resolve i (Placeholder.spell other) = .ok text := by
  obtain ⟨d, hd, ho⟩ := h
  have hlook : (F.resolver i).lookup (String.ofList name.toList) = some d.value := by
    rw [String.ofList_toList, lookup_eq, hf, hd]
    rfl
  rw [← (Placeholder.bare?_eq_some.1 ho).1, resolve, resolve, Resolver.resolve_eq_ok_iff,
    Resolver.resolve_eq_ok_iff, Placeholder.spell, String.toList_ofList]
  exact unfolds_spellChars_iff (Placeholder.closing_not_mem_of_isName hname) hlook

/-- No name resolves whose references lead round in a circle without a field. -/
theorem not_unfoldsWithin_of_circle {n : Nat} {out : List Char}
    (hplain : ∀ y, F.Leads i x y → F.fieldText? i y = none)
    (hname : Placeholder.isName x.toList = true) (hx : TransGen (F.Refers i) x x) :
    ¬ UnfoldsWithin (F.resolver i).lookup n (Piece.ofText (Placeholder.spellChars x.toList))
      out := by
  induction n using Nat.strong_induction_on generalizing x out with
  | h n ih =>
    intro h
    obtain ⟨other, hstep, hback⟩ := TransGen.head'_iff.1 hx
    obtain ⟨d, hd, ho⟩ := hstep
    have hlook : (F.resolver i).lookup (String.ofList x.toList) = some d.value := by
      rw [String.ofList_toList, lookup_eq, hplain x .refl, hd]
      rfl
    obtain ⟨m, hm, inner, hi⟩ :=
      h.exists_lt_of_spellChars (Placeholder.closing_not_mem_of_isName hname) hlook
    obtain ⟨hv, hother⟩ := Placeholder.bare?_eq_some.1 ho
    rw [hv, Placeholder.spell, String.toList_ofList] at hi
    have hstep : F.Refers i x other := ⟨d, hd, ho⟩
    exact ih m hm (fun y hy => hplain y (.head hstep hy)) hother (.tail' hback hstep) hi

theorem exists_field_of_circle {text : String} (hx : TransGen (F.Refers i) x x)
    (hr : F.resolve i (Placeholder.spell x) = .ok text) :
    ∃ y, F.Leads i x y ∧ (F.fieldText? i y).isSome := by
  by_contra hnone
  have hplain (y : String) (hy : F.Leads i x y) : F.fieldText? i y = none := by
    rw [← Option.not_isSome_iff_eq_none]
    exact fun hf => hnone ⟨y, hy, hf⟩
  obtain ⟨before, -, hlast⟩ := TransGen.tail'_iff.1 hx
  rw [resolve, Resolver.resolve_eq_ok_iff, Placeholder.spell, String.toList_ofList] at hr
  obtain ⟨n, hn⟩ := hr.exists_within
  exact not_unfoldsWithin_of_circle hplain hlast.isName hx hn

/-- Whatever a circle leads to leads back into it. -/
theorem leads_back (hx : TransGen (F.Refers i) x x) (h : F.Leads i x y) : F.Leads i y x := by
  induction h with
  | refl => exact .refl
  | tail _ hstep ih =>
    rcases ReflTransGen.cases_head_iff.1 ih with rfl | ⟨other, hother, hrest⟩
    · obtain ⟨other, hother, hrest⟩ := TransGen.head'_iff.1 hx
      rwa [refers_rightUnique F i hstep hother]
    · rwa [refers_rightUnique F i hstep hother]

/-- A name that leads to a field moves if the fields do that it leads to. -/
theorem moves_of_leads (hfields : ∀ z, F.Leads i name z → (F.fieldText? i z).isSome → F.Moves i r z)
    (hname : Placeholder.isName name.toList = true) (h : F.Leads i name x)
    (hx : (F.fieldText? i x).isSome) : F.Moves i r name := by
  induction h using ReflTransGen.head_induction_on with
  | refl => exact hfields x .refl hx
  | @head y z hstep _ ih =>
    cases hf : F.fieldText? i y with
    | some text => exact hfields y .refl (by rw [hf]; rfl)
    | none =>
      obtain ⟨-, text, hr, hne⟩ := ih (fun w hw => hfields w (.head hstep hw)) hstep.isName
      refine ⟨?_, text, (hstep.resolve_iff_of_not_field hf hname text).2 hr, hne⟩
      rintro rfl
      obtain ⟨d, hd, -⟩ := hstep
      have hversion := fieldText?_moduleVersionName hd
      rw [hf] at hversion
      cases hversion

theorem leads_of_handsOn (h : ReflTransGen (F.HandsOn i r) name x) : F.Leads i name x :=
  ReflTransGen.mono (fun _ _ hstep => hstep.2) _ _ h

theorem Circles.of_transGen (h : ReflTransGen (F.HandsOn i r) name x)
    (hx : TransGen (F.HandsOn i r) x x) : F.Circles i r name := by
  -- whatever the name leads to is on the way into the circle
  have hway (y : String) (hy : F.Leads i name y) : ReflTransGen (F.HandsOn i r) y x := by
    induction hy with
    | refl => exact h
    | tail _ hstep ih =>
      obtain ⟨other, hother, hrest⟩ := exists_handsOn_of_transGen ih hx
      rwa [refers_rightUnique F i hstep hother.2]
  have hmoves (y : String) (hy : F.Leads i name y) : F.Moves i r y := by
    obtain ⟨other, hother, -⟩ := exists_handsOn_of_transGen (hway y hy) hx
    exact hother.1
  have hcircle : TransGen (F.Refers i) x x := TransGen.mono (fun _ _ hstep => hstep.2) _ _ hx
  obtain ⟨-, text, hr, -⟩ := hmoves x (leads_of_handsOn h)
  obtain ⟨y, hy, hf⟩ := exists_field_of_circle hcircle hr
  have hback := leads_back hcircle hy
  exact ⟨hmoves name .refl,
    ⟨y, (leads_of_handsOn h).trans hy, TransGen.trans_right hback (hcircle.trans_left hy), hf⟩,
    fun z hz _ => hmoves z hz⟩

theorem Circles.exists_transGen (h : F.Circles i r name) :
    ∃ x, ReflTransGen (F.HandsOn i r) name x ∧ TransGen (F.HandsOn i r) x x := by
  obtain ⟨x, hx, hcircle, hf⟩ := h.circle
  have hmoves (y : String) (hy : F.Leads i name y) : F.Moves i r y := by
    have hyx : F.Leads i y x := by
      rcases ReflTransGen.total_of_right_unique (refers_rightUnique F i) hy hx with hyx | hxy
      · exact hyx
      · exact leads_back hcircle hxy
    rcases (ReflTransGen.cases_tail_iff _ _ _).1 hy with rfl | ⟨before, -, hlast⟩
    · exact h.moves
    · exact moves_of_leads (fun z hz => h.fields z (hy.trans hz)) hlast.isName hyx hf
  have hcalls (y z : String) (hy : F.Leads i name y) (hyz : F.Leads i y z) :
      ReflTransGen (F.HandsOn i r) y z := by
    induction hyz with
    | refl => exact .refl
    | tail hz hstep ih => exact ih.tail ⟨hmoves _ (hy.trans hz), hstep⟩
  obtain ⟨other, hstep, hback⟩ := TransGen.head'_iff.1 hcircle
  exact ⟨x, hcalls name x .refl hx,
    .head' ⟨hmoves x hx, hstep⟩ (hcalls other x (hx.tail hstep) hback)⟩

theorem not_circles (hF : F.NoFieldNames) : ¬ F.Circles i r name := by
  intro h
  obtain ⟨x, -, hx, hf⟩ := h.circle
  obtain ⟨-, ⟨d, hd, -⟩, -⟩ := TransGen.head'_iff.1 hx
  rw [fieldText?, hF _ _ _ _ (property?_of_declaration? hd)] at hf
  cases hf

end Circle

section Straight

variable (deeper : Forest × Except AlignError UpdateOutcome) {depth : Nat} {names : List String}
  (h : ¬ F.Circles i r name)

include h

theorem nodup_of_not_circles (hnames : List.IsChain (F.HandsOn i r) (name :: names)) :
    (name :: names).Nodup := by
  by_contra hnot
  obtain ⟨x, hx, hself⟩ := exists_transGen_of_not_nodup hnames hnot
  exact h (.of_transGen hx hself)

theorem updateWithin_of_not_circles (hdepth : F.propertyNames.length ≤ depth) :
    F.updateWithin i r deeper depth name = F.update i r name ∧
      ∀ last, (F.update i r name).2 ≠ .error (.endlessReference last) := by
  apply updateWithin_eq
  · intro names hnames
    exact (length_le_of_nodup hnames (nodup_of_not_circles h hnames)).trans hdepth
  · intro x hx hself
    exact h (.of_transGen hx hself)
  · intro x hx hnot
    exact absurd hx hnot

/-- What is handed on comes to the same as if it had been asked for in the first place. -/
theorem update_of_handsOn (hstep : F.HandsOn i r name other) :
    F.update i r name = F.update i r other := by
  have hother : ¬ F.Circles i r other := by
    intro hcircles
    obtain ⟨x, hx, hself⟩ := hcircles.exists_transGen
    exact h (.of_transGen (.head hstep hx) hself)
  calc F.update i r name
      = F.updateWithin i r (F, .ok .ignored) (F.propertyNames.length + 1) name :=
        (updateWithin_of_not_circles _ h (Nat.le_succ _)).1.symm
    _ = F.updateWithin i r (F, .ok .ignored) F.propertyNames.length other :=
        (updateWithin_of_handsOn hstep _).2
    _ = F.update i r other := (updateWithin_of_not_circles _ hother (Nat.le_refl _)).1

end Straight

/-- An update comes to no name twice unless its references lead round in a circle that a module
field hides. Then it makes no more than one call for each name and one more, and a record of the
names changes nothing; otherwise it never ends. -/
theorem calls_nodup_iff (F : Forest) (i : Nat) (r : UpdateRequest) (name : String) :
    ((∀ names, List.IsChain (F.HandsOn i r) (name :: names) → (name :: names).Nodup) ↔
      ¬ F.Circles i r name) ∧
    (¬ F.Circles i r name →
      (∀ names, List.IsChain (F.HandsOn i r) (name :: names) →
        names.length ≤ F.propertyNames.length) ∧
      (∀ deeper, F.updateWithin i r deeper F.propertyNames.length name = F.update i r name) ∧
      ∀ last, (F.update i r name).2 ≠ .error (.endlessReference last)) ∧
    (F.Circles i r name →
      (∀ deeper depth, F.updateWithin i r deeper depth name = deeper) ∧
      ∃ last, F.update i r name = (F, .error (.endlessReference last))) ∧
    (F.NoFieldNames → ¬ F.Circles i r name) := by
  refine ⟨⟨fun hall h => ?_, fun h names => nodup_of_not_circles h⟩,
    fun h => ⟨fun names hnames => ?_, fun deeper => ?_, ?_⟩, fun h => ?_, fun hF => not_circles hF⟩
  · obtain ⟨x, hx, hself⟩ := h.exists_transGen
    obtain ⟨names, hnames, hnot⟩ := exists_chain_of_transGen hx hself
    exact hnot (hall names hnames)
  · exact length_le_of_nodup hnames (nodup_of_not_circles h hnames)
  · exact (updateWithin_of_not_circles deeper h (Nat.le_refl _)).1
  · exact (updateWithin_of_not_circles (F, .ok .ignored) h (Nat.le_refl _)).2
  · obtain ⟨x, hx, hself⟩ := h.exists_transGen
    exact ⟨fun _ depth => updateWithin_of_transGen hx hself depth,
      updateFollowing_of_transGen hx hself⟩

/-- Two properties that refer to each other, one of them by the name of a module field. -/
def hidingForest : Forest where
  modules := [
    { ident := ⟨"org.foo", "app"⟩, version := "1.0",
      main.properties := .ofRows [
        ("alias", "$\x7bproject.groupId\x7d"), ("project.groupId", "$\x7balias\x7d")] }]
  grounded := ⟨by decide, by decide⟩

theorem not_forall_calls_nodup :
    ¬ ∀ (F : Forest) (i : Nat) (r : UpdateRequest) (name : String) (names : List String),
      List.IsChain (F.HandsOn i r) (name :: names) → (name :: names).Nodup := by
  intro hall
  have hstep (name other : String) (h : name ≠ moduleVersionName)
      (hr : hidingForest.resolve 0 (Placeholder.spell name) = .ok "org.foo")
      (hd : hidingForest.declaration? 0 name = some ⟨0, .main, Placeholder.spell other⟩)
      (ho : Placeholder.bare? (Placeholder.spell other) = some other) :
      hidingForest.HandsOn 0 ⟨{}, false, "2.0"⟩ name other :=
    ⟨⟨h, "org.foo", hr, by decide⟩, _, hd, ho⟩
  have hthere := hstep "alias" "project.groupId" (by decide) (by decide +kernel)
    (by decide +kernel) (by decide +kernel)
  have hback := hstep "project.groupId" "alias" (by decide) (by decide +kernel)
    (by decide +kernel) (by decide +kernel)
  have hnodup := hall _ _ _ "alias" ["project.groupId", "alias"]
    (List.isChain_cons_cons.2 ⟨hthere, List.isChain_pair.2 hback⟩)
  exact absurd hnodup (by decide)

end Realign.Forest
