import Realign.Proofs.Property.Revision

/-!
Forests in which the same references stand. Which module declares a name, and which name its
value hands the question on to, is all that following references looks at, so the scope of
a property is the same in both. When literal values have given way to literal values and the
module fields are the same, what resolved before resolves still, a name whose references end
neither at a literal value nor at a module field resolves to the same text, and an update made
once more does nothing.
-/
namespace Realign

open Text

/-- Where the same names are known and each stands for the same value or for a literal one, what
unfolded before unfolds still. -/
theorem Unfolds.exists_of_alike {look look' : String → Option String} {pieces : List Piece}
    {out : List Char} (hnone : ∀ name, look name = none → look' name = none)
    (hsome : ∀ name raw, look name = some raw →
      ∃ raw', look' name = some raw' ∧ (raw' = raw ∨ Placeholder.occursIn raw' = false))
    (h : Unfolds look pieces out) : ∃ out', Unfolds look' pieces out' := by
  induction h with
  | nil => exact ⟨_, .nil⟩
  | literal _ ih =>
    obtain ⟨out, ho⟩ := ih
    exact ⟨_, .literal ho⟩
  | unknown hn _ ih =>
    obtain ⟨out, ho⟩ := ih
    exact ⟨_, .unknown (hnone _ hn) ho⟩
  | known hn _ _ ihi ih =>
    obtain ⟨out, ho⟩ := ih
    obtain ⟨raw', hraw', rfl | hlit⟩ := hsome _ _ hn
    · obtain ⟨inner, hi⟩ := ihi
      exact ⟨_, .known hraw' hi ho⟩
    · exact ⟨_, .known hraw' ((unfolds_literal_iff hlit).2 rfl) ho⟩

/-- A placeholder of an unknown name stays as it is written. -/
theorem unfolds_spellChars_of_unknown {look : String → Option String} {name : List Char}
    (h : Placeholder.closing ∉ name) (hn : look (String.ofList name) = none) :
    Unfolds look (Piece.ofText (Placeholder.spellChars name)) (Placeholder.spellChars name) := by
  have hu : Unfolds look [.literal [], .reference name, .literal []]
      ([] ++ (Placeholder.spellChars name ++ ([] ++ []))) := .literal (.unknown hn (.literal .nil))
  rw [ofText_spellChars h]
  simpa using hu

namespace Forest

/-- The module that declares a name, as seen from a module, and the name that it is handed on to. -/
def reference? (F : Forest) (i : Nat) (name : String) : Option (Nat × Option String) :=
  (F.declaration? i name).map fun d => (d.holder, Placeholder.bare? d.value)

section Following

variable {F G : Forest} {i : Nat}

theorem exists_declaration?_of_reference? (h : ∀ name, G.reference? i name = F.reference? i name)
    {name : String} {d : Declaration} (hd : F.declaration? i name = some d) :
    ∃ d', G.declaration? i name = some d' ∧ d'.holder = d.holder ∧
      Placeholder.bare? d'.value = Placeholder.bare? d.value := by
  have hname := h name
  rw [reference?, reference?, hd] at hname
  obtain ⟨d', hd', he⟩ := Option.map_eq_some_iff.1 hname
  exact ⟨d', hd', (Prod.mk.inj he).1, (Prod.mk.inj he).2⟩

theorem declaration?_eq_none_of_reference?
    (h : ∀ name, G.reference? i name = F.reference? i name) {name : String} :
    G.declaration? i name = none ↔ F.declaration? i name = none := by
  have hname := h name
  rw [← Option.map_eq_none_iff, ← reference?, hname, reference?, Option.map_eq_none_iff]

/-- Following a name depends on the references and on which declared names may be followed. -/
theorem followScope_congr (h : ∀ name, G.reference? i name = F.reference? i name)
    {available available' : List String}
    (hav : ∀ x, F.declaration? i x ≠ none → (x ∈ available' ↔ x ∈ available)) (scope : Scope)
    (name : String) :
    G.followScope i available' scope name = F.followScope i available scope name := by
  induction hlen : available.length using Nat.strong_induction_on
    generalizing available available' scope name with
  | h n ih =>
    rw [followScope, followScope]
    cases hd : F.declaration? i name with
    | none => rw [(declaration?_eq_none_of_reference? h).2 hd]
    | some d =>
      obtain ⟨d', hd', hholder, hbare⟩ := exists_declaration?_of_reference? h hd
      have hname := hav name (by simp [hd])
      rw [hd']
      by_cases hmem : name ∈ available
      · have hmem' := hname.2 hmem
        simp only [hmem, hmem', dite_true, hholder, hbare]
        cases Placeholder.bare? d.value with
        | none => rfl
        | some other =>
          dsimp only
          split
          · rfl
          · apply ih _ (hlen ▸ length_without_lt hmem) _ _ _ rfl
            intro x hx
            rw [without, without, List.mem_filter, List.mem_filter, hav x hx]
      · have hmem' : name ∉ available' := fun hn => hmem (hname.1 hn)
        simp only [hmem, hmem', dite_false]

theorem declaringScope_congr (h : ∀ name, G.reference? i name = F.reference? i name)
    (name : String) : G.declaringScope i name = F.declaringScope i name := by
  apply followScope_congr h
  intro x hx
  obtain ⟨d, hd⟩ := Option.ne_none_iff_exists'.1 hx
  obtain ⟨d', hd', -⟩ := exists_declaration?_of_reference? h hd
  exact iff_of_true (mem_declaredNames_of_declaration? hd') (mem_declaredNames_of_declaration? hd)

end Following

theorem SameProperties.declaringScope {F G : Forest} (h : SameProperties F G) (i : Nat)
    (name : String) : G.declaringScope i name = F.declaringScope i name := by
  apply declaringScope_congr
  intro other
  rw [reference?, reference?, h.declaration?]

section Fields

/-- The text of the module field that a name stands for in the chain of a module. -/
def fieldText? (F : Forest) (i : Nat) (name : String) : Option String :=
  (FieldName.ofText? name).bind (F.resolver i).field?

theorem lookup_eq (F : Forest) (i : Nat) (name : String) :
    (F.resolver i).lookup name =
      (F.fieldText? i name).or ((F.declaration? i name).map Declaration.value) := by
  rw [Resolver.lookup, table_get?_eq_declaration?, fieldText?]
  cases (FieldName.ofText? name).bind (F.resolver i).field? <;> rfl

/-- The fields of all modules are literal. -/
def PlainFields (F : Forest) : Prop :=
  ∀ m ∈ F.modules, ∀ text ∈ [m.version, m.ident.group, m.ident.artifact],
    Placeholder.occursIn text = false

instance (F : Forest) : Decidable F.PlainFields :=
  inferInstanceAs (Decidable (∀ m ∈ F.modules, ∀ text ∈ [m.version, m.ident.group,
    m.ident.artifact], Placeholder.occursIn text = false))

theorem PlainFields.fieldText? {F : Forest} (h : F.PlainFields) {i : Nat} {name text : String}
    (hf : F.fieldText? i name = some text) : Placeholder.occursIn text = false := by
  obtain ⟨field, -, hf⟩ := Option.bind_eq_some_iff.1 hf
  obtain ⟨m, hm, rfl⟩ := Option.map_eq_some_iff.1 hf
  have hchain : m ∈ F.lineage i := by
    split at hm
    · exact List.dropLast_subset _ (List.mem_of_getLast? hm)
    · exact List.mem_of_getLast? hm
  obtain ⟨j, -, hj⟩ := List.mem_filterMap.1 hchain
  apply h m (List.mem_of_getElem? hj)
  cases field.field <;> simp [ModuleField.read]

/-- What the fields of a module are read from. -/
def fields (m : Module) : Ident × String := (m.ident, m.version)

def readField (fields : Ident × String) : ModuleField → String
  | .version => fields.2
  | .group => fields.1.group
  | .artifact => fields.1.artifact

theorem map_fields_lineage (F : Forest) (i : Nat) :
    (F.lineage i).map fields = (F.ancestors i).reverse.filterMap fun j =>
      (F.links[j]?).bind fun link => (F.version? j).map (link.ident, ·) := by
  rw [lineage, List.map_filterMap]
  congr 1
  funext j
  rw [links, List.getElem?_map, version?]
  cases F.modules[j]? <;> rfl

theorem field?_resolver (F : Forest) (i : Nat) (name : FieldName) :
    (F.resolver i).field? name =
      (if name.ofParent then ((F.lineage i).map fields).dropLast.getLast?
        else ((F.lineage i).map fields).getLast?).map (readField · name.field) := by
  have hread (m : Module) : readField (fields m) name.field = name.field.read m := by
    cases name.field <;> rfl
  rw [Resolver.field?, resolver, Resolver.ofChain, ← List.map_dropLast, List.getLast?_map,
    List.getLast?_map]
  split <;> simp [Function.comp_def, hread]

/-- The fields of the modules of a chain depend on their versions and identities only. -/
theorem fieldText?_congr {F G : Forest} (h : SameNames F G)
    (hversions : ∀ i, G.version? i = F.version? i) (i : Nat) (name : String) :
    G.fieldText? i name = F.fieldText? i name := by
  have hfields : (G.lineage i).map fields = (F.lineage i).map fields := by
    rw [map_fields_lineage, map_fields_lineage, h.ancestors, h.links]
    simp only [hversions]
  have hfield (name : FieldName) : (G.resolver i).field? name = (F.resolver i).field? name := by
    rw [field?_resolver, field?_resolver, hfields]
  unfold fieldText?
  congr 1
  funext name
  exact hfield name

/-- What resolves in one of two forests with the same properties and versions resolves to the same
text in the other. -/
theorem SameProperties.resolve_iff {F G : Forest} (h : SameProperties F G)
    (hversions : ∀ i, G.version? i = F.version? i) {i : Nat} {value out : String} :
    G.resolve i value = .ok out ↔ F.resolve i value = .ok out := by
  have hlook : (G.resolver i).lookup = (F.resolver i).lookup := by
    funext name
    rw [lookup_eq, lookup_eq, fieldText?_congr h.sameNames hversions, h.declaration?]
  rw [resolve, resolve, Resolver.resolve_eq_ok_iff, Resolver.resolve_eq_ok_iff, hlook]

section Undeclared

variable {F : Forest} {i : Nat} {name : String}
  (hname : Placeholder.isName name.toList = true)

include hname

/-- The name of a module field resolves to what its text resolves to. -/
theorem resolve_field_iff {text out : String} (hf : F.fieldText? i name = some text) :
    F.resolve i (Placeholder.spell name) = .ok out ↔ F.resolve i text = .ok out := by
  have hknown : (F.resolver i).lookup (String.ofList name.toList) = some text := by
    rw [String.ofList_toList, lookup_eq, hf, Option.some_or]
  rw [resolve, resolve, Resolver.resolve_eq_ok_iff, Resolver.resolve_eq_ok_iff,
    Placeholder.spell, String.toList_ofList,
    unfolds_spellChars_iff (Placeholder.closing_not_mem_of_isName hname) hknown]

/-- A name of no module field that nothing declares stays as it is written. -/
theorem resolve_unknown_iff {out : String} (hf : F.fieldText? i name = none)
    (hd : F.declaration? i name = none) :
    F.resolve i (Placeholder.spell name) = .ok out ↔ out = Placeholder.spell name := by
  have hunknown : (F.resolver i).lookup (String.ofList name.toList) = none := by
    rw [String.ofList_toList, lookup_eq, hf, hd]
    rfl
  have hspelled : F.resolve i (Placeholder.spell name) = .ok (Placeholder.spell name) := by
    rw [resolve, Resolver.resolve_eq_ok_iff, Placeholder.spell, String.toList_ofList]
    exact unfolds_spellChars_of_unknown (Placeholder.closing_not_mem_of_isName hname) hunknown
  rw [hspelled, Except.ok.injEq, eq_comm]

end Undeclared

end Fields

/-- Forests that differ in versions, artifacts and literal values only. -/
structure Reworded (F G : Forest) : Prop where
  names : SameNames F G
  values : ∀ i place name old new, F.property? i place name = some old →
    G.property? i place name = some new →
    new = old ∨ Placeholder.occursIn old = false ∧ Placeholder.occursIn new = false

/-- A scope that declares a literal value for its own module. -/
def LiteralAt (F : Forest) (s : Scope) : Prop :=
  ∃ d, F.declaration? s.holder s.property = some d ∧ Placeholder.occursIn d.value = false

theorem SameProperties.reworded {F G : Forest} (h : SameProperties F G) : Reworded F G where
  names := h.sameNames
  values i place name old new hold hnew := by
    rw [h.property?, hold] at hnew
    exact Or.inl (Option.some.inj hnew).symm

namespace Reworded

variable {F G H : Forest} {i : Nat} {name other : String} {d : Declaration}

theorem symm (h : Reworded F G) : Reworded G F where
  names := h.names.symm
  values i place name old new hold hnew := by
    rcases h.values i place name new old hnew hold with he | hlit
    · exact Or.inl he.symm
    · exact Or.inr hlit.symm

theorem trans (h : Reworded F G) (h' : Reworded G H) : Reworded F H where
  names := h.names.trans h'.names
  values i place name old new hold hnew := by
    have hsome := h.names.names i place name
    rw [hold] at hsome
    obtain ⟨mid, hmid⟩ := Option.isSome_iff_exists.1 hsome
    rcases h.values i place name old mid hold hmid with rfl | hlit
    · exact h'.values i place name mid new hmid hnew
    · rcases h'.values i place name mid new hmid hnew with rfl | hlit'
      · exact Or.inr hlit
      · exact Or.inr ⟨hlit.1, hlit'.2⟩

theorem plainValues (h : Reworded F G) (hF : F.PlainValues) : G.PlainValues := by
  intro i place name new hnew
  have hsome := h.names.names i place name
  rw [hnew] at hsome
  obtain ⟨old, hold⟩ := Option.isSome_iff_exists.1 hsome.symm
  rcases h.values i place name old new hold hnew with rfl | hlit
  · exact hF i place name new hold
  · exact Or.inl hlit.2

theorem declaration? (h : Reworded F G) (hd : F.declaration? i name = some d) :
    ∃ value, G.declaration? i name = some ⟨d.holder, d.place, value⟩ ∧
      (value = d.value ∨
        Placeholder.occursIn d.value = false ∧ Placeholder.occursIn value = false) := by
  have hold := property?_of_declaration? hd
  have hnew := h.names.names d.holder d.place name
  rw [hold] at hnew
  obtain ⟨value, hnew⟩ := Option.isSome_iff_exists.1 hnew
  exact ⟨value, h.names.declaration?_of_property? hd hnew, h.values _ _ _ _ _ hold hnew⟩

theorem reference? (h : Reworded F G) (i : Nat) (name : String) :
    G.reference? i name = F.reference? i name := by
  unfold Forest.reference?
  cases hd : F.declaration? i name with
  | none => rw [h.names.declaration?_eq_none.2 hd]
  | some d =>
    obtain ⟨value, hG, rfl | hlit⟩ := h.declaration? hd
    · rw [hG]
    · rw [hG, Option.map_some, Option.map_some, Placeholder.bare?_of_not_occursIn hlit.1,
        Placeholder.bare?_of_not_occursIn hlit.2]

theorem declaringScope (h : Reworded F G) (i : Nat) (name : String) :
    G.declaringScope i name = F.declaringScope i name :=
  declaringScope_congr (h.reference? i) name

theorem refers (h : Reworded F G) (hr : F.Refers i name other) : G.Refers i name other := by
  obtain ⟨d, hd, ho⟩ := hr
  obtain ⟨d', hd', -, hbare⟩ := exists_declaration?_of_reference? (h.reference? i) hd
  exact ⟨d', hd', hbare.trans ho⟩

theorem leads (h : Reworded F G) (hl : F.Leads i name other) : G.Leads i name other := by
  induction hl with
  | refl => exact Relation.ReflTransGen.refl
  | tail _ hr ih => exact Relation.ReflTransGen.tail ih (h.refers hr)

section Resolving

variable (h : Reworded F G) (hfields : ∀ name, G.fieldText? i name = F.fieldText? i name)

include h hfields

/-- What resolved before resolves still. -/
theorem exists_resolve {value text : String} (hr : F.resolve i value = .ok text) :
    ∃ text', G.resolve i value = .ok text' := by
  have hnone (name : String) (hn : (F.resolver i).lookup name = none) :
      (G.resolver i).lookup name = none := by
    rw [lookup_eq, Option.or_eq_none_iff, Option.map_eq_none_iff] at hn ⊢
    rwa [hfields, h.names.declaration?_eq_none]
  have hsome (name raw : String) (hn : (F.resolver i).lookup name = some raw) :
      ∃ raw', (G.resolver i).lookup name = some raw' ∧
        (raw' = raw ∨ Placeholder.occursIn raw' = false) := by
    rw [lookup_eq] at hn ⊢
    rw [hfields]
    cases hf : F.fieldText? i name with
    | some text =>
      rw [hf] at hn
      exact ⟨raw, hn, Or.inl rfl⟩
    | none =>
      rw [hf, Option.none_or, Option.map_eq_some_iff] at hn
      obtain ⟨d, hd, rfl⟩ := hn
      obtain ⟨value, hG, hv⟩ := h.declaration? hd
      rw [hG]
      exact ⟨value, rfl, hv.imp_right And.right⟩
  rw [resolve, Resolver.resolve_eq_ok_iff] at hr
  obtain ⟨out, ho⟩ := hr.exists_of_alike hnone hsome
  refine ⟨String.ofList out, ?_⟩
  rw [resolve, Resolver.resolve_eq_ok_iff, String.toList_ofList]
  exact ho

/-- A name whose references end at no literal value resolves to the same text, if the module field
that they end at, if any, has a text that does. -/
theorem resolve_spell (hF : F.NoFieldNames) (hplain : F.PlainValues)
    (hname : Placeholder.isName name.toList = true)
    (hsteady : ∀ last text out, F.Leads i name last → F.fieldText? i last = some text →
      F.resolve i text = .ok out → G.resolve i text = .ok out) {text : String}
    (hr : F.resolve i (Placeholder.spell name) = .ok text) :
    F.LiteralAt (F.declaringScope i name) ∨ G.resolve i (Placeholder.spell name) = .ok text := by
  have hundeclared {last : String} (hl : F.Leads i name last) (hd : F.declaration? i last = none) :
      G.resolve i (Placeholder.spell name) = .ok text := by
    have hlast := hl.isName hname
    have hG := h.names.noFieldNames hF
    rw [hl.resolve_iff hF hname] at hr
    rw [(h.leads hl).resolve_iff hG hname]
    cases hf : F.fieldText? i last with
    | some field =>
      rw [resolve_field_iff hlast hf] at hr
      rw [resolve_field_iff hlast (by rw [hfields, hf])]
      exact hsteady last field text hl hf hr
    | none =>
      rw [resolve_unknown_iff hlast hf hd] at hr
      rw [resolve_unknown_iff hlast (by rw [hfields, hf]) (h.names.declaration?_eq_none.2 hd)]
      exact hr
  rcases declaringScope_eq hF hname hr with ⟨hd, -⟩ | ⟨last, d, hl, hd, he, hs⟩
  · exact Or.inr (hundeclared Relation.ReflTransGen.refl hd)
  · rcases hplain _ _ _ _ (property?_of_declaration? hd) with hlit | hbare
    · left
      rw [hs]
      exact ⟨d, (declaration?_holder hd).2, hlit⟩
    · right
      obtain ⟨other, ho⟩ := Option.isSome_iff_exists.1 hbare
      have hnext := Relation.ReflTransGen.tail hl ⟨d, hd, ho⟩
      rcases he other ho with rfl | hn
      · apply hundeclared hnext
        cases hmv : F.declaration? i moduleVersionName with
        | none => rfl
        | some e => exact absurd rfl (ne_moduleVersionName hF hmv)
      · exact hundeclared hnext hn

end Resolving

end Reworded

section Update

variable {F G H : Forest} {s : Scope} {r : UpdateRequest} {d : Declaration} {text : String}

/-- A name that is not followed any further is left alone, without a fault if it resolves. -/
theorem updateFollowing_ok_of_unfollowed {i : Nat} {name : String}
    (h : name = moduleVersionName ∨ F.declaration? i name = none)
    (hr : F.resolve i (Placeholder.spell name) = .ok text) (r : UpdateRequest)
    (available : List String) :
    ∃ outcome, F.updateFollowing i r available name = (F, .ok outcome) := by
  rw [updateFollowing, hr]
  split
  · exact ⟨_, rfl⟩
  · rename_i hv
    dsimp only
    split
    · exact ⟨_, rfl⟩
    · rw [h.resolve_left hv]
      exact ⟨_, rfl⟩

/-- So is a name where references have ended at such a name. -/
theorem update_ok_of_bare (hs : F.Settled s) (hF : F.NoFieldNames) (r : UpdateRequest)
    (hd : F.declaration? s.holder s.property = some d) {other : String}
    (hb : Placeholder.bare? d.value = some other)
    (hr : F.resolve s.holder (Placeholder.spell s.property) = .ok text) :
    ∃ outcome, F.update s.holder r s.property = (F, .ok outcome) := by
  have hother : F.resolve s.holder (Placeholder.spell other) = .ok text := by
    rw [resolve_spell_iff hF hs.name hd] at hr
    rwa [(Placeholder.bare?_eq_some.1 hb).1] at hr
  have hmem := mem_declaredNames_of_declaration? hd
  rw [update, updateFollowing, if_neg (ne_moduleVersionName hF hd)]
  simp only [hr, hd]
  split
  · exact ⟨_, rfl⟩
  · split
    · rename_i other' ho
      rw [hb] at ho
      obtain rfl := Option.some.inj ho
      exact updateFollowing_ok_of_unfollowed (hs.ends d hd other hb) hother r _
    · rename_i ho
      rw [hb] at ho
      cases ho

/-- What an update of a settled scope puts in the place of a literal value is literal. -/
theorem reworded_update (hs : F.Settled s) (hplain : F.PlainValues)
    (hnew : Placeholder.occursIn r.value = false) :
    Reworded F (F.update s.holder r s.property).1 := by
  rcases update_cases hs r with ⟨hsame, -⟩ | ⟨d, resolved, written, hw, hu⟩
  · rw [hsame]
    exact (SameProperties.refl F).reworded
  rw [hu]
  have hd := property?_of_declaration? hw.declared
  have hlit : Placeholder.occursIn d.value = false := by
    have hvalue := hplain _ _ _ _ hd
    rw [hw.plain] at hvalue
    exact hvalue.resolve_right Bool.false_ne_true
  refine ⟨(revised_rewrite hw.declared hw.plain written).names,
    fun i place name old new hold hv => ?_⟩
  by_cases hself : d.holder = i ∧ d.place = place ∧ s.property = name
  · obtain ⟨rfl, rfl, rfl⟩ := hself
    have hv' := property?_of_declaration? (declaration?_rewrite hw.declared written)
    rw [hd] at hold
    rw [hv] at hv'
    obtain rfl := Option.some.inj hold
    obtain rfl := Option.some.inj hv'
    rcases UpdateRequest.written?_eq_ok hw.writes with ⟨-, rfl⟩ | ⟨-, ⟨hcompound, -⟩ | ⟨-, rfl⟩⟩
    · exact Or.inl rfl
    · rw [Placeholder.isCompound_of_not_occursIn hlit] at hcompound
      cases hcompound
    · exact Or.inr ⟨hlit, hnew⟩
  · rw [property?_rewrite_of_ne hw.declared written hself, hold] at hv
    exact Or.inl (Option.some.inj hv).symm

/-- An update of a literal property compares and replaces the literal itself. -/
theorem update_of_literal (hs : F.Settled s) (hF : F.NoFieldNames) (r : UpdateRequest)
    (hd : F.declaration? s.holder s.property = some d)
    (hlit : Placeholder.occursIn d.value = false) :
    F.update s.holder r s.property =
      if d.value = r.value then (F, .ok .ignored)
      else match r.written? s.property d.value d.value with
        | .error e => (F, .error e)
        | .ok written => (F.rewrite d s.property written, .ok .found) := by
  have hr : F.resolve s.holder (Placeholder.spell s.property) = .ok d.value := by
    rw [resolve_spell_iff hF hs.name hd, resolve_literal_iff hlit]
  exact update_of_declared r hd (Placeholder.bare?_of_not_occursIn hlit)
    (ne_moduleVersionName hF hd) hr

section Again

variable (h : Reworded H G) (hH : H.NoFieldNames) (hs : H.Settled s) (hs' : G.Settled s)
  {H' : Forest} {outcome : UpdateOutcome}
  (hok : H.update s.holder r s.property = (H', .ok outcome))
  (hdecl : G.declaration? s.holder s.property = H'.declaration? s.holder s.property)

include h hH hs hs' hok hdecl

/-- An update of a literal property leaves the new value, or the old one where the strict check
stood against the new one, and then does so again. -/
theorem update_again_of_literal (hd : H.declaration? s.holder s.property = some d)
    (hlit : Placeholder.occursIn d.value = false) (hnew : Placeholder.occursIn r.value = false) :
    ∃ outcome', G.update s.holder r s.property = (G, .ok outcome') := by
  have hG := h.names.noFieldNames hH
  have hignored (e : Declaration) (he : G.declaration? s.holder s.property = some e)
      (hvalue : e.value = r.value) :
      ∃ outcome', G.update s.holder r s.property = (G, .ok outcome') := by
    rw [← hvalue] at hnew
    rw [update_of_literal hs' hG r he hnew, if_pos hvalue]
    exact ⟨_, rfl⟩
  rw [update_of_literal hs hH r hd hlit] at hok
  split at hok
  · rename_i hvalue
    obtain rfl := (Prod.mk.inj hok).1
    exact hignored d (hdecl.trans hd) hvalue
  · rename_i hne
    cases hw : r.written? s.property d.value d.value with
    | error e =>
      rw [hw] at hok
      cases hok
    | ok written =>
      rw [hw] at hok
      obtain rfl := (Prod.mk.inj hok).1
      rw [declaration?_rewrite hd] at hdecl
      rcases UpdateRequest.written?_eq_ok hw with
        ⟨-, rfl⟩ | ⟨-, ⟨hcompound, -⟩ | ⟨-, rfl⟩⟩
      · have hkept : G.declaration? s.holder s.property = some d := hdecl
        rw [update_of_literal hs' hG r hkept hlit, if_neg hne, hw]
        exact ⟨_, rfl⟩
      · rw [Placeholder.isCompound_of_not_occursIn hlit] at hcompound
        cases hcompound
      · exact hignored _ hdecl rfl

/-- The same update once more does nothing, if what it left declared is declared still. -/
theorem update_again (hplain : H.PlainValues)
    (hfields : ∀ name, G.fieldText? s.holder name = H.fieldText? s.holder name)
    (hnew : Placeholder.occursIn r.value = false) :
    ∃ outcome', G.update s.holder r s.property = (G, .ok outcome') := by
  by_cases hv : s.property = moduleVersionName
  · rw [update, updateFollowing, if_pos hv]
    exact ⟨_, rfl⟩
  cases hr : H.resolve s.holder (Placeholder.spell s.property) with
  | error e =>
    rw [update, updateFollowing, if_neg hv, hr] at hok
    cases hok
  | ok text =>
    obtain ⟨text', hr'⟩ := h.exists_resolve hfields hr
    cases hd : H.declaration? s.holder s.property with
    | none =>
      have hd' := h.names.declaration?_eq_none.2 hd
      exact updateFollowing_ok_of_unfollowed (Or.inr hd') hr' r _
    | some d =>
      rcases hplain _ _ _ _ (property?_of_declaration? hd) with hlit | hbare
      · exact update_again_of_literal h hH hs hs' hok hdecl hd hlit hnew
      · obtain ⟨other, hb⟩ := Option.isSome_iff_exists.1 hbare
        have hsame : H' = H := by
          rw [← (update_of_bare hs r hd hb).1, hok]
        rw [hsame, hd] at hdecl
        exact update_ok_of_bare hs' (h.names.noFieldNames hH) r hdecl hb hr'

end Again

end Update

end Forest
end Realign
