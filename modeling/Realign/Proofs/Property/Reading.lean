import Realign.Proofs.Property.Nesting
import Realign.Proofs.Property.Rewording

/-!
What resolution reads. The evaluation of a value is gone through once more, and each name is noted
when it is looked up, up to the first fault. What comes of the value depends on nothing but
what the noted names stand for, so an update interferes only with values that read the entry
that it writes.
-/
namespace Realign

namespace Resolver

/-- What comes of a computation, after the names that were looked up on the way. -/
abbrev Noted := List String × Except ResolveError (List Char)

/-- The pieces of a value put together as by `assemble`, with the names that are looked up. -/
def assembleNoted (look : String → Option String) (enter : String → String → Noted)
    (whole : List Char) : List Piece → Noted
  | [] => ([], .ok [])
  | .literal text :: rest =>
    let made := assembleNoted look enter whole rest
    (made.1, do return text ++ (← made.2))
  | .unclosed :: _ => ([], .error (.unterminated (String.ofList whole)))
  | .reference name :: rest =>
    match look (String.ofList name) with
    | none =>
      let made := assembleNoted look enter whole rest
      (String.ofList name :: made.1, do return Placeholder.spellChars name ++ (← made.2))
    | some raw =>
      match enter (String.ofList name) raw with
      | (names, .error e) => (String.ofList name :: names, .error e)
      | (names, .ok inner) =>
        let made := assembleNoted look enter whole rest
        (String.ofList name :: (names ++ made.1), do return inner ++ (← made.2))

/-- A value evaluated as by `evaluate`, with the names that are looked up. -/
def evaluateNoted (look : String → Option String) (available : List String) (value : List Char) :
    Noted :=
  assembleNoted look (fun name raw =>
    if _h : name ∈ available then evaluateNoted look (without name available) raw.toList
    else ([], .error (.cycle name))) value (Piece.ofText value)
termination_by available.length
decreasing_by exact length_without_lt _h

/-- The names that are looked up when a value is resolved, in order. -/
def reads (r : Resolver) (value : String) : List String :=
  (evaluateNoted r.lookup r.knownNames value.toList).1

section Noting

variable {look look' : String → Option String} {available available' : List String}
  {whole value : List Char} {pieces : List Piece}

theorem assembleNoted_snd {enter : String → String → Noted}
    {plain : String → String → Except ResolveError (List Char)}
    (h : ∀ name raw, (enter name raw).2 = plain name raw) :
    (assembleNoted look enter whole pieces).2 = assemble look plain whole pieces := by
  induction pieces with
  | nil => rfl
  | cons piece rest ih =>
    cases piece with
    | literal text => rw [assembleNoted, assemble, ih]
    | unclosed => rfl
    | reference name =>
      rw [assembleNoted, assemble]
      cases hn : look (String.ofList name) with
      | none => simp only [ih]
      | some raw =>
        dsimp only
        rw [← h (String.ofList name) raw, ← ih]
        rcases enter (String.ofList name) raw with ⟨names, e | inner⟩ <;> rfl

/-- Noting names changes nothing about what comes of a value. -/
theorem evaluateNoted_snd (look : String → Option String) (available : List String)
    (value : List Char) :
    (evaluateNoted look available value).2 = evaluate look available value := by
  induction hlen : available.length using Nat.strong_induction_on generalizing available value
  rename_i n ih
  rw [evaluateNoted, evaluate]
  apply assembleNoted_snd
  intro name raw
  split
  · rename_i hav
    exact ih _ (hlen ▸ length_without_lt hav) _ _ rfl
  · rfl

theorem assembleNoted_congr {enter enter' : String → String → Noted}
    (henter : ∀ name raw, (∀ read ∈ (enter name raw).1, look' read = look read) →
      enter' name raw = enter name raw)
    (h : ∀ read ∈ (assembleNoted look enter whole pieces).1, look' read = look read) :
    assembleNoted look' enter' whole pieces = assembleNoted look enter whole pieces := by
  induction pieces with
  | nil => rfl
  | cons piece rest ih =>
    cases piece with
    | literal text =>
      rw [assembleNoted] at h ⊢
      rw [ih h, assembleNoted]
    | unclosed => rfl
    | reference name =>
      rw [assembleNoted] at h
      rw [assembleNoted, assembleNoted]
      cases hn : look (String.ofList name) with
      | none =>
        simp only [hn, List.forall_mem_cons] at h
        simp only [h.1, ih h.2]
      | some raw =>
        have hinner := henter (String.ofList name) raw
        rw [hn] at h
        dsimp only at h
        rcases hmade : enter (String.ofList name) raw with ⟨names, e | inner⟩
        · simp only [hmade, List.forall_mem_cons] at h hinner
          simp only [h.1, hn, hmade, hinner h.2]
        · simp only [hmade, List.forall_mem_cons, List.forall_mem_append] at h hinner
          simp only [h.1, hn, hmade, hinner h.2.1, ih h.2.2]

/-- What comes of a value, and what is read on the way, depends on nothing but what is read. -/
theorem evaluateNoted_congr (hav : ∀ name, name ∈ available' ↔ name ∈ available)
    (h : ∀ read ∈ (evaluateNoted look available value).1, look' read = look read) :
    evaluateNoted look' available' value = evaluateNoted look available value := by
  induction hlen : available.length using Nat.strong_induction_on
    generalizing available available' value
  rename_i n ih
  rw [evaluateNoted] at h
  rw [evaluateNoted, evaluateNoted]
  apply assembleNoted_congr _ h
  intro name raw hreads
  by_cases hname : name ∈ available
  · rw [dif_pos hname] at hreads
    rw [dif_pos hname, dif_pos ((hav name).2 hname)]
    apply ih _ (hlen ▸ length_without_lt hname) _ hreads rfl
    intro other
    simp only [without, List.mem_filter, hav]
  · rw [dif_neg hname, dif_neg fun hmem => hname ((hav name).1 hmem)]

/-- Two resolvers that know the same names make the same of a value if they agree on every name
that one of them reads. -/
theorem resolve_congr {r r' : Resolver}
    (hknown : ∀ name, name ∈ r'.knownNames ↔ name ∈ r.knownNames) {value : String}
    (h : ∀ read ∈ r.reads value, r'.lookup read = r.lookup read) :
    r'.resolve value = r.resolve value := by
  rw [resolve, resolve, ← evaluateNoted_snd, ← evaluateNoted_snd, evaluateNoted_congr hknown h]

end Noting

end Resolver

namespace Forest

variable {F : Forest} {i j : Nat} {key name : String} {d : Declaration}

/-- Setting a declared property leaves what a module finds declared as it was, unless the module
finds the entry that is set. -/
theorem declaration?_setProperty_of_ne (h : F.declaration? i key = some d) (value : String)
    (hne : ∀ e, F.declaration? j name = some e →
      ¬ (d.holder = e.holder ∧ d.place = e.place ∧ key = name)) :
    (F.setProperty d key value).declaration? j name = F.declaration? j name := by
  have hold := property?_of_declaration? h
  have hnames := F.sameNames_setProperty d key value hold
  cases hd : F.declaration? j name with
  | none => exact hnames.declaration?_eq_none.2 hd
  | some e =>
    apply hnames.declaration?_of_property? hd
    rw [F.property?_setProperty d key value hold, if_neg (hne e hd)]
    exact property?_of_declaration? hd

theorem mem_knownNames_setProperty (h : F.declaration? i key = some d) (value : String) :
    name ∈ ((F.setProperty d key value).resolver j).knownNames ↔
      name ∈ (F.resolver j).knownNames := by
  have hnames := F.sameNames_setProperty d key value (property?_of_declaration? h)
  have hkeys : name ∈ ((F.setProperty d key value).resolver j).table.keys ↔
      name ∈ (F.resolver j).table.keys := by
    rw [← not_iff_not, ← Table.get?_eq_none, ← Table.get?_eq_none, table_get?_eq_declaration?,
      table_get?_eq_declaration?, Option.map_eq_none_iff, Option.map_eq_none_iff,
      hnames.declaration?_eq_none]
  rw [Resolver.knownNames, Resolver.knownNames, List.mem_append, List.mem_append, hkeys]

theorem lookup_setProperty_of_ne (h : F.declaration? i key = some d) (value : String)
    (hne : ∀ e, F.declaration? j name = some e →
      ¬ (d.holder = e.holder ∧ d.place = e.place ∧ key = name)) :
    ((F.setProperty d key value).resolver j).lookup name = (F.resolver j).lookup name := by
  have hnames := F.sameNames_setProperty d key value (property?_of_declaration? h)
  rw [lookup_eq, lookup_eq, fieldText?_congr hnames (F.version?_setProperty d key value),
    declaration?_setProperty_of_ne h value hne]

/-- An update leaves the forest alone or writes one declared entry. Whatever module a value is
resolved from: if the name of the entry is not looked up on the way, or what the module finds
declared under it is another entry, the same comes of the value afterwards, be it a text or a
fault. -/
theorem resolve_update_of_unread (F : Forest) (i : Nat) (r : UpdateRequest) (name : String) :
    (F.update i r name).1 = F ∨
      ∃ key d value, F.declaration? i key = some d ∧
        (F.update i r name).1 = F.setProperty d key value ∧
        ∀ j text,
          (key ∉ (F.resolver j).reads text ∨
            ¬ ∃ e, F.declaration? j key = some e ∧ e.holder = d.holder ∧ e.place = d.place) →
          (F.update i r name).1.resolve j text = F.resolve j text := by
  rcases F.updateFollowing_writes i r (F.declaredNames i) name with hsame | ⟨key, d, value, hd, hG⟩
  · exact Or.inl hsame
  · refine Or.inr ⟨key, d, value, hd, hG, fun j text hunread => ?_⟩
    rw [update, hG]
    apply Resolver.resolve_congr fun _ => mem_knownNames_setProperty hd value
    intro read hread
    apply lookup_setProperty_of_ne hd value
    rintro e he ⟨hholder, hplace, rfl⟩
    rcases hunread with hnot | hnot
    · exact hnot hread
    · exact hnot ⟨e, he, hholder.symm, hplace.symm⟩

end Forest
end Realign
