import Realign.Proofs.Forest.Entry
import Realign.Proofs.Property.Nesting
import Realign.Proofs.Table

/-!
Resolved values have nothing left to resolve. A text settles if it holds no dollar sign but those at
the start and within placeholders of unknown names; such a text resolves to itself. Texts that
settle can be put together, as no placeholder comes about where two of them meet. So where dollar
signs stand at the start of openings only, in a value and in all that its references can
stand for, whatever the value resolves to settles.
-/
namespace Realign

open Text

/-- Every dollar sign of a text is followed by the brace that makes an opening of it. -/
def DollarsOpen : List Char → Prop
  | [] => True
  | c :: rest => (c = '$' → rest.head? = some '\x7b') ∧ DollarsOpen rest

instance decidableDollarsOpen : DecidablePred DollarsOpen
  | [] => .isTrue trivial
  | c :: rest =>
    have := decidableDollarsOpen rest
    inferInstanceAs (Decidable ((c = '$' → rest.head? = some '\x7b') ∧ DollarsOpen rest))

/-- Texts without placeholders but those of unknown names. -/
inductive Settles (look : String → Option String) : List Char → Prop
  | plain {text} (h : '$' ∉ text) : Settles look text
  | unknown {before name rest} (hb : '$' ∉ before) (hc : Placeholder.closing ∉ name)
      (hn : look (String.ofList name) = none) (h : Settles look rest) :
      Settles look (before ++ (Placeholder.spellChars name ++ rest))

variable {look : String → Option String} {text left right before name rest out : List Char}

namespace DollarsOpen

theorem of_append (h : DollarsOpen (left ++ right)) : DollarsOpen right := by
  induction left with
  | nil => exact h
  | cons c left ih => exact ih h.2

theorem of_placeholder (h : DollarsOpen (before ++ (Placeholder.spellChars name ++ rest))) :
    DollarsOpen rest :=
  h.of_append.of_append

/-- Text in which no placeholder is opened has no dollar sign, if more text does not begin with what
completes an opening. -/
theorem not_mem (h : DollarsOpen (before ++ rest))
    (hb : hasWord Placeholder.opening before = false) (hr : rest.head? ≠ some '\x7b') :
    '$' ∉ before := by
  intro hmem
  obtain ⟨front, back, rfl⟩ := List.append_of_mem hmem
  rw [List.append_assoc] at h
  have hnext := h.of_append.1 rfl
  cases back with
  | nil => exact hr hnext
  | cons c back =>
    obtain rfl : c = '\x7b' := Option.some.inj hnext
    have hword : hasWord Placeholder.opening (front ++ '$' :: '\x7b' :: back) = true :=
      hasWord_eq_true_iff.2 ⟨front, back, by simp [Placeholder.opening]⟩
    rw [hword] at hb
    cases hb

end DollarsOpen

theorem hasWord_opening_of_not_mem (h : '$' ∉ text) :
    hasWord Placeholder.opening text = false := by
  rw [← Bool.not_eq_true, hasWord_eq_true_iff]
  intro hword
  exact h (hword.subset (List.mem_cons_self ..))

namespace Settles

/-- No placeholder comes about where two texts that settle meet. -/
theorem append (h : Settles look left) (h' : Settles look right) :
    Settles look (left ++ right) := by
  induction h with
  | plain hl =>
    cases h' with
    | plain hr => exact .plain (by simp [hl, hr])
    | unknown hb hc hn hr =>
      rw [← List.append_assoc]
      exact .unknown (by simp [hl, hb]) hc hn hr
  | unknown hb hc hn _ ih =>
    rw [List.append_assoc, List.append_assoc]
    exact .unknown hb hc hn ih

/-- A text that settles unfolds to itself. -/
theorem unfoldsTo (h : Settles look text) : UnfoldsTo look text text := by
  induction h with
  | plain h => exact .literal (hasWord_opening_of_not_mem h)
  | unknown hb hc hn _ ih => exact .unknown (hasWord_opening_of_not_mem hb) hc hn ih

/-- All the references of a text that settles have unknown names. -/
theorem unknown_of_mem (h : Settles look text) (hr : .reference name ∈ Piece.ofText text) :
    look (String.ofList name) = none := by
  induction h with
  | plain h =>
    rw [ofText_of_not_hasWord (hasWord_opening_of_not_mem h)] at hr
    simp at hr
  | unknown hb hc hn _ ih =>
    rw [ofText_placeholder (hasWord_opening_of_not_mem hb) hc] at hr
    simp only [List.mem_cons, reduceCtorEq, false_or, Piece.reference.injEq] at hr
    rcases hr with rfl | hr
    · exact hn
    · exact ih hr

end Settles

/-- What a text unfolds to settles, where dollar signs start openings only. -/
theorem UnfoldsTo.settles (hlook : ∀ name raw, look name = some raw → DollarsOpen raw.toList)
    (h : UnfoldsTo look text out) (htext : DollarsOpen text) : Settles look out := by
  -- a placeholder begins with a dollar sign, so it completes no opening in the text before it
  have hplaceholder {name rest : List Char} :
      (Placeholder.spellChars name ++ rest).head? ≠ some '\x7b' := by
    simp [Placeholder.spellChars, Placeholder.opening]
  induction h with
  | @literal text hlit =>
    rw [← List.append_nil text] at htext
    exact .plain (htext.not_mem hlit (by simp))
  | unknown hb hc hn _ ih =>
    exact .unknown (htext.not_mem hb hplaceholder) hc hn (ih (htext.of_placeholder))
  | known hb hc hn _ _ ihi ih =>
    apply Settles.append (.plain (htext.not_mem hb hplaceholder))
    exact (ihi (hlook _ _ hn)).append (ih (htext.of_placeholder))

namespace Resolver

/-- Dollar signs start openings only in all that the names of a chain stand for: the properties of
the main sections and of the active profiles, and the fields of the last module and of the one
before it. -/
structure OpensOnly (chain : List Module) : Prop where
  main : ∀ m ∈ chain, ∀ row ∈ m.main.properties.rows, DollarsOpen row.2.toList
  profiles : ∀ m ∈ chain, ∀ profile ∈ m.activeProfiles, ∀ row ∈ profile.body.properties.rows,
    DollarsOpen row.2.toList
  fields : ∀ m ∈ chain.reverse.take 2, ∀ field : ModuleField, DollarsOpen (field.read m).toList

variable {chain : List Module}

theorem mem_rowsOf {m : Module} {row : String × String} :
    row ∈ rowsOf m ↔ row ∈ m.main.properties.rows ∨
      ∃ profile ∈ m.activeProfiles, row ∈ profile.body.properties.rows := by
  rw [rowsOf, Module.filterMap_body?_places, List.flatMap_cons, List.mem_append, List.flatMap_map,
    List.mem_flatMap]

theorem mem_of_table_get? {name raw : String} (h : (ofChain chain).table.get? name = some raw) :
    ∃ m ∈ chain, (name, raw) ∈ rowsOf m := by
  rw [ofChain, Table.get?_ofRows] at h
  exact List.mem_flatMap.1 (List.mem_reverse.1 (Table.mem_of_valueIn h))

theorem exists_field_of_field? {f : FieldName} {raw : String}
    (h : (ofChain chain).field? f = some raw) :
    ∃ m ∈ chain.reverse.take 2, raw = f.field.read m := by
  obtain ⟨m, hm, rfl⟩ := Option.map_eq_some_iff.1 h
  refine ⟨m, ?_, rfl⟩
  simp only [ofChain] at hm
  rw [List.getLast?_eq_head?_reverse, List.getLast?_eq_head?_reverse, ← List.tail_reverse] at hm
  cases hrev : chain.reverse with
  | nil => simp [hrev] at hm
  | cons last front =>
    rw [hrev] at hm
    split at hm
    · cases front with
      | nil => cases hm
      | cons parent front =>
        cases hm
        simp
    · cases hm
      simp

theorem OpensOnly.lookup (h : OpensOnly chain) {name raw : String}
    (hn : (ofChain chain).lookup name = some raw) : DollarsOpen raw.toList := by
  unfold Resolver.lookup at hn
  cases hfield : (FieldName.ofText? name).bind (ofChain chain).field? with
  | some text =>
    rw [hfield] at hn
    obtain rfl : text = raw := Option.some.inj hn
    obtain ⟨f, -, hf⟩ := Option.bind_eq_some_iff.1 hfield
    obtain ⟨m, hm, rfl⟩ := exists_field_of_field? hf
    exact h.fields m hm f.field
  | none =>
    rw [hfield] at hn
    obtain ⟨m, hm, hrow⟩ := mem_of_table_get? hn
    rcases mem_rowsOf.1 hrow with hrow | ⟨profile, hprofile, hrow⟩
    · exact h.main m hm _ hrow
    · exact h.profiles m hm profile hprofile _ hrow

/-- Where dollar signs start openings only, what a value resolves to has no reference that could be
resolved, and resolves to itself. -/
theorem resolve_resolved (hchain : OpensOnly chain) {value text : String}
    (hvalue : DollarsOpen value.toList) (h : (ofChain chain).resolve value = .ok text) :
    (ofChain chain).resolve text = .ok text ∧
      ∀ name, .reference name ∈ Piece.ofText text.toList →
        (ofChain chain).lookup (String.ofList name) = none := by
  rw [resolve_eq_ok_iff, ← unfoldsTo_iff] at h
  have hsettles := h.settles (fun _ _ => hchain.lookup) hvalue
  refine ⟨?_, fun _ => hsettles.unknown_of_mem⟩
  rw [resolve_eq_ok_iff, ← unfoldsTo_iff]
  exact hsettles.unfoldsTo

/-- A child of a module, with a property that the parent's profile hides and names that nothing is
known of. -/
def layered : List Module := [
  { ident := ⟨"org.foo", "root"⟩, version := "$\x7bbase\x7d",
    main.properties := .ofRows [("base", "1.0"), ("full", "old")],
    profiles := [{
      id := "on", active := true,
      body.properties := .ofRows [
        ("full", "$\x7bproject.parent.version\x7d\x7d.$\x7bgone\x7d")] }] },
  { ident := ⟨"org.foo", "app"⟩, version := "2.0" }]

theorem layered_resolved :
    OpensOnly layered ∧ DollarsOpen "v$\x7bfull\x7d-$\x7bno$\x7bbase\x7d".toList ∧
      (ofChain layered).resolve "v$\x7bfull\x7d-$\x7bno$\x7bbase\x7d" =
        .ok "v1.0\x7d.$\x7bgone\x7d-$\x7bno$\x7bbase\x7d" ∧
      (ofChain layered).resolve "v1.0\x7d.$\x7bgone\x7d-$\x7bno$\x7bbase\x7d" =
        .ok "v1.0\x7d.$\x7bgone\x7d-$\x7bno$\x7bbase\x7d" ∧
      ∀ name, .reference name ∈
          Piece.ofText "v1.0\x7d.$\x7bgone\x7d-$\x7bno$\x7bbase\x7d".toList →
        (ofChain layered).lookup (String.ofList name) = none := by
  have hchain : OpensOnly layered := by
    refine ⟨by decide +kernel, by decide +kernel, fun m hm field => ?_⟩
    revert m
    cases field <;> decide +kernel
  have hvalue : DollarsOpen "v$\x7bfull\x7d-$\x7bno$\x7bbase\x7d".toList := by decide +kernel
  have hresolve : (ofChain layered).resolve "v$\x7bfull\x7d-$\x7bno$\x7bbase\x7d" =
      .ok "v1.0\x7d.$\x7bgone\x7d-$\x7bno$\x7bbase\x7d" := by decide +kernel
  exact ⟨hchain, hvalue, hresolve, resolve_resolved hchain hvalue hresolve⟩

end Resolver
end Realign
