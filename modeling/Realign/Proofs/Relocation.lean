import Realign.Proofs.Lists
import Realign.Proofs.Property.Unfolding
import Realign.Proofs.WildcardTable
import Realign.Relocation

/-!
Relocation rules and their texts. Whatever a rule was read from, its own text has no blank around it
or around its sides, its first separators are the ones that were read, and no comma that was not in
the text before. So a rule is read again from its own text, and a table of rules is put together
again, in its order, by the texts of the rules that stand in it.
-/
namespace Realign

open Text

namespace RelocationRule

variable {text rest : List Char} {i : Ident} {r : RelocationRule}

/-- An identity as it stands on a side of a rule. -/
structure IsSide (i : Ident) : Prop where
  group : i.group ≠ ""
  noColon : ':' ∉ i.group.toList
  trimmed : trim i.toString.toList = i.toString.toList
  again : side? i.toString.toList = some i

/-- A rule as it comes from a text. -/
structure Written (r : RelocationRule) : Prop where
  old : IsSide r.old
  new : IsSide r.new
  noAt : '@' ∉ r.old.toString.toList
  noEquals : '=' ∉ r.new.toString.toList
  version : ∀ v, r.version = some v → v.toList ≠ [] ∧ trim v.toList = v.toList
  agree : r.old.isWildcard = r.new.isWildcard

section Side

theorem toList_toString_ofChars (group artifact : List Char) :
    (Ident.ofChars group artifact).toString.toList = group ++ ':' :: artifact := by
  simp [Ident.toString, Ident.ofChars]

theorem wildcard_ofList (group : List Char) :
    Ident.wildcard (String.ofList group) = Ident.ofChars group ['*'] := rfl

theorem side?_colon {group artifact : List Char} (hne : group ≠ []) (hgroup : ':' ∉ group)
    (hartifact : ':' ∉ artifact) (hsome : artifact ≠ [])
    (htrim : trim (group ++ ':' :: artifact) = group ++ ':' :: artifact) :
    side? (group ++ ':' :: artifact) = some (.ofChars group artifact) := by
  rw [side?, htrim, cutAt_append_cons hgroup]
  simp [hne, hartifact, hsome]

/-- A side is its group and its artifact with a colon between them, where no artifact is written as
the wildcard. -/
theorem isSide_ofChars {group artifact : List Char} (hne : group ≠ []) (hgroup : ':' ∉ group)
    (hartifact : ':' ∉ artifact) (hsome : artifact ≠ [])
    (htrim : trim (group ++ ':' :: artifact) = group ++ ':' :: artifact) :
    IsSide (.ofChars group artifact) where
  group h := hne (by simpa [Ident.ofChars] using congrArg String.toList h)
  noColon := by simpa [Ident.ofChars] using hgroup
  trimmed := by rw [toList_toString_ofChars, htrim]
  again := by rw [toList_toString_ofChars, side?_colon hne hgroup hartifact hsome htrim]

/-- What is read as a side can be read again, and has no other characters but the wildcard. -/
theorem isSide_of_side? (h : side? text = some i) :
    IsSide i ∧ ∀ c ∈ i.toString.toList, c ∈ text ∨ c = '*' := by
  unfold side? at h
  split at h
  · rename_i group artifact hcut
    obtain ⟨htext, hgroup⟩ := cutAt_eq_some hcut
    have htrim : trim (group ++ ':' :: artifact) = group ++ ':' :: artifact := by
      rw [← htext, trim_trim]
    have hchars : ∀ c ∈ group ++ ':' :: artifact, c ∈ text :=
      fun c hc => (isInfix_trim text).subset (htext ▸ hc)
    split at h
    · cases h
    · rename_i hok
      rw [not_or] at hok
      split at h
      · rename_i hempty
        subst hempty
        cases h
        have hwild : trim ((group ++ [':']) ++ ([] ++ ['*'])) = (group ++ [':']) ++ ([] ++ ['*']) :=
          trim_append htrim (by decide) (by simp) (by simp) []
        rw [wildcard_ofList]
        refine ⟨isSide_ofChars hok.1 hgroup (by decide) (by simp) (by simpa using hwild), ?_⟩
        intro c hc
        rw [toList_toString_ofChars] at hc
        simp only [List.mem_append, List.mem_cons, List.not_mem_nil, or_false] at hc hchars
        rcases hc with hc | rfl | rfl
        · exact Or.inl (hchars c (Or.inl hc))
        · exact Or.inl (hchars ':' (Or.inr rfl))
        · exact Or.inr rfl
      · rename_i hsome
        cases h
        refine ⟨isSide_ofChars hok.1 hgroup hok.2 hsome htrim, fun c hc => ?_⟩
        rw [toList_toString_ofChars] at hc
        exact Or.inl (hchars c hc)
  · cases h

theorem toList_toString_ne_nil (i : Ident) : i.toString.toList ≠ [] := by
  simp [Ident.toString]

end Side

section Version

variable {side : List Char} {version : Option String}

/-- What is written of the version that a rule asks for. -/
def versionChars : Option String → List Char
  | some version => '=' :: version.toList
  | none => []

theorem toList_toString (r : RelocationRule) :
    r.toString.toList =
      r.old.toString.toList ++ '@' :: (r.new.toString.toList ++ versionChars r.version) := by
  cases h : r.version <;> simp [toString, versionChars, h]

/-- A version that is read is trimmed and not empty, and the side before it has no equals sign. -/
theorem cutVersion_spec (h : cutVersion rest = (side, version)) :
    '=' ∉ side ∧ (∀ v, version = some v → v.toList ≠ [] ∧ trim v.toList = v.toList) ∧
      (∀ c ∈ side, c ∈ rest) ∧ ∀ c ∈ versionChars version, c ∈ rest := by
  unfold cutVersion at h
  split at h
  · rename_i before after hcut
    obtain ⟨rfl, hside⟩ := cutAt_eq_some hcut
    dsimp only at h
    split at h
    · cases h
      exact ⟨hside, nofun, fun c hc => List.mem_append_left _ hc, nofun⟩
    · rename_i hne
      cases h
      refine ⟨hside, ?_, fun c hc => List.mem_append_left _ hc, fun c hc => ?_⟩
      · intro v hv
        cases hv
        rw [String.toList_ofList]
        exact ⟨hne, trim_trim after⟩
      · apply List.mem_append_right
        rw [versionChars, String.toList_ofList] at hc
        rcases List.mem_cons.1 hc with rfl | hc
        · exact List.mem_cons_self ..
        · exact List.mem_cons_of_mem _ ((isInfix_trim after).subset hc)
  · rename_i hnone
    cases h
    exact ⟨cutAt_eq_none.1 hnone, nofun, fun c hc => hc, nofun⟩

theorem cutVersion_append (hside : '=' ∉ side)
    (hversion : ∀ v, version = some v → v.toList ≠ [] ∧ trim v.toList = v.toList) :
    cutVersion (side ++ versionChars version) = (side, version) := by
  cases version with
  | none =>
    have hcut : cutAt '=' (side ++ versionChars none) = none := by
      rw [cutAt_eq_none, versionChars, List.append_nil]
      exact hside
    rw [cutVersion, hcut, versionChars, List.append_nil]
  | some v =>
    obtain ⟨hne, htrim⟩ := hversion v rfl
    rw [cutVersion, versionChars, cutAt_append_cons hside]
    simp [htrim, hne, String.ofList_toList]

end Version

section Rule

/-- What is read as a rule is written in the form in which it is read, with no other characters
but the wildcard. -/
theorem written_of_parse (h : parse text = .ok r) :
    Written r ∧ ∀ c ∈ r.toString.toList, c ∈ text ∨ c = '*' := by
  unfold parse at h
  dsimp only at h
  split at h
  · cases h
  · rename_i oldText rest hcut
    obtain ⟨htext, hat⟩ := cutAt_eq_some hcut
    have hcutVersion : cutVersion rest = ((cutVersion rest).1, (cutVersion rest).2) := rfl
    obtain ⟨hequals, hversion, hsideChars, hversionChars⟩ := cutVersion_spec hcutVersion
    have hchars (c : Char) (hc : c ∈ oldText ++ '@' :: rest) : c ∈ text :=
      (isInfix_trim text).subset (htext ▸ hc)
    split at h
    · cases h
    · cases h
    · rename_i old new hold hnew
      obtain ⟨hold, holdChars⟩ := isSide_of_side? hold
      obtain ⟨hnew, hnewChars⟩ := isSide_of_side? hnew
      split at h
      · rename_i hagree
        cases h
        refine ⟨⟨hold, hnew, ?_, ?_, hversion, hagree⟩, fun c hc => ?_⟩
        · intro hmem
          exact (holdChars _ hmem).elim hat (by decide)
        · intro hmem
          exact (hnewChars _ hmem).elim hequals (by decide)
        · rw [toList_toString] at hc
          simp only [List.mem_append, List.mem_cons] at hc hchars
          rcases hc with hc | rfl | hc | hc
          · exact (holdChars c hc).imp_left fun hc => hchars c (Or.inl hc)
          · exact Or.inl (hchars _ (Or.inr (Or.inl rfl)))
          · exact (hnewChars c hc).imp_left fun hc => hchars c (Or.inr (Or.inr (hsideChars c hc)))
          · exact Or.inl (hchars c (Or.inr (Or.inr (hversionChars c hc))))
      · cases h

theorem Written.trim_toString (h : Written r) : trim r.toString.toList = r.toString.toList := by
  rw [toList_toString]
  cases hv : r.version with
  | none =>
    simpa [versionChars] using trim_append h.old.trimmed h.new.trimmed
      (toList_toString_ne_nil r.old) (toList_toString_ne_nil r.new) ['@']
  | some v =>
    obtain ⟨hne, htrim⟩ := h.version v hv
    simpa [versionChars] using trim_append h.old.trimmed htrim
      (toList_toString_ne_nil r.old) hne ('@' :: (r.new.toString.toList ++ ['=']))

/-- A rule in the form in which it is read is read again from its text. -/
theorem Written.parse_toString (h : Written r) : parse r.toString.toList = .ok r := by
  unfold parse
  dsimp only
  rw [h.trim_toString, toList_toString, cutAt_append_cons h.noAt]
  dsimp only
  rw [cutVersion_append h.noEquals h.version, h.old.again, h.new.again]
  dsimp only
  rw [if_pos h.agree]

end Rule

end RelocationRule

namespace RelocationTable

variable {texts : List String} {pieces : List (List Char)} {rules : List RelocationRule}
  {t t' : RelocationTable}

/-- The rules under their old sides, in their order. -/
def byOld (rules : List RelocationRule) : List (Ident × RelocationRule) :=
  rules.map fun rule => (rule.old, rule)

/-- Texts that can all be read are entered rule by rule. -/
theorem enterAll_eq_ok_iff :
    enterAll t pieces = .ok t' ↔
      ∃ rules, List.Forall₂ (fun text rule => RelocationRule.parse text = .ok rule) pieces rules ∧
        t' = (byOld rules).foldl (fun t row => t.put row.1 row.2) t := by
  induction pieces generalizing t with
  | nil =>
    constructor
    · intro h
      cases h
      exact ⟨[], .nil, rfl⟩
    · rintro ⟨rules, hrules, rfl⟩
      cases hrules
      rfl
  | cons text pieces ih =>
    rw [enterAll, exceptBind_eq_ok]
    constructor
    · rintro ⟨rule, hrule, h⟩
      obtain ⟨rules, hrules, rfl⟩ := ih.1 h
      exact ⟨rule :: rules, .cons hrule hrules, rfl⟩
    · rintro ⟨rules, hrules, rfl⟩
      cases hrules with
      | cons hrule hrules => exact ⟨_, hrule, ih.2 ⟨_, hrules, rfl⟩⟩

theorem parse_eq_ok_iff :
    parse texts = .ok t ↔
      ∃ rules, List.Forall₂ (fun text rule => RelocationRule.parse text = .ok rule)
        (texts.flatMap ruleTexts) rules ∧ t = .putAll (byOld rules) :=
  enterAll_eq_ok_iff

/-- A text without a comma is the text of one rule. -/
theorem ruleTexts_of_not_mem {text : String} (hcomma : ',' ∉ text.toList)
    (hblank : isBlankText text.toList = false) : ruleTexts text = [text.toList] := by
  rw [ruleTexts, piecesAt_of_not_mem hcomma]
  simp [hblank]

theorem ruleTexts_toString {r : RelocationRule} (h : r.Written)
    (hcomma : ',' ∉ r.toString.toList) : ruleTexts r.toString = [r.toString.toList] := by
  apply ruleTexts_of_not_mem hcomma
  apply not_isBlankText_of_trim h.trim_toString
  rw [RelocationRule.toList_toString]
  simp

/-- A rule of a table stands under its old side, is in the form in which rules are read, and has no
comma in its text. -/
theorem written_of_mem_rows (h : parse texts = .ok t) {row : Ident × RelocationRule}
    (hrow : row ∈ t.rows) :
    row.1 = row.2.old ∧ row.2.Written ∧ ',' ∉ row.2.toString.toList := by
  obtain ⟨rules, hrules, rfl⟩ := parse_eq_ok_iff.1 h
  obtain ⟨key, stored⟩ := row
  obtain ⟨rule, hrule, heq⟩ := List.mem_map.1 (WildcardTable.mem_of_mem_rows hrow)
  obtain ⟨rfl, rfl⟩ := Prod.mk.inj heq
  obtain ⟨piece, hpiece, hparse⟩ := exists_of_forall₂ hrules hrule
  obtain ⟨hwritten, hchars⟩ := RelocationRule.written_of_parse hparse
  refine ⟨rfl, hwritten, fun hcomma => ?_⟩
  obtain ⟨text, -, hpiece⟩ := List.mem_flatMap.1 hpiece
  exact (hchars _ hcomma).elim (not_mem_of_mem_piecesAt (List.mem_filter.1 hpiece).1) (by decide)

theorem unmixed_of_parse (h : parse texts = .ok t) {group : String}
    {entry : GroupEntry RelocationRule} (hentry : t.groups.get? group = some entry) :
    entry.Unmixed := by
  obtain ⟨rules, -, rfl⟩ := parse_eq_ok_iff.1 h
  have hrecalls := WildcardTable.recalls_putAll (byOld rules) group
  rw [hentry] at hrecalls
  exact hrecalls.unmixed

/-- The rules of a table that is read stand under their old sides, are wildcards on both sides or on
none, and have groups that are not empty and have no colon in them. Their texts, in the order of
the table, are read as the same table, so its rules stand in the same order again. -/
theorem parse_again (h : parse texts = .ok t) :
    (∀ row ∈ t.rows, row.1 = row.2.old ∧
      (row.2.old.isWildcard = true ↔ row.2.new.isWildcard = true) ∧
      (row.2.old.group ≠ "" ∧ ':' ∉ row.2.old.group.toList) ∧
      row.2.new.group ≠ "" ∧ ':' ∉ row.2.new.group.toList) ∧
    parse (t.rows.map fun row => row.2.toString) = .ok t := by
  constructor
  · intro row hrow
    obtain ⟨hold, hwritten, -⟩ := written_of_mem_rows h hrow
    exact ⟨hold, by rw [hwritten.agree], ⟨hwritten.old.group, hwritten.old.noColon⟩,
      hwritten.new.group, hwritten.new.noColon⟩
  · have htexts : (t.rows.map fun row => row.2.toString).flatMap ruleTexts =
        t.rows.map fun row => row.2.toString.toList := by
      rw [List.flatMap_map, List.map_eq_flatMap]
      apply List.flatMap_congr
      intro row hrow
      obtain ⟨-, hwritten, hcomma⟩ := written_of_mem_rows h hrow
      exact ruleTexts_toString hwritten hcomma
    have hrules : byOld (t.rows.map Prod.snd) = t.rows := by
      rw [byOld, List.map_map]
      conv_rhs => rw [← List.map_id t.rows]
      apply List.map_congr_left
      intro row hrow
      exact Prod.ext (written_of_mem_rows h hrow).1.symm rfl
    refine parse_eq_ok_iff.2 ⟨t.rows.map Prod.snd, ?_, ?_⟩
    · rw [htexts, List.forall₂_map_left_iff, List.forall₂_map_right_iff, List.forall₂_same]
      intro row hrow
      exact (written_of_mem_rows h hrow).2.1.parse_toString
    · rw [hrules, WildcardTable.putAll_rows fun _ _ => unmixed_of_parse h]

/-- Rules with blanks around and within their sides, an equals sign in an old side, separators in a
version, and a wildcard in place of another one. -/
def looseTexts : List String :=
  [" org.old :a=b@ org.new: c =1=2@3 ,, org.legacy:@org.modern:=",
    "org.old :x@org.other:y,org.legacy:*@org.latest:*"]

def looseTable : RelocationTable :=
  ⟨.ofRows [
    ("org.old ", .listed (.ofRows [
      ("a=b", ⟨⟨"org.old ", "a=b"⟩, ⟨"org.new", " c"⟩, some "1=2@3"⟩),
      ("x", ⟨⟨"org.old ", "x"⟩, ⟨"org.other", "y"⟩, none⟩)])),
    ("org.legacy", .every ⟨⟨"org.legacy", "*"⟩, ⟨"org.latest", "*"⟩, none⟩)]⟩

theorem looseTable_again :
    parse looseTexts = .ok looseTable ∧
      (∀ row ∈ looseTable.rows, row.1 = row.2.old ∧
        (row.2.old.isWildcard = true ↔ row.2.new.isWildcard = true) ∧
        (row.2.old.group ≠ "" ∧ ':' ∉ row.2.old.group.toList) ∧
        row.2.new.group ≠ "" ∧ ':' ∉ row.2.new.group.toList) ∧
      parse (looseTable.rows.map fun row => row.2.toString) = .ok looseTable := by
  have hparse : parse looseTexts = .ok looseTable := by decide +kernel
  exact ⟨hparse, parse_again hparse⟩

end RelocationTable
end Realign
