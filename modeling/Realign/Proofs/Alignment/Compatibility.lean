import Realign.Alignment.Strict
import Realign.Proofs.Version.Suffix

/-!
What the strict check lets pass. Whatever form of the old version it compares, with one suffix in
the place of another, without a snapshot marker, in the OSGi form or without its suffix, the
form has the numbers of the old version; and the new version has those of what stands before
its suffix. So no version is replaced by one with other numbers.
-/
namespace Realign.Strict

open Text Version

variable {p : Policy} {suffix text old new current variant base : List Char}

theorem dropEndWhile_append (q : Char → Bool) (text : List Char) :
    ∃ dropped, text = dropEndWhile q text ++ dropped ∧ ∀ c ∈ dropped, q c = true := by
  refine ⟨(text.reverse.takeWhile q).reverse, ?_, fun c hc => ?_⟩
  · rw [dropEndWhile, ← List.reverse_append, List.takeWhile_append_dropWhile, List.reverse_reverse]
  · exact List.all_eq_true.1 List.all_takeWhile c (List.mem_reverse.1 hc)

theorem trims_beforeSuffix (hs : Lettered suffix) (text : List Char) :
    Trims (beforeSuffix suffix text) text := by
  unfold beforeSuffix
  split
  · exact trims_refl text
  · rename_i before after _ hcut
    obtain ⟨separators, hbefore, hall⟩ := dropEndWhile_append isSeparator before
    refine ⟨separators ++ (suffix ++ after), ?_, (hs.append after).numberless.separated hall⟩
    rw [← List.append_assoc, ← hbefore]
    exact cutAtWord_eq_some hcut
  · exact trims_refl text

theorem sameNumbers_beforeSuffix (hs : Lettered suffix) (hp : Plain text) :
    SameNumbers (beforeSuffix suffix text) text :=
  sameNumbers_of_trims hp (trims_beforeSuffix hs text)

/-- A base ends in the joint that the suffix stands behind, and at most a build number follows. -/
theorem baseOf?_eq_some (h : baseOf? suffix text = some base) :
    ∃ front joint tail, isJoint joint = true ∧ isBuildTail tail = true ∧ base = front ++ [joint] ∧
      text = front ++ joint :: (suffix ++ tail) := by
  fun_induction baseOf? suffix text generalizing base with
  | case1 => cases h
  | case2 c joint rest _ hends =>
    simp only [endsInSuffix, Bool.and_eq_true] at hends
    cases h
    cases hstrip : strip? suffix rest with
    | none =>
      rw [hstrip] at hends
      cases hends.2
    | some tail =>
      rw [hstrip] at hends
      exact ⟨[c], joint, tail, hends.1, hends.2, rfl, by rw [strip?_eq_some.1 hstrip]; rfl⟩
  | case3 c next rest _ _ ih =>
    obtain ⟨inner, hinner, rfl⟩ := Option.map_eq_some_iff.1 h
    obtain ⟨front, joint, tail, hjoint, htail, rfl, htext⟩ := ih hinner
    exact ⟨c :: front, joint, tail, hjoint, htail, rfl, by rw [htext]; rfl⟩
  | case4 => cases h

/-- The text with another suffix and the build number zero. -/
theorem sameNumbers_baseOf? {alternative primary : List Char} (ha : Lettered alternative)
    (hs : Lettered primary) (hplain : Plain primary) (hp : Plain old)
    (h : baseOf? alternative old = some base) :
    SameNumbers (base ++ primary ++ ['-', '0']) old := by
  obtain ⟨front, joint, tail, hjoint, -, rfl, rfl⟩ := baseOf?_eq_some h
  have hseparator : ∀ c ∈ [joint], isSeparator c = true := by
    rw [List.forall_mem_singleton]
    simp only [isJoint, Bool.or_eq_true, decide_eq_true_eq] at hjoint
    rcases hjoint with (rfl | rfl) | rfl <;> decide
  have htrims {word : List Char} (hw : Lettered word) (more : List Char) :
      Trims front (front ++ joint :: (word ++ more)) :=
    ⟨_, rfl, (hw.append more).numberless.separated hseparator⟩
  have hbuild : Plain ['-', '0'] := by decide
  have hfront : Plain (front ++ [joint]) := by
    apply hp.subset
    intro c hc
    simp only [List.mem_append, List.mem_cons, List.not_mem_nil, or_false] at hc ⊢
    tauto
  have hvariant : front ++ [joint] ++ primary ++ ['-', '0'] =
      front ++ joint :: (primary ++ ['-', '0']) := by simp
  have hnew : Plain (front ++ joint :: (primary ++ ['-', '0'])) := by
    rw [← hvariant]
    exact (hfront.append hplain).append hbuild
  rw [hvariant]
  exact ⟨hnew, (numbers_of_trims hnew (htrims hs _)).trans
    (numbers_of_trims hp (htrims ha tail)).symm⟩

theorem sameNumbers_variants {suffixes : List (List Char)}
    (hs : ∀ suffix ∈ suffixes, Lettered suffix) (hplain : ∀ suffix ∈ suffixes, Plain suffix)
    (hp : Plain old) (h : variant ∈ variants old suffixes) :
    SameNumbers variant old := by
  cases suffixes with
  | nil =>
    rw [List.mem_singleton.1 h]
    exact .refl hp
  | cons primary alternatives =>
    rw [List.forall_mem_cons] at hs hplain
    rcases List.mem_cons.1 h with heq | hmem
    · rw [heq]
      exact .refl hp
    · obtain ⟨alternative, halternative, hvariant⟩ := List.mem_filterMap.1 hmem
      obtain ⟨base, hbase, rfl⟩ := Option.map_eq_some_iff.1 hvariant
      exact sameNumbers_baseOf? (hs.2 alternative halternative) hs.1 hplain.1 hp hbase

theorem sameNumbers_withoutMarker (hp : Plain variant) :
    SameNumbers (withoutMarker p variant) variant := by
  unfold withoutMarker
  split
  · exact .refl hp
  · exact sameNumbers_of_trims hp (trims_beforeSnapshot variant)

/-- Whether or not a suffix is borrowed for it, the OSGi form has the same numbers. -/
theorem sameNumbers_osgiBase (hs : Lettered suffix) (hplain : Plain suffix) (hp : Plain text) :
    SameNumbers (osgiBase suffix text) text := by
  unfold osgiBase
  dsimp only
  split
  · rename_i hq
    have hmarker : Plain (marker ⟨text⟩) := hp.subset (List.drop_subset _ _)
    have happend := appendSuffix_of_unqualified hq hs hplain
    have hnumbers : SameNumbers (appendSuffix ⟨text⟩ suffix).chars text := by
      rw [happend]
      exact sameNumbers_numbersDot hp.digits (hplain.append hmarker)
    have hosgi := sameNumbers_toOsgi hnumbers.1
    exact (sameNumbers_beforeSuffix hs hosgi.1).trans (.trans hosgi hnumbers)
  · exact sameNumbers_toOsgi (v := ⟨text⟩) hp

theorem numbers_eq_of_matchesSuffix (hs : Lettered suffix) (hplain : Plain suffix)
    (hp : Plain current) (hn : Plain new) (h : matchesSuffix p suffix current new = true) :
    numbers ⟨current⟩ = numbers ⟨new⟩ := by
  have hnew := sameNumbers_beforeSuffix hs hn
  have hmatch {form : List Char} (hform : SameNumbers form current)
      (heq : form = beforeSuffix suffix new) : numbers ⟨current⟩ = numbers ⟨new⟩ := by
    rw [← hform.2, heq, hnew.2]
  simp only [matchesSuffix, Bool.or_eq_true, decide_eq_true_eq] at h
  have hbase : SameNumbers (if (p.strictAlignmentIgnoreSuffix && hasWord suffix current &&
      movesForward current new) = true then beforeSuffix suffix current else current) current := by
    split
    · exact sameNumbers_beforeSuffix hs hp
    · exact .refl hp
  rcases h with heq | heq
  · exact hmatch hbase heq
  · exact hmatch ((sameNumbers_osgiBase hs hplain hbase.1).trans hbase) heq

theorem numbers_eq_of_compatibleChars
    (hs : ∀ suffix ∈ p.acceptedSuffixes.map String.toList, Lettered suffix)
    (hplain : ∀ suffix ∈ p.acceptedSuffixes.map String.toList, Plain suffix)
    (hp : Plain old) (hn : Plain new) (h : compatibleChars p old new = true) :
    numbers ⟨old⟩ = numbers ⟨new⟩ := by
  simp only [compatibleChars, Bool.or_eq_true, decide_eq_true_eq] at h
  rcases h with rfl | h
  · rfl
  · split at h
    · have hcurrent := sameNumbers_withoutMarker (p := p) hp
      simp only [Bool.or_eq_true, decide_eq_true_eq] at h
      rcases h with rfl | rfl
      · exact hcurrent.2.symm
      · exact ((sameNumbers_toOsgi (v := ⟨_⟩) hcurrent.1).trans hcurrent).2.symm
    · rename_i primary alternatives hsuffixes
      rw [hsuffixes] at hs hplain
      obtain ⟨variant, hvariant, hany⟩ := List.any_eq_true.1 h
      obtain ⟨suffix, hsuffix, hmatch⟩ := List.any_eq_true.1 hany
      have hsame := sameNumbers_variants hs hplain hp hvariant
      have hcurrent := (sameNumbers_withoutMarker (p := p) hsame.1).trans hsame
      rw [← hcurrent.2]
      exact numbers_eq_of_matchesSuffix (hs suffix hsuffix) (hplain suffix hsuffix) hcurrent.1 hn
        hmatch

/-- The strict check lets no other major, minor or micro number pass. -/
theorem numbers_eq_of_compatible (p : Policy) (old new : String)
    (hs : ∀ suffix ∈ p.acceptedSuffixes, OneLineAscii suffix.toList ∧ Lettered suffix.toList)
    (hold : OneLineAscii old.toList) (hnew : OneLineAscii new.toList)
    (h : compatible p old new = true) :
    (ofString old).major = (ofString new).major ∧ (ofString old).minor = (ofString new).minor ∧
      (ofString old).micro = (ofString new).micro := by
  have hlettered : ∀ suffix ∈ p.acceptedSuffixes.map String.toList, Lettered suffix := by
    simpa using fun suffix hmem => (hs suffix hmem).2
  have hplain : ∀ suffix ∈ p.acceptedSuffixes.map String.toList, Plain suffix := by
    simpa using fun suffix hmem => (hs suffix hmem).1.plain
  have hnumbers := numbers_eq_of_compatibleChars hlettered hplain hold.plain hnew.plain h
  simp only [numbers, Prod.mk.injEq] at hnumbers
  exact hnumbers

/-- Missing numbers are filled in, and the suffix and a build number are added. -/
theorem numbers_eq_of_redhat :
    (ofString "1.0").major = (ofString "1.0.0.redhat-1").major ∧
      (ofString "1.0").minor = (ofString "1.0.0.redhat-1").minor ∧
      (ofString "1.0").micro = (ofString "1.0.0.redhat-1").micro :=
  numbers_eq_of_compatible { versionSuffix := some "redhat" } "1.0" "1.0.0.redhat-1"
    (by
      have hsuffixes : Policy.acceptedSuffixes { versionSuffix := some "redhat" } = ["redhat"] := by
        decide
      rw [hsuffixes]
      simpa using ⟨by decide, 'r', "edhat".toList, by decide⟩)
    (by decide) (by decide) (by decide)

end Realign.Strict
