import Realign.Proofs.Version.Bare

/-!
One qualifier in the place of another. What is read before the qualifier does not depend on more of
it than whether it starts with a digit or a letter, so a version keeps its numbers when the end of
its qualifier is rewritten. A version that is extended keeps its numbers as well, and the extension
is the end of its release qualifier.
-/
namespace Realign.Version

open Text

section Exchange

variable {tail tail' text head : List Char} {s s' : Split} {c d : Char} {R : Split → Split → Prop}

/-- One line that starts with a letter or an ASCII digit. -/
structure Opened (text : List Char) (c : Char) : Prop where
  head : text.head? = some c
  letterOrDigit : isSeparator c = false
  line : '\n' ∉ text

/-- Both are read alike before the tails, or the first is read into its tail. -/
def Exchanged (tail tail' : List Char) (s s' : Split) : Prop :=
  (∃ front, s.rest = front ++ tail ∧ s' = { s with rest := front ++ tail' }) ∨
    s.rest.length < tail.length

theorem keeps_exchanged (tail tail' : List Char) : Keeps fun _ => Exchanged tail tail' := by
  refine ⟨fun _ h => h, ?_, ?_, ?_⟩
  all_goals
    rintro c s s' (⟨front, hrest, rfl⟩ | hshort)
    · exact Or.inl ⟨front, hrest, rfl⟩
    · exact Or.inr hshort

theorem length_rest_of_reached (h : Reached (Ways.of text) s) : s.rest.length ≤ text.length := by
  obtain ⟨front, htext, -⟩ := (reads_of_reached h).front
  rw [htext, List.length_append]
  omega

theorem isSome_rest (h : '\n' ∉ text) : (Ways.of text).rest.isSome = true := by
  rw [Ways.rest_of, if_neg h]
  rfl

theorem rel_of_isSome {a b : Option Split} (h : a.isSome = b.isSome)
    (hR : ∀ s s', a = some s → b = some s' → R s s') : Option.Rel R a b := by
  cases a with
  | none =>
    cases b with
    | none => exact .none
    | some s' => cases h
  | some s =>
    cases b with
    | none => cases h
    | some s' => exact .some (hR s s' rfl rfl)

/-- A line that starts with a letter or an ASCII digit has a number to read if that is a digit. -/
theorem Opened.isSome_ways (h : Opened text c) :
    (Ways.of text).micro.isSome = isDecimal c ∧ (Ways.of text).beforeMicro = none ∧
      (Ways.of text).minor.isSome = isDecimal c ∧ (Ways.of text).beforeMinor = none ∧
      (Ways.of text).major.isSome = isDecimal c := by
  obtain ⟨text, rfl⟩ := List.head?_eq_some_iff.1 h.head
  have hrest := isSome_rest fun hline => h.line (List.mem_cons_of_mem c hline)
  have hnone (longer behind : Option Split) : Ways.run isSeparator c longer behind = none := by
    rw [Ways.run, h.letterOrDigit]
    rfl
  simp only [Ways.of_cons, Ways.before, Ways.afterMinor, Ways.afterMajor, Option.isSome_map,
    isSome_run, isSome_orElse, hrest, hnone, Bool.or_true, Bool.and_true, and_self]

theorem length_rest_of_run {longer behind : Option Split} {add : Split → Split} {p : Char → Bool}
    {n : Nat} (h : (Ways.run p c longer behind).map add = some s)
    (hadd : ∀ s, (add s).rest = s.rest)
    (hlonger : ∀ s, longer = some s → s.rest.length ≤ n)
    (hbehind : ∀ s, behind = some s → s.rest.length ≤ n) : s.rest.length ≤ n := by
  obtain ⟨s, hrun, rfl⟩ := Option.map_eq_some_iff.1 h
  rw [hadd]
  exact (run_eq_some hrun).2.elim (hlonger s) (hbehind s)

theorem length_rest_of_orElse {longer behind : Option Split} {n : Nat}
    (hlonger : ∀ s, longer = some s → s.rest.length ≤ n)
    (hbehind : ∀ s, behind = some s → s.rest.length ≤ n) :
    ∀ s, (longer <|> behind) = some s → s.rest.length ≤ n :=
  fun s h => (orElse_eq_some h).elim (hlonger s) (hbehind s)

/-- What is read as a number leaves less of the text. -/
theorem length_rest_lt (h : (Ways.of text).micro = some s ∨ (Ways.of text).minor = some s ∨
      (Ways.of text).major = some s) : s.rest.length < text.length := by
  cases text with
  | nil => rcases h with h | h | h <;> cases h
  | cons c text =>
    have hrest (s : Split) (h : (Ways.of text).rest = some s) := length_rest_of_reached (.rest h)
    rw [List.length_cons, Nat.lt_succ_iff]
    rcases h with h | h | h
    · exact length_rest_of_run h (fun _ => rfl) (fun _ h => length_rest_of_reached (.micro h)) hrest
    · exact length_rest_of_run h (fun _ => rfl) (fun _ h => length_rest_of_reached (.minor h))
        (length_rest_of_orElse (fun _ h => length_rest_of_reached (.beforeMicro h)) hrest)
    · exact length_rest_of_run h (fun _ => rfl) (fun _ h => length_rest_of_reached (.major h))
        (length_rest_of_orElse (fun _ h => length_rest_of_reached (.beforeMinor h)) hrest)

theorem Opened.alike (h : Opened tail c) (h' : Opened tail' d) (hcd : isDecimal c = isDecimal d) :
    Alike (fun _ => Exchanged tail tail') (Ways.of tail) (Ways.of tail') := by
  obtain ⟨hmicro, hbeforeMicro, hminor, hbeforeMinor, hmajor⟩ := h.isSome_ways
  obtain ⟨hmicro', hbeforeMicro', hminor', hbeforeMinor', hmajor'⟩ := h'.isSome_ways
  rw [← hcd] at hmicro' hminor' hmajor'
  refine ⟨?_, rel_of_isSome (hmicro.trans hmicro'.symm) fun s _ hs _ =>
      Or.inr (length_rest_lt (Or.inl hs)), ?_, rel_of_isSome (hminor.trans hminor'.symm)
      fun s _ hs _ => Or.inr (length_rest_lt (Or.inr (Or.inl hs))), ?_,
      rel_of_isSome (hmajor.trans hmajor'.symm) fun s _ hs _ =>
        Or.inr (length_rest_lt (Or.inr (Or.inr hs)))⟩
  · rw [Ways.rest_of, Ways.rest_of, if_neg h.line, if_neg h'.line]
    exact .some (Or.inl ⟨[], rfl, rfl⟩)
  · rw [hbeforeMicro, hbeforeMicro']
    exact .none
  · rw [hbeforeMinor, hbeforeMinor']
    exact .none

/-- The end of the rest is exchanged for another line that starts with a digit too, or with a letter
too: all that is read before it stays. -/
theorem split_exchange (h : Opened tail c) (h' : Opened tail' d) (hcd : isDecimal c = isDecimal d)
    (hrest : tail <:+ (Split.of (head ++ tail)).rest) :
    ∃ front, (Split.of (head ++ tail)).rest = front ++ tail ∧
      Split.of (head ++ tail') = { Split.of (head ++ tail) with rest := front ++ tail' } := by
  have hways (head : List Char) : Option.Rel (Exchanged tail tail')
      (Ways.of (head ++ tail)).rest (Ways.of (head ++ tail')).rest := by
    rw [Ways.rest_of, Ways.rest_of]
    by_cases hline : '\n' ∈ head
    · rw [if_pos (List.mem_append_left _ hline), if_pos (List.mem_append_left _ hline)]
      exact .none
    · rw [if_neg (by simp [hline, h.line]), if_neg (by simp [hline, h'.line])]
      exact .some (Or.inl ⟨head, rfl, rfl⟩)
  have halike := alike_append (keeps_exchanged tail tail') (h.alike h' hcd) hways head
  -- a reading that got into the tail would leave less of it than the rest has
  rcases rel_split halike (Or.inl ⟨head, rfl, rfl⟩) with hexchanged | hshort
  · exact hexchanged
  · exact absurd hrest.length_le (Nat.not_le.2 hshort)

theorem Opened.starts (h : Opened tail c) : ∃ c ∈ tail.head?, isSeparator c = false :=
  ⟨c, h.head, h.letterOrDigit⟩

/-- A version with another end of its qualifier has the same numbers. -/
theorem numbers_exchange (head : List Char) (h : Opened tail c) (h' : Opened tail' d)
    (hcd : isDecimal c = isDecimal d) (htail : tail <:+ qualifier ⟨head ++ tail⟩) :
    numbers ⟨head ++ tail'⟩ = numbers ⟨head ++ tail⟩ ∧
      ∃ stem, qualifier ⟨head ++ tail⟩ = stem ++ tail ∧
        qualifier ⟨head ++ tail'⟩ = stem ++ tail' := by
  obtain ⟨front, hrest, hsplit⟩ :=
    split_exchange h h' hcd (htail.trans (List.dropWhile_suffix isSeparator))
  refine ⟨?_, front.dropWhile isSeparator, ?_, ?_⟩
  · simp only [numbers, major, minor, micro, split, hsplit]
  · rw [qualifier, split, hrest, dropWhile_append_of_starts h.starts]
  · rw [qualifier, split, hsplit, dropWhile_append_of_starts h'.starts]

end Exchange

section Extension

variable {v w : Version} {segment head stem mark text : List Char} {c : Char}

/-- What a release can end in: one line that starts and ends in a letter or a digit and that is not
the end of a snapshot marker, nor has one at its end. -/
structure Segment (segment : List Char) : Prop where
  plain : Plain segment
  starts : ∃ c ∈ segment.head?, isSeparator c = false
  closed : ∀ c ∈ segment.getLast?, isSeparator c = false
  unmarked : ∀ head, (∀ c ∈ head.getLast?, c.isAlpha = false) →
    beforeSnapshot (head ++ segment) = head ++ segment

theorem Segment.ne_nil (h : Segment segment) : segment ≠ [] := by
  obtain ⟨c, hc, -⟩ := h.starts
  exact List.ne_nil_of_mem (List.mem_of_head? hc)

/-- The marker behind a segment is what is taken off. -/
theorem Segment.beforeSnapshot (h : Segment segment)
    (hhead : ∀ c ∈ head.getLast?, c.isAlpha = false) (hm : Marks mark) :
    Version.beforeSnapshot (head ++ (segment ++ mark)) = head ++ segment := by
  rw [← List.append_assoc]
  refine beforeSnapshot_append_marks hm (fun c hc => ?_) (h.unmarked head hhead)
  rw [List.getLast?_append_of_ne_nil _ h.ne_nil] at hc
  exact h.closed c hc

/-- The first version becomes the second one: it keeps its numbers and its marker, and `text` is the
release qualifier. -/
structure Requalified (v w : Version) (text : List Char) : Prop where
  plain : Plain w.chars
  numbers : w.numbers = v.numbers
  marker : w.marker = v.marker
  releaseQualifier : w.releaseQualifier = text

theorem isSnapshot_eq_of_marker (h : w.marker = v.marker) : w.isSnapshot = v.isSnapshot := by
  have hmarker (u : Version) : u.isSnapshot = !u.marker.isEmpty := by
    have hlength := congrArg List.length (release_append_marker u).1
    rw [List.length_append] at hlength
    cases hm : u.marker with
    | nil => simpa [isSnapshot, release, hm] using hlength.symm
    | cons c word =>
      rw [hm, List.length_cons] at hlength
      simpa [isSnapshot, release] using (by omega : u.release.length ≠ u.chars.length)
  rw [hmarker, hmarker, h]

/-- The release of a qualified version is text without letters and the release qualifier. -/
theorem exists_front (h : v.releaseQualifier ≠ []) :
    ∃ front, (∀ c ∈ front, c.isAlpha = false) ∧ v.release = front ++ v.releaseQualifier ∧
      v.qualifier = v.releaseQualifier ++ v.marker := by
  obtain ⟨front, hchars, hfront⟩ := letterless_append_qualifier v
  have hrelease : v.release = front ++ v.releaseQualifier := by
    rcases beforeSnapshot_letterless_append hfront v.qualifier with heq | ⟨hword, -⟩
    · rw [release, hchars, heq, releaseQualifier]
    · exact absurd (beforeSnapshot_append hword []) h
  have htext : front ++ v.qualifier = front ++ (v.releaseQualifier ++ v.marker) := by
    rw [← hchars, (release_append_marker v).1, hrelease, List.append_assoc]
  exact ⟨front, hfront, hrelease, List.append_cancel_left htext⟩

theorem marker_of_release (text : List Char) (hchars : v.chars = text ++ mark)
    (hrelease : v.release = text) : v.marker = mark := by
  rw [marker, hrelease, hchars, List.drop_left]

theorem opened_qualifier (hp : Plain v.chars) (h : v.qualifier ≠ []) :
    ∃ c, Opened v.qualifier c := by
  obtain ⟨c, rest, hq⟩ := List.exists_cons_of_ne_nil h
  have hsep : isSeparator c = false := by
    have hnot := List.head?_dropWhile_not isSeparator v.split.rest
    rw [← qualifier, hq] at hnot
    exact hnot
  obtain ⟨front, hchars, -⟩ := letterless_append_qualifier v
  refine ⟨c, by rw [hq]; rfl, hsep, fun hline => (hp '\n' ?_).1 rfl⟩
  rw [hchars]
  exact List.mem_append_right front hline

/-- What stands before the last segment of an extended release qualifier. -/
def footing (v : Version) : List Char := if v.hasQualifier then v.releaseQualifier ++ ['-'] else []

theorem last_joint_not_isAlpha {joint : Char} (h : joint.isAlpha = false) (text : List Char) :
    ∀ c ∈ (text ++ [joint]).getLast?, c.isAlpha = false := by
  intro c hc
  rw [List.getLast?_concat] at hc
  cases hc
  exact h

/-- A version that ends in a segment and the marker, as its qualifier does. -/
theorem requalified_of_segment (head stem : List Char) (hs : Segment segment)
    (hhead : ∀ c ∈ head.getLast?, c.isAlpha = false)
    (hstem : ∀ c ∈ stem.getLast?, c.isAlpha = false) (hplain : Plain w.chars)
    (hchars : w.chars = head ++ (segment ++ v.marker))
    (hqualifier : w.qualifier = stem ++ (segment ++ v.marker)) (hnumbers : w.numbers = v.numbers) :
    Requalified v w (stem ++ segment) := by
  have hmarks := (release_append_marker v).2
  refine ⟨hplain, hnumbers, marker_of_release (head ++ segment) ?_ ?_, ?_⟩
  · rw [hchars, List.append_assoc]
  · rw [release, hchars, hs.beforeSnapshot hhead hmarks]
  · rw [releaseQualifier, hqualifier, hs.beforeSnapshot hstem hmarks]

theorem plain_marker (hp : Plain v.chars) : Plain v.marker := by
  refine hp.subset ?_
  rw [(release_append_marker v).1]
  exact List.subset_append_right _ _

/-- Behind a hyphen a release qualifier goes on. -/
theorem requalified_of_qualified (hp : Plain v.chars) (hs : Segment segment)
    (hq : v.releaseQualifier ≠ []) :
    Requalified v ⟨v.release ++ '-' :: segment ++ v.marker⟩
      (v.releaseQualifier ++ ['-'] ++ segment) := by
  obtain ⟨front, -, hrelease, hqualifier⟩ := exists_front hq
  have hold : v.chars = front ++ v.qualifier := by
    rw [hqualifier, ← List.append_assoc, ← hrelease]
    exact (release_append_marker v).1
  have htext : v.release ++ '-' :: segment ++ v.marker =
      front ++ (v.releaseQualifier ++ ['-'] ++ (segment ++ v.marker)) := by
    simp [hrelease]
  have hplain : Plain (v.release ++ '-' :: segment ++ v.marker) := by
    have hjoint : Plain ['-'] := by decide
    refine (Plain.append (hp.subset ?_) (hjoint.append hs.plain)).append (plain_marker hp)
    rw [(release_append_marker v).1]
    exact List.subset_append_left _ _
  rw [htext] at hplain ⊢
  obtain ⟨c, hopened⟩ := opened_qualifier hp (by simp [hqualifier, hq])
  have hopened' : Opened (v.releaseQualifier ++ ['-'] ++ (segment ++ v.marker)) c := by
    have hhead := hopened.head
    rw [hqualifier, List.head?_append_of_ne_nil _ hq] at hhead
    refine ⟨?_, hopened.letterOrDigit, fun hline => ?_⟩
    · rw [List.append_assoc, List.head?_append_of_ne_nil _ hq, hhead]
    · exact (hplain _ (List.mem_append_right front hline)).1 rfl
  obtain ⟨hnumbers, stem, hstem, hnew⟩ := numbers_exchange front hopened hopened' rfl
    (by rw [← hold])
  -- all of the old qualifier was exchanged for a longer one that starts with the same character
  have hnil : stem = [] := by
    rw [← hold] at hstem
    exact List.self_eq_append_left.1 hstem
  rw [hnil, List.nil_append] at hnew
  refine requalified_of_segment (front ++ (v.releaseQualifier ++ ['-'])) _ hs ?_
    (last_joint_not_isAlpha (by decide) _) hplain (by simp) hnew (by rw [hnumbers, ← hold])
  rw [← List.append_assoc]
  exact last_joint_not_isAlpha (by decide) _

/-- Behind three numbers a version without a release qualifier gets one. -/
theorem requalified_of_unqualified (hp : Plain v.chars) (hs : Segment segment) :
    Requalified v ⟨v.numbersDot ++ segment ++ v.marker⟩ segment := by
  have hplain : Plain (segment ++ v.marker) := hs.plain.append (plain_marker hp)
  obtain ⟨hplain', hsplit⟩ := split_numbersDot hp.digits hplain
  obtain ⟨c, hhead, hc⟩ := hs.starts
  have hopened : Opened (segment ++ v.marker) c := by
    refine ⟨?_, hc, fun hline => (hplain _ hline).1 rfl⟩
    rw [List.head?_append_of_ne_nil _ hs.ne_nil]
    exact hhead
  rw [List.append_assoc]
  have hqualifier : qualifier ⟨v.numbersDot ++ (segment ++ v.marker)⟩ = segment ++ v.marker := by
    rw [qualifier, split, hsplit]
    exact dropWhile_append_of_starts hopened.starts ['.']
  refine requalified_of_segment v.numbersDot [] hs
    (last_joint_not_isAlpha (by decide) _) ?_ hplain' rfl hqualifier
    (sameNumbers_numbersDot hp.digits hplain).2
  rintro c ⟨⟩

/-- An extended version ends in the extension. -/
theorem requalified_extend (hp : Plain v.chars) (hs : Segment segment) :
    Requalified v (v.extend segment) (v.footing ++ segment) := by
  unfold extend footing
  split
  · rename_i hq
    exact requalified_of_qualified hp hs (by simpa [hasQualifier] using hq)
  · exact requalified_of_unqualified hp hs

end Extension

end Realign.Version
