import Mathlib.Data.List.Infix
import Realign.Version.Split

/-!
Version texts read from the front. Where no decimal digit is a separator too, the first
acceptable way to take a text apart is the greedy one: a number is read to the end of its digits,
a further number is read where separators lead to one, and what is left is the rest. If the rest
spans a line no way is acceptable, as every other way leaves more of the text.
-/
namespace Realign.Version

open Text

/-- No decimal digit of the text is a separator. -/
def PlainDigits (text : List Char) : Prop :=
  ∀ c ∈ text, isDecimal c = true → isSeparator c = false

/-- The number that a text starts with, and what follows it. -/
def number? (text : List Char) : Option (List Char × List Char) :=
  if text.takeWhile isDecimal = [] then none
  else some (text.takeWhile isDecimal, text.dropWhile isDecimal)

/-- The number behind the separators that a text starts with. -/
def nextNumber? (text : List Char) : Option (List Char × List Char) :=
  if text.takeWhile isSeparator = [] then none else number? (text.dropWhile isSeparator)

def putMajor (digits : List Char) (s : Split) : Split := { s with major := some digits }

def putMinor (digits : List Char) (s : Split) : Split := { s with minor := some digits }

def putMicro (digits : List Char) (s : Split) : Split := { s with micro := some digits }

def scanRest (text : List Char) : Split := { rest := text }

/-- Reads a number behind separators, if there is one, and goes on behind it. -/
def scanNext (put : List Char → Split → Split) (behind : List Char → Split) (text : List Char) :
    Split :=
  match nextNumber? text with
  | some (digits, rest) => put digits (behind rest)
  | none => scanRest text

def scanMicro : List Char → Split := scanNext putMicro scanRest

def scanMinor : List Char → Split := scanNext putMinor scanMicro

/-- The greedy way to take a text apart. -/
def scan (text : List Char) : Split :=
  match number? text with
  | some (digits, rest) => putMajor digits (scanMinor rest)
  | none => scanRest text

/-- What is read is not acceptable if the rest spans a line. -/
def oneLine (s : Split) : Option Split := if '\n' ∈ s.rest then none else some s

theorem PlainDigits.of_suffix {text rest : List Char} (h : PlainDigits text) (hr : rest <:+ text) :
    PlainDigits rest := fun c hc => h c (hr.subset hc)

section Number

variable {text digits rest : List Char}

theorem number?_eq_some (h : number? text = some (digits, rest)) :
    text.takeWhile isDecimal = digits ∧ text.dropWhile isDecimal = rest ∧ digits ≠ [] := by
  unfold number? at h
  split at h
  · cases h
  · rename_i hne
    cases h
    exact ⟨rfl, rfl, hne⟩

theorem nextNumber?_eq_some (h : nextNumber? text = some (digits, rest)) :
    number? (text.dropWhile isSeparator) = some (digits, rest) := by
  unfold nextNumber? at h
  split at h
  · cases h
  · exact h

theorem number?_suffix (h : number? text = some (digits, rest)) : rest <:+ text := by
  rw [← (number?_eq_some h).2.1]
  exact List.dropWhile_suffix _

theorem nextNumber?_suffix (h : nextNumber? text = some (digits, rest)) : rest <:+ text :=
  (number?_suffix (nextNumber?_eq_some h)).trans (List.dropWhile_suffix _)

theorem nextNumber?_of_not_separator {c : Char} (hc : isSeparator c = false) :
    nextNumber? (c :: text) = none := by
  simp [nextNumber?, hc]

end Number

/-- What a scan reads stands at the end of the text, and before a letter or digit it reads
nothing else. -/
structure Greedy (behind : List Char → Split) : Prop where
  suffix : ∀ text, (behind text).rest <:+ text
  stops : ∀ c text, isSeparator c = false → behind (c :: text) = scanRest (c :: text)

theorem greedy_scanRest : Greedy scanRest := ⟨fun text => List.suffix_refl text, fun _ _ _ => rfl⟩

theorem Greedy.scanNext {put : List Char → Split → Split} {behind : List Char → Split}
    (h : Greedy behind) (hput : ∀ digits s, (put digits s).rest = s.rest) :
    Greedy (scanNext put behind) := by
  constructor
  · intro text
    unfold Version.scanNext
    cases hn : nextNumber? text with
    | none => exact List.suffix_refl text
    | some row =>
      obtain ⟨digits, rest⟩ := row
      simp only [hput]
      exact (h.suffix rest).trans (nextNumber?_suffix hn)
  · intro c text hc
    rw [Version.scanNext, nextNumber?_of_not_separator hc]

theorem greedy_scanMicro : Greedy scanMicro := greedy_scanRest.scanNext fun _ _ => rfl

theorem greedy_scanMinor : Greedy scanMinor := greedy_scanMicro.scanNext fun _ _ => rfl

/-- What spans a line is not acceptable with more text before it either. -/
theorem oneLine_eq_none_of_suffix {behind : List Char → Split} (h : Greedy behind)
    {text rest : List Char} (hr : rest <:+ text) (hnone : oneLine (behind rest) = none) :
    oneLine (scanRest text) = none := by
  have hline : '\n' ∈ (behind rest).rest := by
    by_contra hnot
    rw [oneLine, if_neg hnot] at hnone
    cases hnone
  have hmem : '\n' ∈ (scanRest text).rest := hr.subset ((h.suffix rest).subset hline)
  rw [oneLine, if_pos hmem]

section Ways

variable {add : Char → Split → Split} {put : List Char → Split → Split}
  {inner : List Char → Split} {text : List Char}

/-- A run is read to its end, if what is behind a shorter run is not acceptable when what is behind
the whole run is not. -/
theorem run_eq (p : Char → Bool) (add : Char → Split → Split)
    (longer behind : List Char → Option Split) (hnil : longer [] = none)
    (hcons : ∀ c text, longer (c :: text) =
      (Ways.run p c (longer text) (behind text)).map (add c))
    (hbehind : ∀ c rest, c :: rest <:+ text → p c = true → behind (rest.dropWhile p) = none →
      behind (c :: rest) = none) :
    longer text =
      if text.takeWhile p = [] then none
      else (behind (text.dropWhile p)).map fun s => (text.takeWhile p).foldr add s := by
  induction text with
  | nil => simp [hnil]
  | cons c text ih =>
    have hrest := ih fun d rest hd => hbehind d rest (hd.trans (List.suffix_cons c text))
    rw [hcons, Ways.run]
    by_cases hc : p c = true
    · rw [if_pos hc, hrest]
      simp only [List.takeWhile_cons, List.dropWhile_cons, hc, if_true, reduceCtorEq, if_false,
        List.foldr_cons]
      cases text with
      | nil => simp
      | cons d text =>
        by_cases hd : p d = true
        · simp only [List.takeWhile_cons, List.dropWhile_cons, hd, if_true, reduceCtorEq, if_false]
          cases hb : behind (text.dropWhile p) with
          | none => simp [hbehind d text (List.suffix_cons c _) hd hb]
          | some s => simp
        · simp [hd]
    · simp [hc]

theorem foldr_put {digits : List Char} {s : Split} (hone : ∀ c, add c s = put [c] s)
    (hmore : ∀ c digits, add c (put digits s) = put (c :: digits) s) (hd : digits ≠ []) :
    digits.foldr add s = put digits s := by
  induction digits with
  | nil => exact absurd rfl hd
  | cons c digits ih =>
    cases digits with
    | nil => exact hone c
    | cons d digits => rw [List.foldr_cons, ih (by simp), hmore]

/-- A number is read to the end of its digits. -/
theorem number_way (add : Char → Split → Split) (longer behind : List Char → Option Split)
    (hg : Greedy inner) (hput : ∀ digits s, (put digits s).rest = s.rest)
    (hnil : longer [] = none)
    (hcons : ∀ c text, longer (c :: text) =
      (Ways.run isDecimal c (longer text) (behind text)).map (add c))
    (hone : ∀ c text, add c (inner text) = put [c] (inner text))
    (hmore : ∀ c digits text, add c (put digits (inner text)) = put (c :: digits) (inner text))
    (hbehind : ∀ rest, rest <:+ text → behind rest = oneLine (inner rest))
    (hplain : PlainDigits text) :
    longer text = (number? text).bind fun row => oneLine (put row.1 (inner row.2)) := by
  rw [run_eq isDecimal add longer behind hnil hcons, number?]
  · split
    · rfl
    · rename_i hne
      rw [hbehind _ (List.dropWhile_suffix _), Option.bind_some, oneLine, oneLine, hput]
      split
      · rfl
      · rw [Option.map_some, foldr_put (fun c => hone c _) (fun c digits => hmore c digits _) hne]
  · intro c rest hs hc hnone
    have hrest : rest.dropWhile isDecimal <:+ c :: rest :=
      (List.dropWhile_suffix _).trans (List.suffix_cons c rest)
    rw [hbehind _ (hrest.trans hs)] at hnone
    rw [hbehind _ hs, hg.stops c rest (hplain c (hs.subset (List.mem_cons_self ..)) hc)]
    exact oneLine_eq_none_of_suffix hg hrest hnone

/-- Separators before a number are read to their end. -/
theorem next_way (longer behind : List Char → Option Split)
    {read : List Char × List Char → Option Split} (hnil : longer [] = none)
    (hcons : ∀ c text, longer (c :: text) =
      Ways.run isSeparator c (longer text) (behind text))
    (hbehind : ∀ rest, rest <:+ text → behind rest = (number? rest).bind read)
    (hplain : PlainDigits text) : longer text = (nextNumber? text).bind read := by
  rw [run_eq isSeparator (fun _ s => s) longer behind hnil
    (fun c text => by rw [hcons, Option.map_id']), nextNumber?]
  · split
    · rfl
    · rw [hbehind _ (List.dropWhile_suffix _)]
      simp
  · intro c rest hs hc _
    have hnot : isDecimal c = false := by
      by_contra hd
      rw [Bool.not_eq_false] at hd
      rw [hplain c (hs.subset (List.mem_cons_self ..)) hd] at hc
      cases hc
    rw [hbehind _ hs]
    simp [number?, hnot]

/-- Reading a further number comes before reading none. -/
theorem scanNext_way (hg : Greedy inner) (hput : ∀ digits s, (put digits s).rest = s.rest) :
    (((nextNumber? text).bind fun row => oneLine (put row.1 (inner row.2))) <|>
        oneLine (scanRest text)) = oneLine (scanNext put inner text) := by
  unfold scanNext
  cases hn : nextNumber? text with
  | none => rfl
  | some row =>
    obtain ⟨digits, rest⟩ := row
    rw [Option.bind_some]
    cases ho : oneLine (put digits (inner rest)) with
    | some s => rfl
    | none =>
      have hnone : oneLine (inner rest) = none := by
        rw [oneLine, hput] at ho
        rw [oneLine]
        split at ho
        · rename_i hline
          rw [if_pos hline]
        · cases ho
      exact oneLine_eq_none_of_suffix hg (nextNumber?_suffix hn) hnone

end Ways

section Split

variable {text : List Char}

theorem rest_way (text : List Char) : (Ways.of text).rest = oneLine (scanRest text) :=
  Ways.rest_of text

theorem scanMicro_minor (text : List Char) : (scanMicro text).minor = none := by
  unfold scanMicro scanNext
  split <;> rfl

theorem scanMinor_major (text : List Char) : (scanMinor text).major = none := by
  unfold scanMinor scanNext
  split
  · unfold putMinor scanMicro scanNext
    split <;> rfl
  · rfl

theorem micro_way (h : PlainDigits text) :
    (Ways.of text).micro =
      (number? text).bind fun row => oneLine (putMicro row.1 (scanRest row.2)) :=
  number_way Split.toMicro (fun text => (Ways.of text).micro) (fun text => (Ways.of text).rest)
    greedy_scanRest (fun _ _ => rfl) rfl (fun _ _ => rfl) (fun _ _ => rfl) (fun _ _ _ => rfl)
    (fun rest _ => rest_way rest) h

theorem afterMinor_way (h : PlainDigits text) :
    (Ways.of text).afterMinor = oneLine (scanMicro text) := by
  have hbefore := next_way (fun text => (Ways.of text).beforeMicro)
    (fun text => (Ways.of text).micro) rfl (fun _ _ => rfl)
    (fun rest hr => micro_way (h.of_suffix hr)) h
  rw [Ways.afterMinor, rest_way]
  simp only [hbefore]
  exact scanNext_way greedy_scanRest fun _ _ => rfl

theorem minor_way (h : PlainDigits text) :
    (Ways.of text).minor =
      (number? text).bind fun row => oneLine (putMinor row.1 (scanMicro row.2)) :=
  number_way Split.toMinor (fun text => (Ways.of text).minor)
    (fun text => (Ways.of text).afterMinor) greedy_scanMicro (fun _ _ => rfl) rfl (fun _ _ => rfl)
    (fun c text => by rw [Split.toMinor, scanMicro_minor]; rfl) (fun _ _ _ => rfl)
    (fun _ hr => afterMinor_way (h.of_suffix hr)) h

theorem afterMajor_way (h : PlainDigits text) :
    (Ways.of text).afterMajor = oneLine (scanMinor text) := by
  have hbefore := next_way (fun text => (Ways.of text).beforeMinor)
    (fun text => (Ways.of text).minor) rfl (fun _ _ => rfl)
    (fun rest hr => minor_way (h.of_suffix hr)) h
  rw [Ways.afterMajor, rest_way]
  simp only [hbefore]
  exact scanNext_way greedy_scanMicro fun _ _ => rfl

theorem major_way (h : PlainDigits text) :
    (Ways.of text).major =
      (number? text).bind fun row => oneLine (putMajor row.1 (scanMinor row.2)) :=
  number_way Split.toMajor (fun text => (Ways.of text).major)
    (fun text => (Ways.of text).afterMajor) greedy_scanMinor (fun _ _ => rfl) rfl (fun _ _ => rfl)
    (fun c text => by rw [Split.toMajor, scanMinor_major]; rfl) (fun _ _ _ => rfl)
    (fun _ hr => afterMajor_way (h.of_suffix hr)) h

/-- A text falls apart in the greedy way, or not at all if that leaves a rest that spans a line. -/
theorem split_eq_scan (h : PlainDigits text) :
    Split.of text = (oneLine (scan text)).getD (scanRest text) := by
  rw [Split.of, major_way h, scan]
  cases number? text with
  | none =>
    dsimp only
    rw [oneLine]
    split <;> rfl
  | some row => rfl

end Split

end Realign.Version
