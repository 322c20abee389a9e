import Realign.Proofs.Alignment.Proposal

/-!
Wishes for one scope, entered one after another. What stands in the ledger for the scope depends
on nothing but these wishes: on whether those before the first override agree, on the last
override, and on who made a wish. One more wish is taken if those before the first override
agree still, and otherwise it clashes.
-/
namespace Realign.Ledger

/-- All ask for the same version. -/
def Unanimous (ws : List Wish) : Prop := ∀ w ∈ ws, ∀ w' ∈ ws, w.version = w'.version

instance (ws : List Wish) : Decidable (Unanimous ws) :=
  inferInstanceAs (Decidable (∀ w ∈ ws, ∀ w' ∈ ws, w.version = w'.version))

def beforeOverride (ws : List Wish) : List Wish := ws.takeWhile fun w => !w.forced

/-- The version that wishes amount to if they do not clash: that of the last override, or else of
the first wish. -/
def prevailing? (ws : List Wish) : Option String :=
  ((ws.reverse.find? Wish.forced) <|> ws.head?).map Wish.version

/-- Whether an answer reports a clash. -/
def IsClash (answer : Except AlignError Bool) : Prop :=
  ∃ holder property existing contributors proposed source,
    answer = .error (.propertyClash holder property existing contributors proposed source)

section Wishes

variable {ws ws' : List Wish} {w : Wish}

theorem Unanimous.of_subset (h : Unanimous ws) (hsub : ws' ⊆ ws) : Unanimous ws' := by
  intro w hw w' hw'
  exact h w (hsub hw) w' (hsub hw')

theorem beforeOverride_append_of_unforced (h : ∀ w ∈ ws, w.forced = false) (more : List Wish) :
    beforeOverride (ws ++ more) = ws ++ beforeOverride more := by
  apply List.takeWhile_append_of_pos
  intro w hw
  rw [h w hw]
  rfl

theorem beforeOverride_of_unforced (h : ∀ w ∈ ws, w.forced = false) : beforeOverride ws = ws := by
  have hnil : beforeOverride [] = [] := rfl
  have happend := beforeOverride_append_of_unforced h []
  rwa [hnil, List.append_nil] at happend

theorem beforeOverride_singleton (w : Wish) :
    beforeOverride [w] = if w.forced then [] else [w] := by
  cases h : w.forced <;> simp [beforeOverride, h]

theorem beforeOverride_append_of_forced (h : ∃ w ∈ ws, w.forced = true) (more : List Wish) :
    beforeOverride (ws ++ more) = beforeOverride ws := by
  obtain ⟨w, hw, hforced⟩ := h
  induction ws with
  | nil => cases hw
  | cons first ws ih =>
    unfold beforeOverride at ih ⊢
    rw [List.cons_append, List.takeWhile_cons, List.takeWhile_cons]
    split
    · rename_i hfirst
      have hne : w ≠ first := by
        intro he
        rw [← he, hforced] at hfirst
        cases hfirst
      rw [ih ((List.mem_cons.1 hw).resolve_left hne)]
    · rfl

theorem beforeOverride_subset_append (more : List Wish) :
    beforeOverride ws ⊆ beforeOverride (ws ++ more) := by
  by_cases h : ∃ w ∈ ws, w.forced = true
  · rw [beforeOverride_append_of_forced h]
    exact List.Subset.refl _
  · have hall : ∀ w ∈ ws, w.forced = false := by simpa using h
    rw [beforeOverride_append_of_unforced hall, beforeOverride_of_unforced hall]
    exact List.subset_append_left _ _

theorem prevailing?_append_forced (h : w.forced = true) :
    prevailing? (ws ++ [w]) = some w.version := by
  simp [prevailing?, h]

theorem prevailing?_append_unforced (h : w.forced = false) (hne : ws ≠ []) :
    prevailing? (ws ++ [w]) = prevailing? ws := by
  have hhead : (ws ++ [w]).head? = ws.head? := by
    rw [List.head?_append_of_ne_nil _ hne]
  rw [prevailing?, prevailing?, hhead]
  simp [h]

theorem exists_mem_of_prevailing? {version : String} (h : prevailing? ws = some version) :
    ∃ w ∈ ws, w.version = version := by
  obtain ⟨w, hw, rfl⟩ := Option.map_eq_some_iff.1 h
  refine ⟨w, ?_, rfl⟩
  cases hf : ws.reverse.find? Wish.forced with
  | none =>
    rw [hf] at hw
    exact List.mem_of_mem_head? hw
  | some w' =>
    rw [hf] at hw
    rw [← Option.some.inj hw]
    exact List.mem_reverse.1 (List.mem_of_find?_eq_some hf)

theorem prevailing?_isSome (h : ws ≠ []) : ∃ version, prevailing? ws = some version := by
  obtain ⟨w, rest, rfl⟩ := List.exists_cons_of_ne_nil h
  unfold prevailing?
  cases (w :: rest).reverse.find? Wish.forced with
  | none => exact ⟨w.version, rfl⟩
  | some w' => exact ⟨w'.version, rfl⟩

end Wishes

section Purged

variable {L : Ledger} {s q : Scope} {r : Revision}

theorem isPurged_iff : L.isPurged s = true ↔ s ∈ L.purged := List.contains_iff_mem

theorem isPurged_put : (L.put s r).isPurged q = L.isPurged q := rfl

theorem isPurged_purge : (L.purge s).isPurged q = true ↔ s = q ∨ L.isPurged q = true := by
  have hpurged : (L.purge s).purged = if s ∈ L.purged then L.purged else L.purged ++ [s] := rfl
  rw [isPurged_iff, isPurged_iff, hpurged]
  split
  · rename_i h
    constructor
    · exact Or.inr
    · intro hq
      rcases hq with rfl | hq
      · exact h
      · exact hq
  · rw [List.mem_append, List.mem_singleton, or_comm, eq_comm]

end Purged

/-- The ledger says of a scope what the wishes for this scope amount to. -/
structure Reflects (L : Ledger) (s : Scope) (ws : List Wish) : Prop where
  purged : L.isPurged s = true ↔ ¬ Unanimous (beforeOverride ws)
  absent : L.get? s = none ↔ ws = [] ∨ ¬ Unanimous (beforeOverride ws)
  new : ∀ r, L.get? s = some r → r.new = prevailing? ws
  forced : ∀ r, L.get? s = some r → (r.forced = true ↔ ∃ w ∈ ws, w.forced = true)
  contributors : ∀ r, L.get? s = some r → ∀ x, x ∈ r.contributors ↔ ∃ w ∈ ws, w.source = x

section Entering

variable {F : Forest} {p : Policy} {L : Ledger} {s : Scope} {ws : List Wish} {w : Wish}

theorem reflects_empty (s : Scope) : Reflects {} s [] := by
  have hagree : Unanimous (beforeOverride []) := by decide
  refine ⟨?_, ?_, ?_, ?_, ?_⟩
  · simp [isPurged, hagree]
  · simp [get?, revisions?]
  all_goals
    intro r hr
    cases hr

/-- What is recorded of a scope, if anything is, says as much as its wishes do. -/
theorem Reflects.revisionAt (h : Reflects L s ws) (hbefore : Unanimous (beforeOverride ws)) :
    (L.revisionAt s).new = prevailing? ws ∧
      ((L.revisionAt s).forced = true ↔ ∃ w ∈ ws, w.forced = true) ∧
      ∀ x, x ∈ (L.revisionAt s).contributors ↔ ∃ w ∈ ws, w.source = x := by
  rw [Ledger.revisionAt]
  cases hr : L.get? s with
  | none =>
    obtain rfl : ws = [] := (h.absent.1 hr).resolve_right (not_not_intro hbefore)
    simp [prevailing?]
  | some r => exact ⟨h.new r hr, h.forced r hr, h.contributors r hr⟩

/-- The record of one more wish, with the version that then prevails. -/
theorem Reflects.put (h : Reflects L s ws) (hbefore : Unanimous (beforeOverride ws))
    (hagree : Unanimous (beforeOverride (ws ++ [w]))) {old version : String} {forced : Bool}
    (hversion : prevailing? (ws ++ [w]) = some version)
    (hforced : (forced = true ∨ ∃ w ∈ ws, w.forced = true) ↔ ∃ w' ∈ ws ++ [w], w'.forced = true) :
    Reflects (L.put s ((L.revisionAt s).record old version w.source forced)) s (ws ++ [w]) := by
  obtain ⟨-, hrowForced, hrowSources⟩ := h.revisionAt hbefore
  have hget : (L.put s ((L.revisionAt s).record old version w.source forced)).get? s =
      some ((L.revisionAt s).record old version w.source forced) := by
    rw [get?_put, if_pos rfl]
  refine ⟨?_, ?_, ?_, ?_, ?_⟩
  · rw [isPurged_put, h.purged]
    simp [hbefore, hagree]
  · rw [hget]
    simp [hagree]
  all_goals
    intro r hr
    rw [hget] at hr
    obtain rfl := Option.some.inj hr
  · exact hversion.symm
  · rw [← hforced, Revision.record, Bool.or_eq_true, hrowForced, or_comm]
  · intro x
    rw [Revision.mem_contributors_record, hrowSources]
    simp [or_and_right, exists_or, eq_comm]

theorem reflects_purge (h : ¬ Unanimous (beforeOverride ws)) : Reflects (L.purge s) s ws := by
  have hget : (L.purge s).get? s = none := by rw [get?_purge, if_pos rfl]
  refine ⟨?_, ?_, ?_, ?_, ?_⟩
  · simp [isPurged_purge, h]
  · simp [hget, h]
  all_goals
    intro r hr
    rw [hget] at hr
    cases hr

/-- A wish agrees with those before it if it asks for the version that prevails. -/
theorem unanimous_append (hbefore : Unanimous (beforeOverride ws))
    (h : prevailing? ws = none ∨ prevailing? ws = some w.version ∨ w.forced = true) :
    Unanimous (beforeOverride (ws ++ [w])) := by
  by_cases hforced : ∃ w ∈ ws, w.forced = true
  · rwa [beforeOverride_append_of_forced hforced]
  have hfree : ∀ w ∈ ws, w.forced = false := by simpa using hforced
  rw [beforeOverride_of_unforced hfree] at hbefore
  rw [beforeOverride_append_of_unforced hfree, beforeOverride_singleton]
  split
  · rwa [List.append_nil]
  · rename_i hw
    have hsame : ∀ w' ∈ ws, w'.version = w.version := by
      intro w' hw'
      rcases h with h | h | h
      · obtain ⟨version, hv⟩ := prevailing?_isSome (List.ne_nil_of_mem hw')
        rw [h] at hv
        cases hv
      · obtain ⟨w₀, hw₀, hv⟩ := exists_mem_of_prevailing? h
        rw [← hv]
        exact hbefore w' hw' w₀ hw₀
      · exact absurd h hw
    intro a ha b hb
    rw [List.mem_append, List.mem_singleton] at ha hb
    have hversion : ∀ x, x ∈ ws ∨ x = w → x.version = w.version := by
      intro x hx
      rcases hx with hx | rfl
      · exact hsame x hx
      · rfl
    rw [hversion a ha, hversion b hb]

/-- A wish that differs from those before it, none of them an override. -/
theorem not_unanimous_append (hfree : ∀ w ∈ ws, w.forced = false) (hw : w.forced = false)
    {existing : String} (hexisting : prevailing? ws = some existing)
    (hne : existing ≠ w.version) : ¬ Unanimous (beforeOverride (ws ++ [w])) := by
  intro hagree
  rw [beforeOverride_append_of_unforced hfree, beforeOverride_singleton, hw] at hagree
  obtain ⟨w', hw', rfl⟩ := exists_mem_of_prevailing? hexisting
  exact hne (hagree w' (by simp [hw']) w (by simp))

/-- One more wish for a scope that is not purged. Unless it clashes it is taken into account. -/
theorem Reflects.enter (h : Reflects L s ws) (hclean : L.isPurged s = false) (F : Forest)
    (p : Policy) (old : String) (w : Wish) :
    (Unanimous (beforeOverride (ws ++ [w])) ∧ (L.enter F p s old w).2 = .ok true ∧
        Reflects (L.enter F p s old w).1 s (ws ++ [w])) ∨
      ¬ Unanimous (beforeOverride (ws ++ [w])) ∧
        (p.propertyClashFails = true → IsClash (L.enter F p s old w).2) ∧
        (p.propertyClashFails = false → (L.enter F p s old w).2 = .ok false ∧
          Reflects (L.enter F p s old w).1 s (ws ++ [w])) := by
  have hbefore : Unanimous (beforeOverride ws) := by
    rw [← not_not (a := Unanimous _), ← h.purged, hclean]
    exact Bool.false_ne_true
  obtain ⟨hnew, hforced, -⟩ := h.revisionAt hbefore
  rcases enter_cases L F p s old w with ⟨htaken, he⟩ | ⟨existing, hex, hne, hfree, hcase⟩
  · left
    rw [hnew] at htaken
    have hagree := unanimous_append hbefore htaken
    have hversion : prevailing? (ws ++ [w]) = some w.version := by
      cases hw : w.forced with
      | true => exact prevailing?_append_forced hw
      | false =>
        by_cases hnil : ws = []
        · simp [hnil, prevailing?, hw]
        · obtain ⟨version, hv⟩ := prevailing?_isSome hnil
          rw [prevailing?_append_unforced hw hnil, hv]
          simpa [hv, hw] using htaken
    rw [he]
    exact ⟨hagree, rfl, h.put hbefore hagree hversion (by simp [or_and_right, exists_or, or_comm])⟩
  · rw [hnew] at hex
    have hnil : ws ≠ [] := by
      rintro rfl
      cases hex
    rcases hcase with ⟨hjoin, he⟩ | ⟨hclash, he⟩
    · left
      have hoverride := hforced.1 hjoin
      have hagree : Unanimous (beforeOverride (ws ++ [w])) := by
        rwa [beforeOverride_append_of_forced hoverride]
      have hversion : prevailing? (ws ++ [w]) = some existing := by
        rw [prevailing?_append_unforced hfree hnil, hex]
      rw [he]
      refine ⟨hagree, rfl, h.put hbefore hagree hversion ?_⟩
      simp [or_and_right, exists_or, hfree]
    · right
      have hall : ∀ w ∈ ws, w.forced = false := by
        rw [← Bool.not_eq_true, hforced] at hclash
        simpa using hclash
      have hdiffer := not_unanimous_append hall hfree hex hne
      refine ⟨hdiffer, fun hp => ?_, fun hp => ?_⟩
      · rw [he, if_pos hp]
        exact ⟨_, _, _, _, _, _, rfl⟩
      · rw [he, hp, if_neg Bool.false_ne_true]
        exact ⟨rfl, reflects_purge hdiffer⟩

theorem Reflects.of_same {L' : Ledger} (h : Reflects L s ws) (hget : L'.get? s = L.get? s)
    (hpurged : L'.isPurged s = L.isPurged s) : Reflects L' s ws := by
  refine ⟨?_, ?_, ?_, ?_, ?_⟩
  · rw [hpurged]
    exact h.purged
  all_goals rw [hget]
  · exact h.absent
  · exact h.new
  · exact h.forced
  · exact h.contributors

/-- A purged scope is one at which wishes have clashed, and no later wish undoes that. -/
theorem Reflects.of_purged (h : Reflects L s ws) (hpurged : L.isPurged s = true) (w : Wish) :
    Reflects L s (ws ++ [w]) := by
  have hclash := h.purged.1 hpurged
  have hlater : ¬ Unanimous (beforeOverride (ws ++ [w])) := fun hagree =>
    hclash (hagree.of_subset (beforeOverride_subset_append [w]))
  have hget : L.get? s = none := h.absent.2 (Or.inr hclash)
  refine ⟨?_, ?_, ?_, ?_, ?_⟩
  · simp [hpurged, hlater]
  · simp [hget, hlater]
  all_goals
    intro r hr
    rw [hget] at hr
    cases hr

/-- Entering a wish touches no other scope. -/
theorem enter_of_ne {q : Scope} (h : s ≠ q) (L : Ledger) (F : Forest) (p : Policy) (old : String)
    (w : Wish) :
    (L.enter F p s old w).1.get? q = L.get? q ∧
      (L.enter F p s old w).1.isPurged q = L.isPurged q := by
  have hput (r : Revision) :
      (L.put s r).get? q = L.get? q ∧ (L.put s r).isPurged q = L.isPurged q := by
    rw [get?_put, if_neg h]
    exact ⟨rfl, rfl⟩
  rcases enter_cases L F p s old w with ⟨-, he⟩ | ⟨existing, -, -, -, ⟨-, he⟩ | ⟨-, he⟩⟩
  · rw [he]
    exact hput _
  · rw [he]
    exact hput _
  · rw [he]
    split
    · exact ⟨rfl, rfl⟩
    · rw [get?_purge, if_neg h]
      exact ⟨rfl, Bool.eq_iff_iff.2 (by simp [isPurged_purge, h])⟩

end Entering

end Realign.Ledger
