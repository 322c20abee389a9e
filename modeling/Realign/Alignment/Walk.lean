/-!
Walks over a list that change a state and may stop at a fault. The state reached
before the fault is kept, so what a pass has already done can be spoken of.
-/
namespace Realign.Walk

def untilFault (step : σ → α → σ × Option ε) : List α → σ → σ × Option ε
  | [], s => (s, none)
  | a :: rest, s =>
    match step s a with
    | (s, none) => untilFault step rest s
    | (s, some fault) => (s, some fault)

/-- The second walk follows the first if that one came through. -/
def andThen (next : σ → σ × Option ε) : σ × Option ε → σ × Option ε
  | (s, none) => next s
  | (s, some fault) => (s, some fault)

theorem untilFault_append (step : σ → α → σ × Option ε) (left right : List α) (s : σ) :
    untilFault step (left ++ right) s =
      andThen (untilFault step right) (untilFault step left s) := by
  induction left generalizing s with
  | nil => rfl
  | cons a left ih =>
    simp only [List.cons_append, untilFault]
    rcases step s a with ⟨t, _ | fault⟩
    · exact ih t
    · rfl

/-- What every step keeps, the walk keeps, whether it comes through or not. -/
theorem untilFault_invariant {step : σ → α → σ × Option ε} {P : σ → Prop} {as : List α}
    (keeps : ∀ s, ∀ a ∈ as, P s → P (step s a).1) (s : σ) (h : P s) :
    P (untilFault step as s).1 := by
  induction as generalizing s with
  | nil => exact h
  | cons a as ih =>
    have hs := keeps s a (List.mem_cons_self ..) h
    simp only [untilFault]
    rcases hstep : step s a with ⟨t, _ | fault⟩
    · rw [hstep] at hs
      exact ih (fun s b hb => keeps s b (List.mem_cons_of_mem a hb)) t hs
    · rw [hstep] at hs
      exact hs

end Realign.Walk
