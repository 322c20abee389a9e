import Mathlib.Data.List.Basic
import Realign.Forest

/-!
Inheritance chains as lists of ancestors. A chain that has ended is the same however
many more steps are allowed, so the ancestors of an ancestor are the end of the list of
ancestors. Whatever a module sees of its chain, its ancestors see no more than that.
-/
namespace Realign.Forest

theorem chainUp_of_climb_eq_none {links : List Link} {n i : Nat}
    (h : climb links n i = none) (m : Nat) : chainUp links (n + m) i = chainUp links n i := by
  induction n generalizing i with
  | zero => cases h
  | succ n ih =>
    have hnm : n + 1 + m = n + m + 1 := by omega
    rw [hnm]
    simp only [climb] at h
    cases hp : parentIn links i with
    | none => simp [chainUp, hp]
    | some parent =>
      rw [hp] at h
      simp [chainUp, hp, ih h]

/-- Every module on an ended chain begins an ended chain, and that is the end of the first. -/
theorem exists_chainUp_suffix {links : List Link} {n i j : Nat} (h : climb links n i = none)
    (hj : j ∈ chainUp links n i) :
    ∃ m ≤ n, climb links m j = none ∧ chainUp links m j <:+ chainUp links n i := by
  induction n generalizing i with
  | zero => cases h
  | succ n ih =>
    simp only [climb] at h
    cases hp : parentIn links i with
    | none =>
      simp only [chainUp, hp, List.mem_singleton] at hj
      subst hj
      exact ⟨n + 1, Nat.le_refl _, by simp [climb, hp], List.suffix_refl _⟩
    | some parent =>
      rw [hp] at h
      simp only [chainUp, hp, List.mem_cons] at hj
      rcases hj with rfl | hj
      · exact ⟨n + 1, Nat.le_refl _, by simpa [climb, hp] using h, List.suffix_refl _⟩
      · obtain ⟨m, hm, hc, hs⟩ := ih h hj
        refine ⟨m, by omega, hc, ?_⟩
        simp only [chainUp, hp]
        exact hs.trans (List.suffix_cons _ _)

theorem ancestors_of_size_le {F : Forest} {i : Nat} (h : F.size ≤ i) :
    ∀ j ∈ F.ancestors i, j = i := by
  intro j hj
  have hl : F.links[i]? = none := List.getElem?_eq_none (by simpa [links, size] using h)
  have hp : parentIn F.links i = none := by simp [parentIn, hl]
  unfold ancestors at hj
  cases hs : F.size with
  | zero => simp [hs, chainUp] at hj
  | succ n => simpa [hs, chainUp, hp] using hj

/-- The chain of a module has ended after as many steps as there are modules. -/
theorem climb_size {F : Forest} {i : Nat} (hi : i < F.size) : climb F.links F.size i = none := by
  have h := F.grounded.ends i (by rwa [List.length_map])
  rwa [List.length_map] at h

/-- What an ancestor sees is the end of what the module sees. -/
theorem ancestors_suffix {F : Forest} {i j : Nat} (hj : j ∈ F.ancestors i) :
    F.ancestors j <:+ F.ancestors i := by
  by_cases hi : i < F.size
  · obtain ⟨m, hm, hc, hs⟩ := exists_chainUp_suffix (climb_size hi) hj
    have hmj := chainUp_of_climb_eq_none hc (F.size - m)
    rw [Nat.add_sub_cancel' hm] at hmj
    unfold ancestors
    rw [hmj]
    exact hs
  · obtain rfl := ancestors_of_size_le (Nat.not_lt.1 hi) j hj
    exact List.suffix_refl _

theorem ancestors_eq_cons {F : Forest} {i : Nat} (hi : i < F.size) :
    ∃ rest, F.ancestors i = i :: rest := by
  unfold ancestors
  cases hs : F.size with
  | zero => omega
  | succ n => exact ⟨_, rfl⟩

end Realign.Forest
