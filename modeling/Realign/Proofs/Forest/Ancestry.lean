import Mathlib.Data.List.Perm.Subperm
import Realign.Proofs.Forest.Inheritance
import Realign.Proofs.Lists

/-!
Following parent references in a list of modules. Where identities are distinct a module has at most
one parent, so the walks from a module are the beginnings of one chain. A walk that visits a module
twice goes round a cycle, and a chain of more modules than there are must do so; a chain that leads
into a cycle never ends. So the bounded climb from a module tells whether it leads into a cycle.
-/
namespace Realign.Forest

open Relation

variable {modules : List Module} {links : List Link} {i j k n m : Nat} {ident : Ident}

section Parent

/-- The module at the first position names the module at the second one as its parent. -/
def NamesParent (modules : List Module) (i j : Nat) : Prop :=
  ∃ child parent, modules[i]? = some child ∧ modules[j]? = some parent ∧
    child.parent = some parent.ident

/-- The module at the position is on a cycle of parent references. -/
def OnCycle (modules : List Module) (i : Nat) : Prop := TransGen (NamesParent modules) i i

/-- Following parent references from the module at the position leads to a cycle. -/
def LeadsIntoCycle (modules : List Module) (i : Nat) : Prop :=
  ∃ j, ReflTransGen (NamesParent modules) i j ∧ OnCycle modules j

theorem OnCycle.leadsIntoCycle (h : OnCycle modules i) : LeadsIntoCycle modules i :=
  ⟨i, .refl, h⟩

/-- The identity at a position of the list. -/
def IsAt (modules : List Module) (i : Nat) (ident : Ident) : Prop :=
  (modules[i]?).map Module.ident = some ident

theorem IsAt.unique (hd : (modules.map Module.ident).Nodup) (hi : IsAt modules i ident)
    (hj : IsAt modules j ident) : i = j := by
  rw [IsAt, ← List.getElem?_map] at hi hj
  obtain ⟨hi', hi⟩ := List.getElem?_eq_some_iff.1 hi
  obtain ⟨hj', hj⟩ := List.getElem?_eq_some_iff.1 hj
  exact hd.getElem_inj_iff.1 (hi.trans hj.symm)

theorem isAt_of_positionIn (h : positionIn (modules.map Module.link) ident = some i) :
    IsAt modules i ident := by
  obtain ⟨hi, hident, -⟩ := List.findIdx?_eq_some_iff_getElem.1 h
  rw [List.length_map] at hi
  rw [IsAt, List.getElem?_eq_getElem hi]
  simpa [Module.link] using hident

/-- The position of an identity is the one where it is. -/
theorem positionIn_eq_some_iff (hd : (modules.map Module.ident).Nodup) :
    positionIn (modules.map Module.link) ident = some i ↔ IsAt modules i ident := by
  refine ⟨isAt_of_positionIn, fun h => ?_⟩
  cases hposition : positionIn (modules.map Module.link) ident with
  | some j => rw [IsAt.unique hd (isAt_of_positionIn hposition) h]
  | none =>
    obtain ⟨m, hm, rfl⟩ := Option.map_eq_some_iff.1 h
    have habsent := List.findIdx?_eq_none_iff.1 hposition m.link
      (List.mem_map_of_mem (List.mem_of_getElem? hm))
    simp [Module.link] at habsent

theorem parentIn_eq_some_iff (hd : (modules.map Module.ident).Nodup) :
    parentIn (modules.map Module.link) i = some j ↔ NamesParent modules i j := by
  simp only [parentIn, List.getElem?_map, Option.bind_eq_some_iff, Option.map_eq_some_iff]
  constructor
  · rintro ⟨_, ⟨child, hchild, rfl⟩, ident, hparent, hposition⟩
    obtain ⟨parent, hj, rfl⟩ := Option.map_eq_some_iff.1 ((positionIn_eq_some_iff hd).1 hposition)
    exact ⟨child, parent, hchild, hj, hparent⟩
  · rintro ⟨child, parent, hchild, hj, hparent⟩
    refine ⟨_, ⟨child, hchild, rfl⟩, parent.ident, hparent, (positionIn_eq_some_iff hd).2 ?_⟩
    rw [IsAt, hj, Option.map_some]

end Parent

section Climb

theorem climb_add (m n i : Nat) :
    climb links (m + n) i = (climb links m i).bind (climb links n) := by
  induction m generalizing i with
  | zero => rw [Nat.zero_add, climb, Option.bind_some]
  | succ m ih =>
    rw [Nat.succ_add, climb, climb, Option.bind_assoc]
    exact Option.bind_congr fun parent _ => ih parent

/-- A chain that is long enough is long enough for fewer steps. -/
theorem isSome_climb_of_le (hmn : m ≤ n) (h : (climb links n i).isSome = true) :
    (climb links m i).isSome = true := by
  rw [← Nat.add_sub_cancel' hmn, climb_add] at h
  cases hm : climb links m i with
  | some j => rfl
  | none =>
    rw [hm] at h
    cases h

theorem climb_of_transGen (h : TransGen (fun i j => parentIn links i = some j) i j) :
    ∃ n, climb links (n + 1) i = some j := by
  induction h with
  | single h => exact ⟨0, by rw [climb, h]; rfl⟩
  | tail _ hstep ih =>
    obtain ⟨n, hn⟩ := ih
    refine ⟨n + 1, ?_⟩
    rw [climb_add, hn, Option.bind_some, climb, hstep]
    rfl

/-- The chain of a module on a cycle is as long as one likes. -/
theorem isSome_climb_of_cycle (h : climb links (k + 1) i = some i) (n : Nat) :
    (climb links n i).isSome = true := by
  induction n using Nat.strong_induction_on with
  | _ n ih =>
    by_cases hn : n ≤ k + 1
    · exact isSome_climb_of_le hn (by rw [h]; rfl)
    · rw [← Nat.add_sub_cancel' (Nat.le_of_not_le hn), climb_add, h, Option.bind_some]
      exact ih _ (by omega)

theorem isSome_climb_of_reflTransGen
    (h : ReflTransGen (fun i j => parentIn links i = some j) i j)
    (hj : ∀ n, (climb links n j).isSome = true) (n : Nat) : (climb links n i).isSome = true := by
  induction h using ReflTransGen.head_induction_on generalizing n with
  | refl => exact hj n
  | head hstep _ ih =>
    cases n with
    | zero => rfl
    | succ n =>
      rw [climb, hstep, Option.bind_some]
      exact ih n

theorem head_chainUp (h : j ∈ (chainUp links n i).head?) : j = i := by
  cases n with
  | zero => cases h
  | succ n => exact (Option.some.inj h).symm

theorem isChain_chainUp (links : List Link) (n i : Nat) :
    (chainUp links n i).IsChain fun i j => parentIn links i = some j := by
  induction n generalizing i with
  | zero => exact .nil
  | succ n ih =>
    rw [chainUp]
    cases hparent : parentIn links i with
    | none => exact .singleton i
    | some parent =>
      refine List.isChain_cons.2 ⟨fun j hj => ?_, ih parent⟩
      rw [head_chainUp hj, hparent]

theorem length_chainUp (h : (climb links n i).isSome = true) :
    (chainUp links (n + 1) i).length = n + 1 := by
  induction n generalizing i with
  | zero =>
    rw [chainUp]
    split <;> rfl
  | succ n ih =>
    rw [climb] at h
    rw [chainUp]
    cases hparent : parentIn links i with
    | none =>
      rw [hparent] at h
      cases h
    | some parent =>
      rw [hparent] at h
      rw [List.length_cons, ih h]

theorem exists_getLast?_chainUp (h : climb links n i = none) :
    ∃ root, (chainUp links n i).getLast? = some root ∧ parentIn links root = none := by
  induction n generalizing i with
  | zero => cases h
  | succ n ih =>
    rw [climb] at h
    rw [chainUp]
    cases hparent : parentIn links i with
    | none => exact ⟨i, rfl, hparent⟩
    | some parent =>
      rw [hparent, Option.bind_some] at h
      obtain ⟨root, hlast, hroot⟩ := ih h
      refine ⟨root, ?_, hroot⟩
      rw [List.getLast?_cons, hlast]
      rfl

theorem lt_of_parentIn (h : parentIn links i = some j) : j < links.length := by
  obtain ⟨_, -, h⟩ := Option.bind_eq_some_iff.1 h
  obtain ⟨_, -, h⟩ := Option.bind_eq_some_iff.1 h
  exact (List.findIdx?_eq_some_iff_getElem.1 h).1

theorem lt_of_mem_chainUp (hi : i < links.length) (hj : j ∈ chainUp links n i) :
    j < links.length := by
  induction n generalizing i with
  | zero => cases hj
  | succ n ih =>
    rw [chainUp] at hj
    rcases List.mem_cons.1 hj with rfl | hj
    · exact hi
    · cases hparent : parentIn links i with
      | none =>
        rw [hparent] at hj
        cases hj
      | some parent =>
        rw [hparent] at hj
        exact ih (lt_of_parentIn hparent) hj

/-- More steps up the chain than there are modules visit a module twice. -/
theorem not_nodup_chainUp (hi : i < links.length)
    (h : (climb links links.length i).isSome = true) :
    ¬ (chainUp links (links.length + 1) i).Nodup := by
  intro hnodup
  have hsubset : chainUp links (links.length + 1) i ⊆ List.range links.length := by
    intro j hj
    exact List.mem_range.2 (lt_of_mem_chainUp hi hj)
  have hlength := (List.subperm_of_subset hnodup hsubset).length_le
  rw [length_chainUp h, List.length_range] at hlength
  omega

/-- The chain of parents never ends if and only if it leads into a cycle. -/
theorem isEndless_iff (hd : (modules.map Module.ident).Nodup) (hi : i < modules.length) :
    isEndless (modules.map Module.link) i = true ↔ LeadsIntoCycle modules i := by
  have hparent :
      (fun i j => parentIn (modules.map Module.link) i = some j) = NamesParent modules := by
    funext i j
    exact propext (parentIn_eq_some_iff hd)
  rw [isEndless]
  constructor
  · -- so long a chain visits a module twice, and that module leads back to itself
    intro h
    have hwalk := isChain_chainUp (modules.map Module.link) ((modules.map Module.link).length + 1) i
    have hnot := not_nodup_chainUp (by rwa [List.length_map]) h
    rw [hparent] at hwalk
    rw [chainUp] at hwalk hnot
    exact exists_transGen_of_not_nodup hwalk hnot
  · -- round the cycle the climb goes as far as one likes, and so does the climb that leads there
    rintro ⟨j, hij, hcycle⟩
    rw [OnCycle, ← hparent] at hcycle
    rw [← hparent] at hij
    obtain ⟨k, hk⟩ := climb_of_transGen hcycle
    exact isSome_climb_of_reflTransGen hij (isSome_climb_of_cycle hk) _

end Climb

end Realign.Forest
