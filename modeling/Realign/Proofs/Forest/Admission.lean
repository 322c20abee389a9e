import Realign.Proofs.Forest.Ancestry

/-!
Which lists of modules are forests. A repeated identity is reported first, and it is the first one
that stands before itself in the list; otherwise it is the first module, in list order, that leads
into a cycle; otherwise the modules are a forest, in which positions, parents and ancestors are read
off the references of the modules. A module that leads into a cycle need not be on it.
-/
namespace Realign.Forest

open Relation

variable {modules : List Module} {idents seen : List Ident} {ident : Ident} {i j : Nat}

section Duplicate

/-- The identity stands before itself in the list, and no identity before that one does. -/
def FirstRepeated (idents : List Ident) (ident : Ident) : Prop :=
  ∃ before after, idents = before ++ ident :: after ∧ ident ∈ before ∧ before.Nodup

theorem FirstRepeated.not_nodup (h : FirstRepeated idents ident) : ¬ idents.Nodup := by
  obtain ⟨before, after, rfl, hmem, -⟩ := h
  exact fun hnodup => (List.nodup_append.1 hnodup).2.2 ident hmem ident (List.mem_cons_self ..) rfl

theorem repeatedAfter_eq_some_iff :
    repeatedAfter seen idents = some ident ↔
      ∃ before after, idents = before ++ ident :: after ∧ (ident ∈ seen ∨ ident ∈ before) ∧
        repeatedAfter seen before = none := by
  induction idents generalizing seen with
  | nil => simp [repeatedAfter]
  | cons first rest ih =>
    rw [repeatedAfter]
    split
    · rename_i hseen
      constructor
      · rintro ⟨rfl⟩
        exact ⟨[], rest, rfl, Or.inl hseen, rfl⟩
      · rintro ⟨before, after, heq, -, hnone⟩
        cases before with
        | nil => rw [(List.cons.inj heq).1]
        | cons other before =>
          obtain ⟨rfl, -⟩ := List.cons.inj heq
          rw [repeatedAfter, if_pos hseen] at hnone
          cases hnone
    · rename_i hseen
      rw [ih]
      constructor
      · rintro ⟨before, after, rfl, hmem, hnone⟩
        refine ⟨first :: before, after, rfl, ?_, by rwa [repeatedAfter, if_neg hseen]⟩
        rw [List.mem_cons] at hmem ⊢
        tauto
      · rintro ⟨before, after, heq, hmem, hnone⟩
        cases before with
        | nil =>
          obtain ⟨rfl, -⟩ := List.cons.inj heq
          exact absurd (hmem.resolve_right List.not_mem_nil) hseen
        | cons other before =>
          obtain ⟨rfl, rfl⟩ := List.cons.inj heq
          rw [repeatedAfter, if_neg hseen] at hnone
          refine ⟨before, after, rfl, ?_, hnone⟩
          rw [List.mem_cons] at hmem ⊢
          tauto

theorem repeatedAfter_nil_eq_some_iff :
    repeatedAfter [] idents = some ident ↔ FirstRepeated idents ident := by
  simp only [repeatedAfter_eq_some_iff, repeatedAfter_eq_none, FirstRepeated, List.not_mem_nil,
    false_or, not_false_iff, implies_true, and_true]

end Duplicate

section Outcome

/-- No module before the position leads into a cycle, but the module there does. -/
def FirstIntoCycle (modules : List Module) (i : Nat) : Prop :=
  LeadsIntoCycle modules i ∧ ∀ k < i, ¬ LeadsIntoCycle modules k

theorem FirstIntoCycle.unique (hi : FirstIntoCycle modules i) (hj : FirstIntoCycle modules j) :
    i = j := by
  rcases Nat.lt_trichotomy i j with hlt | heq | hlt
  · exact absurd hi.1 (hj.2 i hlt)
  · exact heq
  · exact absurd hj.1 (hi.2 j hlt)

/-- What comes of a list of modules: the first repeated identity, the first module that leads into
a cycle, or a forest of the modules. -/
inductive Outcome (modules : List Module) : Except ForestError Forest → Prop
  | duplicate {ident : Ident} (h : FirstRepeated (modules.map Module.ident) ident) :
      Outcome modules (.error (.duplicate ident))
  | cycle {ident : Ident} {i : Nat} (hd : (modules.map Module.ident).Nodup)
      (hi : IsAt modules i ident) (h : FirstIntoCycle modules i) :
      Outcome modules (.error (.inheritanceCycle ident))
  | forest {F : Forest} (hd : (modules.map Module.ident).Nodup)
      (h : ∀ i, ¬ LeadsIntoCycle modules i) (hF : F.modules = modules) : Outcome modules (.ok F)

theorem lt_of_leadsIntoCycle (h : LeadsIntoCycle modules i) : i < modules.length := by
  obtain ⟨j, hij, hcycle⟩ := h
  have hstep : ∃ k, NamesParent modules i k := by
    rcases ReflTransGen.cases_head_iff.1 hij with rfl | ⟨k, hk, -⟩
    · obtain ⟨k, hk, -⟩ := TransGen.head'_iff.1 hcycle
      exact ⟨k, hk⟩
    · exact ⟨k, hk⟩
  obtain ⟨k, child, parent, hchild, -⟩ := hstep
  exact (List.getElem?_eq_some_iff.1 hchild).1

theorem outcome_ofModules (modules : List Module) : Outcome modules (ofModules modules) := by
  have hidents : (modules.map Module.link).map Link.ident = modules.map Module.ident := by
    rw [List.map_map]
    rfl
  unfold ofModules
  dsimp only
  split
  · rename_i ident hrepeated
    rw [hidents] at hrepeated
    exact .duplicate (repeatedAfter_nil_eq_some_iff.1 hrepeated)
  · rename_i hnone
    rw [hidents] at hnone
    have hd := (repeatedAfter_eq_none.1 hnone).1
    split
    · -- no chain before the one that is found is endless, so no module there leads into a cycle
      rename_i link i hfind
      obtain ⟨hendless, k, hk, hlink, hbefore⟩ := List.find?_eq_some_iff_getElem.1 hfind
      rw [List.length_zipIdx, List.length_map] at hk
      rw [List.getElem_zipIdx, List.getElem_map, Nat.zero_add] at hlink
      obtain ⟨rfl, rfl⟩ := Prod.mk.inj hlink
      refine .cycle hd ?_ ⟨(isEndless_iff hd hk).1 hendless, fun n hn hcycle => ?_⟩
      · rw [IsAt, List.getElem?_eq_getElem hk]
        rfl
      · have hfine := hbefore n hn
        rw [List.getElem_zipIdx, Nat.zero_add, (isEndless_iff hd (hn.trans hk)).2 hcycle] at hfine
        cases hfine
    · rename_i hfind
      refine .forest hd (fun i hcycle => ?_) rfl
      have hi := lt_of_leadsIntoCycle hcycle
      have hlink : (modules.map Module.link)[i]? = some modules[i].link := by
        rw [List.getElem?_map, List.getElem?_eq_getElem hi]
        rfl
      exact List.find?_eq_none.1 hfind (modules[i].link, i) (List.mem_zipIdx_iff_getElem?.2 hlink)
        ((isEndless_iff hd hi).2 hcycle)

end Outcome

section Line

theorem distinct (F : Forest) : (F.modules.map Module.ident).Nodup := by
  have hdistinct := F.grounded.distinct
  rwa [List.map_map] at hdistinct

theorem not_leadsIntoCycle (F : Forest) (i : Nat) : ¬ LeadsIntoCycle F.modules i := by
  intro hcycle
  have hi := lt_of_leadsIntoCycle hcycle
  have hendless := (isEndless_iff F.distinct hi).2 hcycle
  rw [isEndless, F.grounded.ends i (by rwa [List.length_map])] at hendless
  cases hendless

/-- Going up the parents from a module to a root, through no module twice. -/
structure LeadsToRoot (F : Forest) (i : Nat) (line : List Nat) : Prop where
  first : line.head? = some i
  upward : line.IsChain fun child parent => F.parent? child = some parent
  once : line.Nodup
  last : ∃ root ∈ F.roots, line.getLast? = some root

theorem leadsToRoot_ancestors (F : Forest) (hi : i < F.size) :
    LeadsToRoot F i (F.ancestors i) := by
  have hlinks : F.links.length = F.size := by rw [links, size, List.length_map]
  have hupward := isChain_chainUp F.links F.size i
  refine ⟨?_, hupward, ?_, ?_⟩
  · obtain ⟨rest, hrest⟩ := ancestors_eq_cons hi
    rw [hrest]
    rfl
  · refine forall_walk_nodup_iff.2 (fun j hcycle => ?_) _
      (hupward.imp fun _ _ hparent => (parentIn_eq_some_iff F.distinct).1 hparent)
    exact F.not_leadsIntoCycle j (OnCycle.leadsIntoCycle hcycle)
  · obtain ⟨root, hlast, hroot⟩ := exists_getLast?_chainUp (climb_size hi)
    refine ⟨root, List.mem_filter.2 ⟨List.mem_range.2 ?_, by rw [parent?, hroot]; rfl⟩, hlast⟩
    rw [← hlinks] at hi ⊢
    exact lt_of_mem_chainUp hi (List.mem_of_getLast? hlast)

/-- Positions, parents and ancestors of the forest are what the references of the modules say. -/
structure Reflects (F : Forest) (modules : List Module) : Prop where
  whole : F.modules = modules
  find : ∀ ident i, F.find? ident = some i ↔ IsAt modules i ident
  parent : ∀ i j, F.parent? i = some j ↔ NamesParent modules i j
  roots : ∀ i, i ∈ F.roots ↔ i < modules.length ∧ ∀ j, ¬ NamesParent modules i j
  ancestors : ∀ i < modules.length, LeadsToRoot F i (F.ancestors i)

theorem reflects_modules (F : Forest) : Reflects F F.modules := by
  have hparent (i j : Nat) : F.parent? i = some j ↔ NamesParent F.modules i j :=
    parentIn_eq_some_iff F.distinct
  refine ⟨rfl, fun _ _ => positionIn_eq_some_iff F.distinct, hparent, fun i => ?_,
    fun _ hi => F.leadsToRoot_ancestors hi⟩
  simp only [roots, indices, size, List.mem_filter, List.mem_range, Option.isNone_iff_eq_none,
    Option.eq_none_iff_forall_ne_some, ne_eq, hparent]

theorem exists_ofModules_eq_ok_iff :
    (∃ F, ofModules modules = .ok F) ↔
      (modules.map Module.ident).Nodup ∧
        ∀ walk : List Nat, walk.IsChain (NamesParent modules) → walk.Nodup := by
  have houtcome := outcome_ofModules modules
  generalize ofModules modules = result at houtcome
  rw [forall_walk_nodup_iff]
  cases houtcome with
  | duplicate h => exact ⟨nofun, fun hd => absurd hd.1 h.not_nodup⟩
  | cycle hd hi h =>
    obtain ⟨j, -, hcycle⟩ := h.1
    exact ⟨nofun, fun hfree => absurd hcycle (hfree.2 j)⟩
  | @forest F hd h hF =>
    exact ⟨fun _ => ⟨hd, fun i hcycle => h i (OnCycle.leadsIntoCycle hcycle)⟩, fun _ => ⟨F, rfl⟩⟩

theorem ofModules_eq_duplicate_iff :
    ofModules modules = .error (.duplicate ident) ↔
      FirstRepeated (modules.map Module.ident) ident := by
  have houtcome := outcome_ofModules modules
  generalize ofModules modules = result at houtcome
  cases houtcome with
  | duplicate h =>
    simp only [Except.error.injEq, ForestError.duplicate.injEq]
    rw [← repeatedAfter_nil_eq_some_iff] at h ⊢
    rw [h, Option.some.injEq]
  | cycle hd => exact ⟨nofun, fun h => absurd hd h.not_nodup⟩
  | forest hd => exact ⟨nofun, fun h => absurd hd h.not_nodup⟩

/-- The modules are a forest if and only if their identities are distinct and no walk along parent
references comes back to a module, and the forest reflects them. A repeated identity goes before
any cycle, and the first repeated one is reported. -/
theorem ofModules_accepts_exactly (modules : List Module) :
    ((∃ F, ofModules modules = .ok F) ↔
      (modules.map Module.ident).Nodup ∧
        ∀ walk : List Nat, walk.IsChain (NamesParent modules) → walk.Nodup) ∧
    (∀ F, ofModules modules = .ok F → Reflects F modules) ∧
    (∀ ident, ofModules modules = .error (.duplicate ident) ↔
      FirstRepeated (modules.map Module.ident) ident) ∧
    (¬ (modules.map Module.ident).Nodup →
      ∃ ident, ofModules modules = .error (.duplicate ident)) := by
  refine ⟨exists_ofModules_eq_ok_iff, fun F hF => ?_, fun _ => ofModules_eq_duplicate_iff, ?_⟩
  · obtain rfl := modules_of_ofModules hF
    exact reflects_modules F
  · intro hrepeated
    cases hfirst : repeatedAfter [] (modules.map Module.ident) with
    | none => exact absurd (repeatedAfter_eq_none.1 hfirst).1 hrepeated
    | some ident =>
      exact ⟨ident, ofModules_eq_duplicate_iff.2 (repeatedAfter_nil_eq_some_iff.1 hfirst)⟩

end Line

section Blame

theorem ofModules_eq_inheritanceCycle_iff :
    ofModules modules = .error (.inheritanceCycle ident) ↔
      (modules.map Module.ident).Nodup ∧
        ∃ i, IsAt modules i ident ∧ FirstIntoCycle modules i := by
  have houtcome := outcome_ofModules modules
  generalize ofModules modules = result at houtcome
  cases houtcome with
  | duplicate h => exact ⟨nofun, fun hd => absurd hd.1 h.not_nodup⟩
  | @cycle first i hd hi h =>
    rw [Except.error.injEq, ForestError.inheritanceCycle.injEq]
    constructor
    · rintro rfl
      exact ⟨hd, i, hi, h⟩
    · rintro ⟨-, j, hj, hfirst⟩
      obtain rfl := hfirst.unique h
      exact Option.some.inj (hi.symm.trans hj)
  | forest hd h => exact ⟨nofun, fun ⟨_, i, _, hfirst⟩ => absurd hfirst.1 (h i)⟩

/-- The module that an inheritance cycle is blamed on is the first that leads into a cycle. It is on
a cycle itself if and only if each module that only leads into one comes after a module on one. -/
theorem inheritanceCycle_onCycle_iff
    (h : ofModules modules = .error (.inheritanceCycle ident)) :
    (∃ i, IsAt modules i ident ∧ FirstIntoCycle modules i) ∧
    ((∃ i, IsAt modules i ident ∧ OnCycle modules i) ↔
      ∀ i, LeadsIntoCycle modules i → ¬ OnCycle modules i → ∃ j < i, OnCycle modules j) := by
  obtain ⟨hd, first, hident, hfirst⟩ := ofModules_eq_inheritanceCycle_iff.1 h
  refine ⟨⟨first, hident, hfirst⟩, ?_, fun hafter => ⟨first, hident, ?_⟩⟩
  · rintro ⟨i, hi, hcycle⟩ k hleads hoff
    obtain rfl := IsAt.unique hd hi hident
    refine ⟨i, lt_of_le_of_ne ?_ ?_, hcycle⟩
    · exact Nat.le_of_not_lt fun hlt => hfirst.2 k hlt hleads
    · rintro rfl
      exact hoff hcycle
  · by_contra hoff
    obtain ⟨j, hj, hcycle⟩ := hafter first hfirst.1 hoff
    exact hfirst.2 j hj hcycle.leadsIntoCycle

/-- A module that names itself as its parent, after one that names it. -/
def leafBeforeLoop : List Module := [
  { ident := ⟨"org.foo", "leaf"⟩, version := "1.0", parent := some ⟨"org.foo", "loop"⟩ },
  { ident := ⟨"org.foo", "loop"⟩, version := "1.0", parent := some ⟨"org.foo", "loop"⟩ }]

theorem leafBeforeLoop_onCycle_iff :
    ofModules leafBeforeLoop = .error (.inheritanceCycle ⟨"org.foo", "leaf"⟩) ∧
    (∃ i, IsAt leafBeforeLoop i ⟨"org.foo", "leaf"⟩ ∧ FirstIntoCycle leafBeforeLoop i) ∧
    ((∃ i, IsAt leafBeforeLoop i ⟨"org.foo", "leaf"⟩ ∧ OnCycle leafBeforeLoop i) ↔
      ∀ i, LeadsIntoCycle leafBeforeLoop i → ¬ OnCycle leafBeforeLoop i →
        ∃ j < i, OnCycle leafBeforeLoop j) :=
  ⟨by rfl, inheritanceCycle_onCycle_iff (by rfl)⟩

/-- The first module is blamed, but no module names it as its parent. -/
theorem not_forall_inheritanceCycle_onCycle :
    ¬ ∀ (modules : List Module) (ident : Ident), (modules.map Module.ident).Nodup →
      ofModules modules = .error (.inheritanceCycle ident) →
      ∃ i, IsAt modules i ident ∧ OnCycle modules i := by
  intro hall
  obtain ⟨i, hi, hcycle⟩ := hall leafBeforeLoop ⟨"org.foo", "leaf"⟩ (by decide) (by rfl)
  obtain ⟨j, -, child, parent, hchild, hparent, hnamed⟩ := TransGen.tail'_iff.1 hcycle
  rw [IsAt, hparent] at hi
  have hloop : child.parent = some ⟨"org.foo", "loop"⟩ := by
    have hmem := List.mem_of_getElem? hchild
    simp only [leafBeforeLoop, List.mem_cons, List.not_mem_nil, or_false] at hmem
    rcases hmem with rfl | rfl <;> rfl
  rw [hloop, Option.some.inj hi] at hnamed
  exact absurd hnamed (by decide)

end Blame

end Realign.Forest
