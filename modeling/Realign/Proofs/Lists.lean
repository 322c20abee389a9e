import Mathlib.Data.List.Chain
import Mathlib.Data.List.Nodup

/-!
Searches and lists without repetition. A search through lists that are put together or left out
is a search of searches, and lists whose elements name the list that they stand in
can be put together without repeating any. A walk along a relation repeats an element only if it
comes to one that leads back to itself.
-/
namespace Realign

open Relation

theorem findSome?_flatMap (f : α → List β) (g : β → Option γ) (l : List α) :
    (l.flatMap f).findSome? g = l.findSome? fun a => (f a).findSome? g := by
  induction l with
  | nil => rfl
  | cons a l ih =>
    rw [List.flatMap_cons, List.findSome?_append, ih, List.findSome?_cons]
    cases (f a).findSome? g <;> rfl

/-- A step that never fails on what is found can as well be taken after the search. -/
theorem findSome?_bind {f : α → Option β} {g : β → Option γ} (l : List α)
    (h : ∀ a b, f a = some b → (g b).isSome) :
    (l.findSome? fun a => (f a).bind g) = (l.findSome? f).bind g := by
  induction l with
  | nil => rfl
  | cons a l ih =>
    rw [List.findSome?_cons, List.findSome?_cons]
    cases hf : f a with
    | none => simpa using ih
    | some b =>
      obtain ⟨c, hc⟩ := Option.isSome_iff_exists.1 (h a b hf)
      simp [hc]

theorem findSome?_filterMap (f : α → Option β) (g : β → Option γ) (l : List α) :
    (l.filterMap f).findSome? g = l.findSome? fun a => (f a).bind g := by
  induction l with
  | nil => rfl
  | cons a l ih =>
    rw [List.findSome?_cons, List.filterMap_cons]
    cases hf : f a with
    | none => exact ih
    | some b => rw [List.findSome?_cons, ih, Option.bind_some]

/-- Where no key is repeated an element is the first one with its key. -/
theorem find?_of_nodup [DecidableEq β] {key : α → β} {l : List α} (hnd : (l.map key).Nodup) {a : α}
    (ha : a ∈ l) : (l.find? fun b => key b = key a) = some a := by
  induction l with
  | nil => cases ha
  | cons b l ih =>
    rw [List.map_cons, List.nodup_cons] at hnd
    rcases List.mem_cons.1 ha with rfl | ha
    · simp
    · have hne : key b ≠ key a := fun e => hnd.1 (e ▸ List.mem_map_of_mem ha)
      rw [List.find?_cons_of_neg (by simpa using hne)]
      exact ih hnd.2 ha

theorem map_getElem?_range (l : List α) : (List.range l.length).map (l[·]?) = l.map some := by
  apply List.ext_getElem
  · simp
  · simp

/-- Lists of one length whose elements are related position by position. -/
theorem forall₂_of_getElem? {r : α → β → Prop} {l : List α} {m : List β}
    (hsome : ∀ (n : Nat) a, l[n]? = some a → ∃ b, m[n]? = some b ∧ r a b)
    (hnone : ∀ n : Nat, l[n]? = none → m[n]? = none) : List.Forall₂ r l m := by
  induction l generalizing m with
  | nil =>
    have hempty := hnone 0 rfl
    rw [List.getElem?_eq_none_iff] at hempty
    rw [List.length_eq_zero_iff.1 (Nat.le_zero.1 hempty)]
    exact .nil
  | cons a l ih =>
    obtain ⟨b, hb, hab⟩ := hsome 0 a rfl
    cases m with
    | nil => cases hb
    | cons c m =>
      obtain rfl : c = b := Option.some.inj hb
      exact .cons hab (ih (fun n => hsome (n + 1)) fun n => hnone (n + 1))

theorem exists_of_forall₂ {r : α → β → Prop} {l : List α} {m : List β} (h : List.Forall₂ r l m)
    {b : β} (hb : b ∈ m) : ∃ a ∈ l, r a b := by
  induction h with
  | nil => cases hb
  | cons hab _ ih =>
    rcases List.mem_cons.1 hb with rfl | hb
    · exact ⟨_, List.mem_cons_self .., hab⟩
    · obtain ⟨a, ha, hab⟩ := ih hb
      exact ⟨a, List.mem_cons_of_mem _ ha, hab⟩

/-- Lists without repetition, each with a key of its own that its elements tell. -/
theorem nodup_flatMap_of_key {f : α → List β} {l : List α} (key : β → γ) (keyOf : α → γ)
    (hkey : ∀ a ∈ l, ∀ b ∈ f a, key b = keyOf a) (hnd : ∀ a ∈ l, (f a).Nodup)
    (hkeys : (l.map keyOf).Nodup) : (l.flatMap f).Nodup := by
  rw [List.nodup_flatMap]
  refine ⟨hnd, ?_⟩
  rw [List.Nodup, List.pairwise_map] at hkeys
  apply hkeys.imp_of_mem
  intro a a' ha ha' hne b hb hb'
  apply hne
  rw [← hkey a ha b hb, hkey a' ha' b hb']

section Walk

variable {r : α → α → Prop} {a b : α} {walk : List α}

/-- A walk in which an element stands twice comes to one that leads back to itself. -/
theorem exists_transGen_of_not_nodup (h : (a :: walk).IsChain r) (hnot : ¬ (a :: walk).Nodup) :
    ∃ b, ReflTransGen r a b ∧ TransGen r b b := by
  have hlater : (a :: walk).Pairwise (TransGen r) :=
    List.isChain_iff_pairwise.1 (h.imp fun _ _ => TransGen.single)
  by_contra hnone
  refine hnot (hlater.imp_of_mem ?_)
  rintro b _ hb - hback rfl
  refine hnone ⟨b, ?_, hback⟩
  rcases List.mem_cons.1 hb with rfl | hb
  · exact .refl
  · exact ((List.pairwise_cons.1 hlater).1 b hb).to_reflTransGen

theorem exists_chain_of_transGen (h : ReflTransGen r a b) (hb : TransGen r b b) :
    ∃ walk, (a :: walk).IsChain r ∧ ¬ (a :: walk).Nodup := by
  induction h using ReflTransGen.head_induction_on with
  | refl =>
    obtain ⟨c, hstep, hback⟩ := TransGen.head'_iff.1 hb
    obtain ⟨walk, hwalk, hlast⟩ := List.exists_isChain_cons_of_relationReflTransGen hback
    refine ⟨c :: walk, List.isChain_cons_cons.2 ⟨hstep, hwalk⟩, fun hnodup => ?_⟩
    exact (List.nodup_cons.1 hnodup).1 (hlast ▸ List.getLast_mem _)
  | head hstep _ ih =>
    obtain ⟨walk, hwalk, hnot⟩ := ih
    refine ⟨_ :: walk, List.isChain_cons_cons.2 ⟨hstep, hwalk⟩, fun hnodup => ?_⟩
    exact hnot (List.nodup_cons.1 hnodup).2

/-- No walk repeats an element if and only if no element leads back to itself. -/
theorem forall_walk_nodup_iff :
    (∀ walk : List α, walk.IsChain r → walk.Nodup) ↔ ∀ a, ¬ TransGen r a a := by
  constructor
  · intro h a hback
    obtain ⟨walk, hwalk, hnot⟩ := exists_chain_of_transGen .refl hback
    exact hnot (h _ hwalk)
  · intro h walk hwalk
    by_contra hnot
    cases walk with
    | nil => exact hnot List.nodup_nil
    | cons a walk =>
      obtain ⟨b, -, hback⟩ := exists_transGen_of_not_nodup hwalk hnot
      exact h b hback

end Walk

end Realign
