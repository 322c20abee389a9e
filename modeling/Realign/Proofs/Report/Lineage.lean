import Realign.Proofs.Forest.Admission
import Realign.Proofs.Property.Lookup
import Realign.Report

/-!
The modules of a report by identity, and their chains. A comparison looks parents up in an index
that nothing is known of: identities may be repeated, and parents may lead round in a cycle. A walk
up the parents that stops where it would come to an identity again ends all the same, as each of its
steps uses up one of the indexed identities, and it is the chain that the comparison goes by. Where
the modules are a forest nothing stops the walk before it comes to a root, so that this chain is the
one of the forest.
-/
namespace Realign

namespace Report

variable {x modules : List Module} {m n : Module} {ident : Ident} {index : Index}
  {seen available : List Ident} {chain other : List Module}

section Index

theorem mem_of_indexOf (h : (indexOf x).get? ident = some m) : m ∈ x ∧ m.ident = ident := by
  rw [indexOf, Table.get?_ofRows] at h
  obtain ⟨m', hm', he⟩ := List.mem_map.1 (List.mem_reverse.1 (Table.mem_of_valueIn h))
  obtain ⟨hident, rfl⟩ := Prod.mk.inj he
  exact ⟨hm', hident⟩

/-- Where no identity is repeated every module is found under its own. -/
theorem get?_indexOf_eq_some_iff (hd : (x.map Module.ident).Nodup) :
    (indexOf x).get? ident = some m ↔ m ∈ x ∧ m.ident = ident := by
  refine ⟨mem_of_indexOf, ?_⟩
  rintro ⟨hm, rfl⟩
  have hkeys : ((x.map fun m => (m.ident, m)).reverse.map Prod.fst).Nodup := by
    rw [List.map_reverse, List.nodup_reverse, List.map_map]
    exact hd
  rw [indexOf, Table.get?_ofRows, Table.valueIn_eq_some hkeys, List.mem_reverse]
  exact List.mem_map_of_mem hm

theorem get?_indexOf_modules (F : Forest) (ident : Ident) :
    (indexOf F.modules).get? ident = (F.find? ident).bind (F.modules[·]?) := by
  have hposition (i : Nat) : F.find? ident = some i ↔ Forest.IsAt F.modules i ident :=
    Forest.positionIn_eq_some_iff F.distinct
  apply Option.ext
  intro m
  simp only [get?_indexOf_eq_some_iff F.distinct, Option.bind_eq_some_iff, hposition]
  constructor
  · rintro ⟨hm, rfl⟩
    obtain ⟨i, hi⟩ := List.mem_iff_getElem?.1 hm
    exact ⟨i, by rw [Forest.IsAt, hi]; rfl, hi⟩
  · rintro ⟨i, hident, hi⟩
    rw [Forest.IsAt, hi] at hident
    exact ⟨List.mem_of_getElem? hi, Option.some.inj hident⟩

end Index

section Ascent

/-- A walk up the parents from a module, itself first, that has come by the identities seen. It ends
at a module whose parent is not indexed, or whose parent it has come by before. -/
inductive Ascends (index : Index) : List Ident → Module → List Module → Prop
  | top {seen : List Ident} {m : Module} (h : m.parent.bind index.get? = none) :
      Ascends index seen m [m]
  | round {seen : List Ident} {m parent : Module} (h : m.parent.bind index.get? = some parent)
      (hseen : parent.ident ∈ seen) : Ascends index seen m [m]
  | up {seen : List Ident} {m parent : Module} {chain : List Module}
      (h : m.parent.bind index.get? = some parent) (hnew : parent.ident ∉ seen)
      (hrest : Ascends index (parent.ident :: seen) parent chain) :
      Ascends index seen m (m :: chain)

namespace Ascends

theorem unique (h : Ascends index seen m chain) (h' : Ascends index seen m other) :
    chain = other := by
  induction h generalizing other with
  | top h =>
    cases h' with
    | top => rfl
    | round => rfl
    | up h' => rw [h] at h'; cases h'
  | round h hseen =>
    cases h' with
    | top => rfl
    | round => rfl
    | up h' hnew =>
      rw [h] at h'
      obtain rfl := Option.some.inj h'
      exact absurd hseen hnew
  | up h hnew _ ih =>
    cases h' with
    | top h' => rw [h] at h'; cases h'
    | round h' hseen =>
      rw [h] at h'
      obtain rfl := Option.some.inj h'
      exact absurd hseen hnew
    | up h' _ hrest =>
      rw [h] at h'
      obtain rfl := Option.some.inj h'
      rw [ih hrest]

/-- A walk begins with its module, and beyond that it comes by new identities only, each once. -/
theorem exists_eq_cons (h : Ascends index seen m chain) :
    ∃ rest, chain = m :: rest ∧ (rest.map Module.ident).Nodup ∧ ∀ n ∈ rest, n.ident ∉ seen := by
  induction h with
  | top => exact ⟨[], rfl, List.nodup_nil, nofun⟩
  | round => exact ⟨[], rfl, List.nodup_nil, nofun⟩
  | @up seen m parent chain h hnew _ ih =>
    obtain ⟨rest, rfl, hnodup, hrest⟩ := ih
    refine ⟨_, rfl, ?_, ?_⟩
    · rw [List.map_cons, List.nodup_cons]
      refine ⟨fun hmem => ?_, hnodup⟩
      obtain ⟨n, hn, hident⟩ := List.mem_map.1 hmem
      exact hrest n hn (hident ▸ List.mem_cons_self ..)
    · intro n hn
      rcases List.mem_cons.1 hn with rfl | hn
      · exact hnew
      · exact fun hmem => hrest n hn (List.mem_cons_of_mem _ hmem)

theorem nodup (h : Ascends index [m.ident] m chain) : (chain.map Module.ident).Nodup := by
  obtain ⟨rest, rfl, hnodup, hrest⟩ := h.exists_eq_cons
  rw [List.map_cons, List.nodup_cons]
  refine ⟨fun hmem => ?_, hnodup⟩
  obtain ⟨n, hn, hident⟩ := List.mem_map.1 hmem
  exact hrest n hn (List.mem_singleton.2 hident)

end Ascends

/-- A walk ends whatever the index is: the identities that it may still come by are used up. -/
theorem ascends_chainFrom (hindex : ∀ ident m, index.get? ident = some m → m.ident = ident)
    (hleft : ∀ ident ∈ index.keys, ident ∈ available ↔ ident ∉ seen) :
    Ascends index seen m (chainFrom index available m) := by
  fun_induction chainFrom index available m generalizing seen with
  | case1 available m ih =>
    cases hparent : m.parent.bind index.get? with
    | none => exact .top hparent
    | some parent =>
      obtain ⟨ident, -, hfound⟩ := Option.bind_eq_some_iff.1 hparent
      have hkey : parent.ident ∈ index.keys := by
        rw [hindex ident parent hfound]
        exact Table.mem_keys_of_get? hfound
      dsimp only
      split
      · rename_i hmem
        refine .up hparent ((hleft _ hkey).1 hmem) (ih parent hmem fun ident hident => ?_)
        rw [without, List.mem_filter, decide_eq_true_eq, hleft ident hident, List.mem_cons, not_or,
          and_comm]
      · rename_i hmem
        exact .round hparent (Classical.not_not.1 fun hnew => hmem ((hleft _ hkey).2 hnew))

/-- The chain of a comparison, upwards. -/
theorem ascends_lineage (x : List Module) (m : Module) :
    Ascends (indexOf x) [m.ident] m (lineage (indexOf x) m).reverse := by
  rw [lineage, List.reverse_reverse]
  apply ascends_chainFrom
  · intro ident n h
    exact (mem_of_indexOf h).2
  · intro ident hident
    rw [without, List.mem_filter, decide_eq_true_eq, List.mem_singleton]
    exact and_iff_right hident

end Ascent

section Forest

variable {F : Forest} {i k : Nat} {line : List Nat}

/-- On a line of different modules none after the first has the identity of the first. -/
theorem ident_ne_of_mem_tail (hline : line.head? = some i) (honce : line.Nodup)
    (hm : F.modules[i]? = some m) (hk : k ∈ line.tail) (hn : F.modules[k]? = some n) :
    n.ident ≠ m.ident := by
  intro hident
  have hat : Forest.IsAt F.modules i m.ident := by
    rw [Forest.IsAt, hm, Option.map_some]
  have hat' : Forest.IsAt F.modules k m.ident := by
    rw [Forest.IsAt, hn, Option.map_some, hident]
  have hsame : k = i := hat'.unique F.distinct hat
  obtain ⟨rest, rfl⟩ := List.head?_eq_some_iff.1 hline
  exact (List.nodup_cons.1 honce).1 (hsame ▸ hk)

/-- The index and the forest know the same parent of a module. -/
theorem parent_indexOf_modules (hm : F.modules[i]? = some m) :
    m.parent.bind (indexOf F.modules).get? = (F.parent? i).bind (F.modules[·]?) := by
  have hparent : F.parent? i = m.parent.bind F.find? := by
    rw [Forest.parent?, Forest.parentIn, Forest.links, List.getElem?_map, hm]
    rfl
  rw [hparent, Option.bind_assoc]
  exact Option.bind_congr fun ident _ => get?_indexOf_modules F ident

/-- In a forest the ancestors of a module are a walk, if none of them has been seen. -/
theorem ascends_chainUp {steps : Nat} (hm : F.modules[i]? = some m)
    (hends : Forest.climb F.links steps i = none) (honce : (Forest.chainUp F.links steps i).Nodup)
    (hnew : ∀ j ∈ (Forest.chainUp F.links steps i).tail, ∀ n, F.modules[j]? = some n →
      n.ident ∉ seen) :
    Ascends (indexOf F.modules) seen m
      ((Forest.chainUp F.links steps i).filterMap (F.modules[·]?)) := by
  induction steps generalizing i m seen with
  | zero => cases hends
  | succ steps ih =>
    have hup := parent_indexOf_modules hm
    rw [Forest.parent?] at hup
    rw [Forest.climb] at hends
    rw [Forest.chainUp] at honce hnew ⊢
    rw [List.filterMap_cons_some hm]
    cases hparent : Forest.parentIn F.links i with
    | none =>
      rw [hparent] at hup
      exact .top hup
    | some j =>
      simp only [hparent, Option.bind_some, List.tail_cons] at hup hends honce hnew
      have hj : j < F.modules.length := by
        rw [← List.length_map (f := Module.link)]
        exact Forest.lt_of_parentIn hparent
      rw [List.getElem?_eq_getElem hj] at hup
      have hfirst : (Forest.chainUp F.links steps j).head? = some j := by
        cases steps with
        | zero => cases hends
        | succ steps => rfl
      have hm' := List.getElem?_eq_getElem hj
      have honce' := (List.nodup_cons.1 honce).2
      refine .up hup (hnew j (List.mem_of_head? hfirst) _ hm')
        (ih hm' hends honce' fun k hk n hn => ?_)
      rw [List.mem_cons, not_or]
      exact ⟨ident_ne_of_mem_tail hfirst honce' hm' hk hn, hnew k (List.mem_of_mem_tail hk) n hn⟩

theorem lineage_indexOf_modules (hm : F.modules[i]? = some m) :
    lineage (indexOf F.modules) m = F.lineage i := by
  have hi : i < F.size := (List.getElem?_eq_some_iff.1 hm).1
  have hline := F.leadsToRoot_ancestors hi
  have hwalk : Ascends (indexOf F.modules) [m.ident] m
      ((F.ancestors i).filterMap (F.modules[·]?)) := by
    apply ascends_chainUp hm (Forest.climb_size hi) hline.once
    intro j hj n hn
    rw [List.mem_singleton]
    exact ident_ne_of_mem_tail hline.first hline.once hm hj hn
  rw [Forest.lineage, List.filterMap_reverse, ← (ascends_lineage F.modules m).unique hwalk,
    List.reverse_reverse]

/-- In a forest a comparison goes by the chains of the forest. In any list of modules the walk up
the parents ends, with the chain that the comparison goes by; that starts from the module, and no
identity stands in it twice. -/
theorem lineage_agrees (modules : List Module) :
    (∀ F, Forest.ofModules modules = .ok F → ∀ i m, modules[i]? = some m →
      lineage (indexOf modules) m = F.lineage i) ∧
    ∀ m, (∀ chain, Ascends (indexOf modules) [m.ident] m chain ↔
        chain.reverse = lineage (indexOf modules) m) ∧
      (lineage (indexOf modules) m).getLast? = some m ∧
      ((lineage (indexOf modules) m).map Module.ident).Nodup := by
  refine ⟨fun F hF i m hm => ?_, fun m => ?_⟩
  · obtain rfl := Forest.modules_of_ofModules hF
    exact lineage_indexOf_modules hm
  · have hwalk := ascends_lineage modules m
    refine ⟨fun chain => ⟨fun h => ?_, fun h => ?_⟩, ?_, ?_⟩
    · rw [h.unique hwalk, List.reverse_reverse]
    · rw [← h, List.reverse_reverse] at hwalk
      exact hwalk
    · obtain ⟨rest, hrest, -⟩ := hwalk.exists_eq_cons
      rw [← List.head?_reverse, hrest]
      rfl
    · have hnodup := hwalk.nodup
      rwa [List.map_reverse, List.nodup_reverse] at hnodup

/-- A module before the one that it names as its parent. -/
def appBeforeRoot : List Module := [
  { ident := ⟨"org.foo", "app"⟩, version := "1.0", parent := some ⟨"org.foo", "root"⟩ },
  { ident := ⟨"org.foo", "root"⟩, version := "1.0" }]

theorem appBeforeRoot_lineage_agrees :
    ∃ F app root, Forest.ofModules appBeforeRoot = .ok F ∧ appBeforeRoot = [app, root] ∧
      lineage (indexOf appBeforeRoot) app = F.lineage 0 ∧ F.lineage 0 = [root, app] :=
  ⟨_, _, _, rfl, rfl, (lineage_agrees appBeforeRoot).1 _ rfl 0 _ rfl, rfl⟩

end Forest

end Report
end Realign
