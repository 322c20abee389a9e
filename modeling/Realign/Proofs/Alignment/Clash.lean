import Mathlib.Data.Finset.Dedup
import Mathlib.Data.List.Induction
import Realign.Proofs.Alignment.Wishes

/-!
Proposals made one after another. The ledger says of every scope what the wishes for it amount to,
unless one of them clashed and that was fatal. Without overrides the order of the wishes
does not matter. Where clashes are tolerated an override comes too late if the wishes before
it have clashed.
-/
namespace Realign

/-- What a revision asks for and who asks. -/
def Revision.summary (r : Revision) : Option String × Finset Ident :=
  (r.new, r.contributors.toFinset)

namespace Ledger

/-- A wish for the property behind a value, as it is made from a module. -/
structure Proposal where
  viewer : Nat
  value : String
  wish : Wish
deriving DecidableEq, Repr

/-- The ledger after proposals made one after another, and the answer to each of them. A fault is
an answer, and the next proposal is made to the ledger that it leaves. -/
def proposeAll (F : Forest) (p : Policy) :
    Ledger → List Proposal → Ledger × List (Except AlignError Bool)
  | L, [] => (L, [])
  | L, c :: calls =>
    let first := L.propose F p c.viewer c.value c.wish
    let rest := proposeAll F p first.1 calls
    (rest.1, first.2 :: rest.2)

/-- The scope that a proposal is about, if its value stands for a property. -/
def Proposal.scope? (F : Forest) (c : Proposal) : Option Scope :=
  match Placeholder.bare? c.value with
  | some name => if name = moduleVersionName then none else some (F.declaringScope c.viewer name)
  | none => none

/-- Whether the value of a proposal, if it is about a scope, resolves. -/
def Proposal.Resolves (F : Forest) (c : Proposal) : Prop :=
  ∀ s, c.scope? F = some s → ∃ old, F.resolve c.viewer c.value = .ok old

instance (F : Forest) (c : Proposal) : Decidable (c.Resolves F) :=
  decidable_of_iff ((c.scope? F).isSome = true → (F.resolve c.viewer c.value).isOk = true) (by
    simp only [Proposal.Resolves, Option.isSome_iff_exists, forall_exists_index]
    cases F.resolve c.viewer c.value <;> simp [Except.isOk, Except.toBool])

/-- The wishes for a scope, in the order in which they are made. -/
def wishesAt (F : Forest) (s : Scope) (calls : List Proposal) : List Wish :=
  (calls.filter fun c => c.scope? F = some s).map Proposal.wish

section Proposing

variable {F : Forest} {p : Policy} {L : Ledger} {s : Scope} {c : Proposal} {calls : List Proposal}

theorem propose_of_scope?_eq_none (h : c.scope? F = none) (L : Ledger) (p : Policy) :
    L.propose F p c.viewer c.value c.wish = (L, .ok false) := by
  unfold Proposal.scope? at h
  unfold propose
  cases hb : Placeholder.bare? c.value with
  | none => rfl
  | some name =>
    rw [hb] at h
    dsimp only at h ⊢
    split
    · rfl
    · rename_i hne
      rw [if_neg hne] at h
      cases h

/-- What becomes of a proposal that is about a scope. -/
theorem propose_eq (h : c.scope? F = some s) (L : Ledger) (p : Policy) :
    L.propose F p c.viewer c.value c.wish =
      match F.resolve c.viewer c.value with
      | .error e => (L, .error (.resolve e))
      | .ok old => if L.isPurged s then (L, .ok false) else L.enter F p s old c.wish := by
  unfold Proposal.scope? at h
  unfold propose
  cases hb : Placeholder.bare? c.value with
  | none =>
    rw [hb] at h
    cases h
  | some name =>
    rw [hb] at h
    dsimp only at h ⊢
    split at h
    · cases h
    · rename_i hne
      cases F.resolve c.viewer c.value with
      | error e => simp only [if_neg hne]
      | ok old => simp only [if_neg hne, Option.some.inj h]

theorem propose_of_scope? (h : c.scope? F = some s) (hres : c.Resolves F) (L : Ledger)
    (p : Policy) :
    ∃ old, L.propose F p c.viewer c.value c.wish =
      if L.isPurged s then (L, .ok false) else L.enter F p s old c.wish := by
  obtain ⟨old, hold⟩ := hres s h
  refine ⟨old, ?_⟩
  rw [propose_eq h, hold]

theorem wishesAt_append (F : Forest) (s : Scope) (calls : List Proposal) (c : Proposal) :
    wishesAt F s (calls ++ [c]) =
      wishesAt F s calls ++ if c.scope? F = some s then [c.wish] else [] := by
  rw [wishesAt, List.filter_append, List.map_append, ← wishesAt]
  split <;> simp [*]

theorem mem_wishesAt {w : Wish} :
    w ∈ wishesAt F s calls ↔ ∃ c ∈ calls, c.scope? F = some s ∧ c.wish = w := by
  simp [wishesAt, and_assoc]

theorem proposeAll_append (F : Forest) (p : Policy) (L : Ledger) (calls : List Proposal)
    (c : Proposal) :
    proposeAll F p L (calls ++ [c]) =
      (((proposeAll F p L calls).1.propose F p c.viewer c.value c.wish).1,
        (proposeAll F p L calls).2 ++
          [((proposeAll F p L calls).1.propose F p c.viewer c.value c.wish).2]) := by
  induction calls generalizing L with
  | nil => rfl
  | cons first calls ih => rw [List.cons_append, proposeAll, ih, proposeAll, List.cons_append]

/-- What the wishes for each scope amount to before the first override, whatever the scope. -/
def Peaceful (F : Forest) (calls : List Proposal) : Prop :=
  ∀ s, Unanimous (beforeOverride (wishesAt F s calls))

theorem Peaceful.of_append (h : Peaceful F (calls ++ [c])) : Peaceful F calls := by
  intro s
  apply (h s).of_subset
  rw [wishesAt_append]
  exact beforeOverride_subset_append _

theorem wishesAt_append_of_none (h : c.scope? F = none) (s : Scope) (calls : List Proposal) :
    wishesAt F s (calls ++ [c]) = wishesAt F s calls := by
  rw [wishesAt_append, h, if_neg (by simp), List.append_nil]

theorem wishesAt_append_of_ne {q : Scope} (h : c.scope? F = some s) (hq : s ≠ q)
    (calls : List Proposal) : wishesAt F q (calls ++ [c]) = wishesAt F q calls := by
  rw [wishesAt_append, h, if_neg (by simp [hq]), List.append_nil]

theorem wishesAt_append_self (h : c.scope? F = some s) (calls : List Proposal) :
    wishesAt F s (calls ++ [c]) = wishesAt F s calls ++ [c.wish] := by
  rw [wishesAt_append, if_pos h]

theorem peaceful_append_iff (h : c.scope? F = some s) :
    Peaceful F (calls ++ [c]) ↔
      Peaceful F calls ∧ Unanimous (beforeOverride (wishesAt F s calls ++ [c.wish])) := by
  constructor
  · intro hpeace
    refine ⟨hpeace.of_append, ?_⟩
    rw [← wishesAt_append_self h]
    exact hpeace s
  · intro hboth q
    by_cases hq : s = q
    · rw [← hq, wishesAt_append_self h]
      exact hboth.2
    · rw [wishesAt_append_of_ne h hq]
      exact hboth.1 q

/-- A ledger that takes one more wish into account at its scope and is the same elsewhere. -/
theorem reflects_append {L' : Ledger} (hs : c.scope? F = some s)
    (h : ∀ q, Reflects L q (wishesAt F q calls))
    (hself : Reflects L' s (wishesAt F s calls ++ [c.wish]))
    (hothers : ∀ q, s ≠ q → L'.get? q = L.get? q ∧ L'.isPurged q = L.isPurged q) (q : Scope) :
    Reflects L' q (wishesAt F q (calls ++ [c])) := by
  by_cases hq : s = q
  · rw [← hq, wishesAt_append_self hs]
    exact hself
  · rw [wishesAt_append_of_ne hs hq]
    exact (h q).of_same (hothers q hq).1 (hothers q hq).2

/-- One more proposal. The ledger says what the wishes amount to as before, unless the proposal
clashes and that is fatal. -/
theorem reflects_propose (h : ∀ s, Reflects L s (wishesAt F s calls)) (hres : c.Resolves F)
    (hpeace : p.propertyClashFails = true → Peaceful F calls) :
    ((∃ taken, (L.propose F p c.viewer c.value c.wish).2 = .ok taken) ∧
        (∀ s, Reflects (L.propose F p c.viewer c.value c.wish).1 s
          (wishesAt F s (calls ++ [c]))) ∧
        (p.propertyClashFails = true → Peaceful F (calls ++ [c]))) ∨
      p.propertyClashFails = true ∧ IsClash (L.propose F p c.viewer c.value c.wish).2 ∧
        ¬ Peaceful F (calls ++ [c]) := by
  cases hs : c.scope? F with
  | none =>
    left
    rw [propose_of_scope?_eq_none hs]
    simp only [Peaceful, wishesAt_append_of_none hs]
    exact ⟨⟨false, rfl⟩, h, hpeace⟩
  | some s =>
    obtain ⟨old, hpropose⟩ := propose_of_scope? hs hres L p
    rw [hpropose]
    cases hpurged : L.isPurged s with
    | true =>
      left
      rw [if_pos rfl]
      have hself := (h s).of_purged hpurged c.wish
      refine ⟨⟨false, rfl⟩, reflects_append hs h hself fun q _ => ⟨rfl, rfl⟩, fun hp => ?_⟩
      exact absurd (hpeace hp s) ((h s).purged.1 hpurged)
    | false =>
      rw [if_neg Bool.false_ne_true]
      have hothers (q : Scope) (hq : s ≠ q) := enter_of_ne hq L F p old c.wish
      rcases (h s).enter hpurged F p old c.wish with ⟨hagree, hok, hself⟩ | ⟨hclash, hfatal, htol⟩
      · left
        refine ⟨⟨true, hok⟩, reflects_append hs h hself hothers, fun hp => ?_⟩
        exact (peaceful_append_iff hs).2 ⟨hpeace hp, hagree⟩
      · cases hp : p.propertyClashFails with
        | true =>
          right
          exact ⟨rfl, hfatal hp, fun hpeace' => hclash ((peaceful_append_iff hs).1 hpeace').2⟩
        | false =>
          left
          obtain ⟨hok, hself⟩ := htol hp
          refine ⟨⟨false, hok⟩, reflects_append hs h hself hothers, fun hp' => ?_⟩
          cases hp'

/-- Proposals made one after another to an empty ledger. Either all of them are answered and the
ledger says what they amount to, or one of them clashes and that is fatal. -/
theorem proposeAll_cases (F : Forest) (p : Policy) (calls : List Proposal)
    (hres : ∀ c ∈ calls, c.Resolves F) :
    ((∀ answer ∈ (proposeAll F p {} calls).2, ∃ taken, answer = .ok taken) ∧
        (∀ s, Reflects (proposeAll F p {} calls).1 s (wishesAt F s calls)) ∧
        (p.propertyClashFails = true → Peaceful F calls)) ∨
      p.propertyClashFails = true ∧ (∃ answer ∈ (proposeAll F p {} calls).2, IsClash answer) ∧
        ¬ Peaceful F calls := by
  induction calls using List.reverseRecOn with
  | nil =>
    left
    refine ⟨fun answer hanswer => ?_, reflects_empty, fun _ s w hw => ?_⟩
    · cases hanswer
    · cases hw
  | append_singleton calls c ih =>
    rw [proposeAll_append]
    have hbefore := ih fun c' hc' => hres c' (List.mem_append_left _ hc')
    rcases hbefore with ⟨hanswers, hreflects, hpeace⟩ | ⟨hp, ⟨answer, hmem, hclash⟩, hnot⟩
    · have hstep := reflects_propose hreflects (hres c (by simp)) hpeace
      rcases hstep with ⟨hok, hreflects', hpeace'⟩ | ⟨hp, hclash, hnot⟩
      · refine Or.inl ⟨fun answer hmem => ?_, hreflects', hpeace'⟩
        rcases List.mem_append.1 hmem with hmem | hmem
        · exact hanswers answer hmem
        · rw [List.mem_singleton.1 hmem]
          exact hok
      · exact Or.inr ⟨hp, ⟨_, by simp, hclash⟩, hnot⟩
    · right
      exact ⟨hp, ⟨answer, List.mem_append_left _ hmem, hclash⟩, fun h => hnot h.of_append⟩

/-- Where clashes are tolerated, or there are none, the ledger says what the proposals amount to. -/
theorem reflects_proposeAll (hpeace : p.propertyClashFails = true → Peaceful F calls)
    (hres : ∀ c ∈ calls, c.Resolves F) (s : Scope) :
    Reflects (proposeAll F p {} calls).1 s (wishesAt F s calls) := by
  rcases proposeAll_cases F p calls hres with ⟨-, h, -⟩ | ⟨hp, -, hnot⟩
  · exact h s
  · exact absurd (hpeace hp) hnot

/-- Where clashes are fatal one is reported exactly when the wishes for some scope do not agree. -/
theorem isClash_proposeAll (hfatal : p.propertyClashFails = true)
    (hres : ∀ c ∈ calls, c.Resolves F) :
    (∀ answer ∈ (proposeAll F p {} calls).2, ¬ IsClash answer) ↔ Peaceful F calls := by
  rcases proposeAll_cases F p calls hres with ⟨hanswers, -, hpeace⟩ | ⟨-, ⟨answer, hmem, hc⟩, hnot⟩
  · refine iff_of_true (fun answer hmem hclash => ?_) (hpeace hfatal)
    obtain ⟨taken, rfl⟩ := hanswers answer hmem
    obtain ⟨_, _, _, _, _, _, he⟩ := hclash
    cases he
  · exact iff_of_false (fun h => h answer hmem hc) hnot

end Proposing

/-- Two modules that reach one property of their parent, one of them by another name. -/
def siblings : Forest where
  modules := [
    { ident := ⟨"org.foo", "root"⟩, version := "1.0",
      main.properties := .ofRows [("shared", "1.0")] },
    { ident := ⟨"org.foo", "left"⟩, version := "1.0", parent := some ⟨"org.foo", "root"⟩ },
    { ident := ⟨"org.foo", "right"⟩, version := "1.0", parent := some ⟨"org.foo", "root"⟩,
      main.properties := .ofRows [("alias", "$\x7bshared\x7d")] }]
  grounded := ⟨by decide, by decide⟩

/-- A wish for the version of the dependency of that name. -/
def wishFor (artifact version : String) (forced : Bool) : Wish :=
  ⟨⟨"org.dep", artifact⟩, version, forced⟩

def sharedByBoth (left right : Wish) : List Proposal :=
  [⟨1, "$\x7bshared\x7d", left⟩, ⟨2, "$\x7balias\x7d", right⟩]

def tolerantOfClashes : Policy := { propertyClashFails := false }

section Unforced

variable {F : Forest} {p : Policy} {calls calls' : List Proposal}

theorem wishesAt_perm (h : calls.Perm calls') (F : Forest) (s : Scope) :
    (wishesAt F s calls).Perm (wishesAt F s calls') :=
  (h.filter _).map _

theorem unforced_wishesAt (h : ∀ c ∈ calls, c.wish.forced = false) (F : Forest) (s : Scope) :
    ∀ w ∈ wishesAt F s calls, w.forced = false := by
  intro w hw
  obtain ⟨c, hc, -, rfl⟩ := mem_wishesAt.1 hw
  exact h c hc

/-- Without an override all prevails or nothing does. -/
theorem prevailing?_of_unanimous {ws : List Wish} (h : Unanimous ws) {w : Wish} (hw : w ∈ ws) :
    prevailing? ws = some w.version := by
  obtain ⟨version, hv⟩ := prevailing?_isSome (List.ne_nil_of_mem hw)
  obtain ⟨w', hw', rfl⟩ := exists_mem_of_prevailing? hv
  rw [hv, h w' hw' w hw]

theorem unanimous_congr {ws ws' : List Wish} (h : ws.Perm ws') : Unanimous ws ↔ Unanimous ws' :=
  ⟨fun hagree => hagree.of_subset h.symm.subset, fun hagree => hagree.of_subset h.subset⟩

theorem peaceful_iff_of_unforced (h : ∀ c ∈ calls, c.wish.forced = false) (F : Forest) :
    Peaceful F calls ↔ ∀ s, Unanimous (wishesAt F s calls) :=
  forall_congr' fun s => by rw [beforeOverride_of_unforced (unforced_wishesAt h F s)]

/-- Without overrides a revision asks for what each wish for its scope asks for. -/
theorem Reflects.new_of_mem {L : Ledger} {s : Scope} {ws : List Wish} (h : Reflects L s ws)
    (hunforced : ∀ w ∈ ws, w.forced = false) {r : Revision} (hr : L.get? s = some r) {w : Wish}
    (hw : w ∈ ws) : r.new = some w.version := by
  have habsent := h.absent
  rw [hr, beforeOverride_of_unforced hunforced] at habsent
  have hagree : Unanimous ws := by
    by_contra hclash
    cases habsent.2 (Or.inr hclash)
  rw [h.new r hr, prevailing?_of_unanimous hagree hw]

/-- What the ledger says of a scope does not depend on the order of wishes that are no overrides. -/
theorem Reflects.same_of_perm {L L' : Ledger} {s : Scope} {ws ws' : List Wish} (h : Reflects L s ws)
    (h' : Reflects L' s ws') (hperm : ws.Perm ws') (hunforced : ∀ w ∈ ws, w.forced = false) :
    L.isPurged s = L'.isPurged s ∧
      (L.get? s).map Revision.summary = (L'.get? s).map Revision.summary := by
  have hunforced' (w : Wish) (hw : w ∈ ws') : w.forced = false :=
    hunforced w (hperm.symm.subset hw)
  have hws := beforeOverride_of_unforced hunforced
  have hws' := beforeOverride_of_unforced hunforced'
  have hagree := unanimous_congr hperm
  have hnil : ws = [] ↔ ws' = [] := by
    rw [← List.length_eq_zero_iff, hperm.length_eq, List.length_eq_zero_iff]
  have hnone : L.get? s = none ↔ L'.get? s = none := by
    rw [h.absent, h'.absent, hws, hws', hagree, hnil]
  refine ⟨Bool.eq_iff_iff.2 ?_, ?_⟩
  · rw [h.purged, h'.purged, hws, hws', hagree]
  cases hr : L.get? s with
  | none => rw [hnone.1 hr]
  | some r =>
    cases hr' : L'.get? s with
    | none =>
      rw [hnone.2 hr'] at hr
      cases hr
    | some r' =>
      have hne : ws ≠ [] := by
        intro he
        rw [h.absent.2 (Or.inl he)] at hr
        cases hr
      obtain ⟨w, hw⟩ := List.exists_mem_of_ne_nil ws hne
      have hnew : r.new = r'.new := by
        rw [h.new_of_mem hunforced hr hw, h'.new_of_mem hunforced' hr' (hperm.subset hw)]
      have hsources : r.contributors.toFinset = r'.contributors.toFinset := by
        ext x
        rw [List.mem_toFinset, List.mem_toFinset, h.contributors r hr, h'.contributors r' hr']
        simp only [hperm.mem_iff]
      rw [Option.map_some, Option.map_some, Revision.summary, Revision.summary, hnew, hsources]

/-- Clashes between wishes that are no overrides are found exactly, whatever their order. Where they
are fatal, one is reported if and only if the wishes for some scope differ. Where they are
tolerated, or there are none, a scope that has wishes keeps its revision if and only if they
all agree, and then the revision asks for what they ask for, on behalf of all of them; otherwise
the scope is purged. In another order the same wishes leave the same scopes purged and the
same revisions. -/
theorem clash_iff_not_unanimous (F : Forest) (p : Policy) (calls : List Proposal)
    (hunforced : ∀ c ∈ calls, c.wish.forced = false) (hres : ∀ c ∈ calls, c.Resolves F) :
    (p.propertyClashFails = true →
      ((∀ answer ∈ (proposeAll F p {} calls).2, ¬ IsClash answer) ↔
        ∀ s, Unanimous (wishesAt F s calls))) ∧
    ((p.propertyClashFails = true → ∀ s, Unanimous (wishesAt F s calls)) →
      (∀ s, ((∃ r, (proposeAll F p {} calls).1.get? s = some r) ↔
          wishesAt F s calls ≠ [] ∧ Unanimous (wishesAt F s calls)) ∧
        (∀ r, (proposeAll F p {} calls).1.get? s = some r →
          (∀ w ∈ wishesAt F s calls, r.new = some w.version) ∧
            ∀ x, x ∈ r.contributors ↔ ∃ w ∈ wishesAt F s calls, w.source = x) ∧
        ((proposeAll F p {} calls).1.isPurged s = true ↔ ¬ Unanimous (wishesAt F s calls))) ∧
      ∀ calls', calls.Perm calls' → ∀ s,
        (proposeAll F p {} calls).1.isPurged s = (proposeAll F p {} calls').1.isPurged s ∧
          ((proposeAll F p {} calls).1.get? s).map Revision.summary =
            ((proposeAll F p {} calls').1.get? s).map Revision.summary) := by
  have hwishes := unforced_wishesAt hunforced F
  have hfree (s : Scope) := beforeOverride_of_unforced (hwishes s)
  rw [← peaceful_iff_of_unforced hunforced]
  refine ⟨fun hfatal => isClash_proposeAll hfatal hres,
    fun hpeace => ⟨fun s => ?_, fun calls' hperm s => ?_⟩⟩
  · have h := reflects_proposeAll hpeace hres s
    refine ⟨?_, fun r hr => ⟨fun w hw => ?_, h.contributors r hr⟩, ?_⟩
    · rw [← Option.isSome_iff_exists, Option.isSome_iff_ne_none, Ne, h.absent, hfree, not_or,
        not_not]
    · exact h.new_of_mem (hwishes s) hr hw
    · rw [h.purged, hfree]
  · have h := reflects_proposeAll hpeace hres s
    have hpeace' (hp : p.propertyClashFails = true) : Peaceful F calls' := by
      rw [peaceful_iff_of_unforced fun c hc => hunforced c (hperm.symm.subset hc)]
      intro q
      rw [← unanimous_congr (wishesAt_perm hperm F q)]
      exact (peaceful_iff_of_unforced hunforced F).1 (hpeace hp) q
    have h' := reflects_proposeAll hpeace' (fun c hc => hres c (hperm.symm.subset hc)) s
    exact h.same_of_perm h' (wishesAt_perm hperm F s) (hwishes s)

theorem shared_purged_of_clash :
    (proposeAll siblings tolerantOfClashes {} (sharedByBoth (wishFor "a" "2.0" false)
      (wishFor "b" "3.0" false))).1.isPurged ⟨0, "shared"⟩ = true :=
  (((clash_iff_not_unanimous siblings tolerantOfClashes
    (sharedByBoth (wishFor "a" "2.0" false) (wishFor "b" "3.0" false))
    (by decide) (by decide +kernel)).2 (fun h => absurd h (by decide))).1 ⟨0, "shared"⟩).2.2.2
    (by decide +kernel)

end Unforced

theorem prevailing?_of_override {ws : List Wish} {version : String}
    (hforced : ∃ w ∈ ws, w.forced = true)
    (hsame : ∀ w ∈ ws, w.forced = true → w.version = version) :
    prevailing? ws = some version := by
  unfold prevailing?
  cases hf : ws.reverse.find? Wish.forced with
  | none =>
    obtain ⟨w, hw, hw'⟩ := hforced
    exact absurd hw' (List.find?_eq_none.1 hf w (List.mem_reverse.2 hw))
  | some w =>
    have hmem := List.mem_reverse.1 (List.mem_of_find?_eq_some hf)
    have hversion := hsame w hmem (List.find?_some hf)
    rw [← hversion]
    rfl

/-- Where clashes are tolerated, the override of a scope stands if and only if it does not come too
late, after wishes for the scope that have clashed. Then the scope is purged for good. -/
theorem override_stands_iff (F : Forest) (p : Policy) (calls : List Proposal)
    (htolerant : p.propertyClashFails = false) (hres : ∀ c ∈ calls, c.Resolves F) (s : Scope)
    (version : String) (hforced : ∃ w ∈ wishesAt F s calls, w.forced = true)
    (hsame : ∀ w ∈ wishesAt F s calls, w.forced = true → w.version = version) :
    ((∃ r, (proposeAll F p {} calls).1.get? s = some r ∧ r.new = some version ∧
        r.forced = true) ↔ Unanimous (beforeOverride (wishesAt F s calls))) ∧
      (¬ Unanimous (beforeOverride (wishesAt F s calls)) →
        (proposeAll F p {} calls).1.isPurged s = true ∧
          (proposeAll F p {} calls).1.get? s = none) := by
  have hpeace (hfatal : p.propertyClashFails = true) : Peaceful F calls := by
    rw [htolerant] at hfatal
    cases hfatal
  have h := reflects_proposeAll hpeace hres s
  refine ⟨⟨fun hstands => ?_, fun hagree => ?_⟩, fun hclash => ?_⟩
  · obtain ⟨r, hr, -, -⟩ := hstands
    by_contra hclash
    rw [h.absent.2 (Or.inr hclash)] at hr
    cases hr
  · have hasked : wishesAt F s calls ≠ [] := by
      obtain ⟨w, hw, -⟩ := hforced
      exact List.ne_nil_of_mem hw
    have hrow : (proposeAll F p {} calls).1.get? s ≠ none := by
      rw [Ne, h.absent]
      simp [hasked, hagree]
    obtain ⟨r, hr⟩ := Option.ne_none_iff_exists'.1 hrow
    refine ⟨r, hr, ?_, (h.forced r hr).2 hforced⟩
    rw [h.new r hr, prevailing?_of_override hforced hsame]
  · exact ⟨h.purged.2 hclash, h.absent.2 (Or.inr hclash)⟩

theorem shared_override_stands :
    ∃ r, (proposeAll siblings tolerantOfClashes {} (sharedByBoth (wishFor "a" "2.0" false)
        (wishFor "b" "3.0" true))).1.get? ⟨0, "shared"⟩ = some r ∧
      r.new = some "3.0" ∧ r.forced = true :=
  (override_stands_iff siblings tolerantOfClashes
    (sharedByBoth (wishFor "a" "2.0" false) (wishFor "b" "3.0" true)) rfl (by decide +kernel)
    ⟨0, "shared"⟩ "3.0" (by decide +kernel) (by decide +kernel)).1.2 (by decide +kernel)

theorem not_forall_override_stands :
    ¬ ∀ (F : Forest) (p : Policy) (calls : List Proposal), p.propertyClashFails = false →
      (∀ c ∈ calls, c.Resolves F) → ∀ (s : Scope) (version : String),
      (∃ w ∈ wishesAt F s calls, w.forced = true) →
      (∀ w ∈ wishesAt F s calls, w.forced = true → w.version = version) →
      ∃ r, (proposeAll F p {} calls).1.get? s = some r ∧ r.new = some version ∧
        r.forced = true := by
  intro hall
  obtain ⟨r, hr, -, -⟩ := hall siblings tolerantOfClashes
    (sharedByBoth (wishFor "a" "2.0" false) (wishFor "b" "3.0" false) ++
      [⟨1, "$\x7bshared\x7d", wishFor "c" "4.0" true⟩]) rfl (by decide +kernel)
    ⟨0, "shared"⟩ "4.0" (by decide +kernel) (by decide +kernel)
  have hnone : (proposeAll siblings tolerantOfClashes {}
      (sharedByBoth (wishFor "a" "2.0" false) (wishFor "b" "3.0" false) ++
        [⟨1, "$\x7bshared\x7d", wishFor "c" "4.0" true⟩])).1.get? ⟨0, "shared"⟩ = none := by
    decide +kernel
  rw [hnone] at hr
  cases hr

end Ledger
end Realign
