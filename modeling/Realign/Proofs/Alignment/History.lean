import Realign.Proofs.Alignment.Clash

/-!
The ledger as a record of what has happened. Whatever is proposed, and whether it is answered or
not, a scope for which a proposal was taken has a row unless it is purged, and the row knows the
proposals that were taken: the value that the first of them found, who made them, and which of
them prevails. Checks of users roll values back and do nothing else.
-/
namespace Realign

namespace Ledger

section Touch

variable {L : Ledger} {s : Scope} {r : Revision}

theorem put_of_get? (h : L.get? s = some r) : L.put s r = L := by
  obtain ⟨revisions, hrevisions, hr⟩ := Option.bind_eq_some_iff.1 h
  have hinner : ((L.revisions? s.holder).getD .empty).insert s.property r = revisions := by
    rw [hrevisions, Option.getD_some, Table.insert_of_get? hr]
  rw [put, hinner, Table.insert_of_get? hrevisions]

theorem put_put (L : Ledger) (s : Scope) (r r' : Revision) :
    (L.put s r).put s r' = L.put s r' := by
  have hinner : ((L.put s r).revisions? s.holder).getD .empty =
      ((L.revisions? s.holder).getD .empty).insert s.property r := by
    rw [revisions?, put, Table.get?_insert, if_pos rfl, Option.getD_some]
  rw [put, hinner, Table.insert_insert, put, put, Table.insert_insert]

theorem get?_of_new (h : (L.revisionAt s).new ≠ none) : L.get? s = some (L.revisionAt s) := by
  rw [revisionAt] at h ⊢
  cases hr : L.get? s with
  | none =>
    rw [hr] at h
    exact absurd rfl h
  | some r => rfl

/-- A row that asks for something is there already. -/
theorem touch_of_new (h : (L.revisionAt s).new ≠ none) : L.touch s = L :=
  put_of_get? (get?_of_new h)

/-- It makes no difference whether the row of a scope is there before a wish is entered. -/
theorem enter_touch (L : Ledger) (F : Forest) (p : Policy) (s : Scope) (old : String) (w : Wish) :
    (L.touch s).enter F p s old w = L.enter F p s old w := by
  cases hnew : (L.revisionAt s).new with
  | some existing => rw [touch_of_new (by rw [hnew]; simp)]
  | none =>
    have hrow : (L.touch s).revisionAt s = L.revisionAt s := by
      rw [revisionAt, touch, get?_put, if_pos rfl, Option.getD_some]
    have hfirst (L' : Ledger) (h : (L'.revisionAt s).new = none) :
        L'.enter F p s old w =
          (L'.put s ((L'.revisionAt s).record old w.version w.source w.forced), .ok true) := by
      unfold enter
      dsimp only
      rw [h]
    rw [hfirst L hnew, hfirst (L.touch s) (by rw [hrow, hnew]), hrow, touch, put_put]

end Touch

/-- Whether an answer says that the wish was taken. -/
def isTaken : Except AlignError Bool → Bool
  | .ok taken => taken
  | .error _ => false

/-- The proposals for a scope that were taken, in the order in which they were made. -/
def takenAt (F : Forest) (p : Policy) (s : Scope) (calls : List Proposal) : List Proposal :=
  ((calls.zip (proposeAll F p {} calls).2).filter fun (c, answer) =>
    c.scope? F = some s ∧ isTaken answer = true).map Prod.fst

/-- What a revision knows of the proposals that were taken for its scope. -/
structure Accounts (F : Forest) (r : Revision) (taken : List Proposal) : Prop where
  old : ∃ first old, taken.head? = some first ∧ F.resolve first.viewer first.value = .ok old ∧
    r.old = some old
  new : ∃ version, r.new = some version
  contributors : ∀ x, x ∈ r.contributors ↔ ∃ c ∈ taken, c.wish.source = x

/-- A revision asks for what all proposals asked for, or for what the last override among them
did. -/
structure Prevails (r : Revision) (taken : List Proposal) : Prop where
  unforced : r.forced = false → ∀ c ∈ taken, r.new = some c.wish.version
  forced : r.forced = true →
    ∃ c, (taken.filter fun c => c.wish.forced).getLast? = some c ∧ r.new = some c.wish.version

/-- What the ledger says of a scope while wishes are entered. A purged scope has no row, and where
no row is, no wish was taken or the scope was purged. -/
structure Chronicle (F : Forest) (L : Ledger) (s : Scope) (taken : List Proposal) : Prop where
  purged : L.isPurged s = true → L.get? s = none
  accounts : ∀ r, L.get? s = some r → Accounts F r taken
  prevails : ∀ r, L.get? s = some r → Prevails r taken
  absent : L.get? s = none → L.isPurged s = true ∨ taken = []

section Proposing

variable {F : Forest} {p : Policy} {L L' : Ledger} {s : Scope} {c : Proposal}
  {calls taken : List Proposal} {old version : String} {forced : Bool}

theorem length_proposeAll (F : Forest) (p : Policy) (L : Ledger) (calls : List Proposal) :
    (proposeAll F p L calls).2.length = calls.length := by
  induction calls generalizing L with
  | nil => rfl
  | cons c calls ih => rw [proposeAll, List.length_cons, List.length_cons, ih]

theorem takenAt_append (F : Forest) (p : Policy) (s : Scope) (calls : List Proposal)
    (c : Proposal) :
    takenAt F p s (calls ++ [c]) = takenAt F p s calls ++
      if c.scope? F = some s ∧
          isTaken ((proposeAll F p {} calls).1.propose F p c.viewer c.value c.wish).2 = true then
        [c]
      else [] := by
  rw [takenAt, proposeAll_append, List.zip_append (length_proposeAll F p {} calls).symm,
    List.filter_append, List.map_append, ← takenAt]
  congr 1
  split <;> simp [*]

theorem chronicle_empty (F : Forest) (s : Scope) : Chronicle F {} s [] := by
  have hnone : get? {} s = none := rfl
  refine ⟨fun _ => rfl, fun r hr => ?_, fun r hr => ?_, fun _ => Or.inr rfl⟩
  · cases hnone.symm.trans hr
  · cases hnone.symm.trans hr

theorem Chronicle.of_same (h : Chronicle F L s taken) (hget : L'.get? s = L.get? s)
    (hpurged : L'.isPurged s = L.isPurged s) : Chronicle F L' s taken := by
  refine ⟨?_, ?_, ?_, ?_⟩
  · rw [hget, hpurged]
    exact h.purged
  · rw [hget]
    exact h.accounts
  · rw [hget]
    exact h.prevails
  · rw [hget, hpurged]
    exact h.absent

/-- The row of a scope that is not purged, or the fresh one where nothing was taken. -/
theorem Chronicle.revisionAt (h : Chronicle F L s taken) (hclean : L.isPurged s = false) :
    (taken = [] ∧ L.revisionAt s = {}) ∨
      Accounts F (L.revisionAt s) taken ∧ Prevails (L.revisionAt s) taken := by
  rw [Ledger.revisionAt]
  cases hr : L.get? s with
  | none =>
    have habsent := h.absent hr
    rw [hclean] at habsent
    exact Or.inl ⟨by simpa using habsent, rfl⟩
  | some r => exact Or.inr ⟨h.accounts r hr, h.prevails r hr⟩

theorem accounts_record {r : Revision} (h : (taken = [] ∧ r = {}) ∨ Accounts F r taken)
    (hold : F.resolve c.viewer c.value = .ok old) (version : String) (forced : Bool) :
    Accounts F (r.record old version c.wish.source forced) (taken ++ [c]) := by
  refine ⟨?_, ⟨version, rfl⟩, fun x => ?_⟩
  · rcases h with ⟨rfl, rfl⟩ | h
    · exact ⟨c, old, rfl, hold, rfl⟩
    · obtain ⟨first, value, hfirst, hvalue, hr⟩ := h.old
      refine ⟨first, value, ?_, hvalue, ?_⟩
      · rw [List.head?_append, hfirst, Option.some_or]
      · rw [Revision.record, hr, Option.getD_some]
  · have hbefore : x ∈ r.contributors ↔ ∃ c ∈ taken, c.wish.source = x := by
      rcases h with ⟨rfl, rfl⟩ | h
      · simp
      · exact h.contributors x
    rw [Revision.mem_contributors_record, hbefore]
    simp [or_and_right, exists_or, eq_comm]

theorem lastForced_append_of_unforced (hfree : c.wish.forced = false) (taken : List Proposal) :
    ((taken ++ [c]).filter fun c => c.wish.forced) = taken.filter fun c => c.wish.forced := by
  simp [hfree]

/-- A wish that is taken as it is prevails. -/
theorem prevails_record {r : Revision} (h : (taken = [] ∧ r = {}) ∨ Prevails r taken)
    (hfree : r.new = none ∨ r.new = some c.wish.version ∨ c.wish.forced = true) (old : String) :
    Prevails (r.record old c.wish.version c.wish.source c.wish.forced) (taken ++ [c]) := by
  have hnew : (r.record old c.wish.version c.wish.source c.wish.forced).new =
      some c.wish.version := rfl
  have hsame {version : String} (hr : r.new = some version) (hc : c.wish.forced = false) :
      version = c.wish.version := by
    rw [hr, hc] at hfree
    simpa using hfree
  constructor
  · intro hunforced c' hc'
    rw [Revision.record, Bool.or_eq_false_iff] at hunforced
    rcases List.mem_append.1 hc' with hc' | hc'
    · rcases h with ⟨rfl, -⟩ | h
      · cases hc'
      · rw [hnew, hsame (h.unforced hunforced.1 c' hc') hunforced.2]
    · rw [List.mem_singleton.1 hc', hnew]
  · intro hforced
    cases hc : c.wish.forced with
    | true => exact ⟨c, by simp [hc], hnew⟩
    | false =>
      rw [Revision.record, Bool.or_eq_true, hc] at hforced
      have hr : r.forced = true := hforced.resolve_right Bool.false_ne_true
      rcases h with ⟨-, rfl⟩ | h
      · cases hr
      · obtain ⟨last, hlast, hversion⟩ := h.forced hr
        rw [lastForced_append_of_unforced hc]
        exact ⟨last, hlast, congrArg some (hsame hversion hc).symm⟩

/-- A wish that joins an override does not prevail over it. -/
theorem Prevails.join {r : Revision} {existing : String} (h : Prevails r taken)
    (hforced : r.forced = true) (hnew : r.new = some existing) (hfree : c.wish.forced = false)
    (old : String) :
    Prevails (r.record old existing c.wish.source false) (taken ++ [c]) := by
  constructor
  · intro hunforced
    rw [Revision.record, hforced] at hunforced
    cases hunforced
  · intro _
    obtain ⟨last, hlast, hversion⟩ := h.forced hforced
    rw [lastForced_append_of_unforced hfree]
    exact ⟨last, hlast, hnew.symm.trans hversion⟩

/-- A row that is entered for a proposal that is taken. -/
theorem chronicle_put {r : Revision} (hclean : L.isPurged s = false)
    (haccounts : Accounts F r taken) (hprevails : Prevails r taken) :
    Chronicle F (L.put s r) s taken := by
  have hget : (L.put s r).get? s = some r := by rw [get?_put, if_pos rfl]
  refine ⟨fun hpurged => ?_, fun r' hr' => ?_, fun r' hr' => ?_, fun hnone => ?_⟩
  · rw [isPurged_put, hclean] at hpurged
    cases hpurged
  · rw [hget] at hr'
    exact Option.some.inj hr' ▸ haccounts
  · rw [hget] at hr'
    exact Option.some.inj hr' ▸ hprevails
  · rw [hget] at hnone
    cases hnone

theorem chronicle_purge (F : Forest) (L : Ledger) (s : Scope) (taken : List Proposal) :
    Chronicle F (L.purge s) s taken := by
  have hget : (L.purge s).get? s = none := by rw [get?_purge, if_pos rfl]
  refine ⟨fun _ => hget, fun r hr => ?_, fun r hr => ?_, fun _ => Or.inl ?_⟩
  · rw [hget] at hr
    cases hr
  · rw [hget] at hr
    cases hr
  · exact isPurged_purge.2 (Or.inl rfl)

/-- Entering a wish adds its proposal to the record of the scope if the wish is taken. -/
theorem Chronicle.enter (h : Chronicle F L s taken) (hclean : L.isPurged s = false)
    (hold : F.resolve c.viewer c.value = .ok old) (p : Policy) :
    Chronicle F (L.enter F p s old c.wish).1 s
      (taken ++ if isTaken (L.enter F p s old c.wish).2 = true then [c] else []) := by
  have hrow := h.revisionAt hclean
  have hknown := hrow.imp_right And.left
  rcases enter_cases L F p s old c.wish with
    ⟨hfree, he⟩ | ⟨existing, hnew, -, hfree, ⟨hforced, he⟩ | ⟨-, he⟩⟩
  · rw [he]
    apply chronicle_put hclean
    · exact accounts_record hknown hold _ _
    · exact prevails_record (hrow.imp_right And.right) hfree old
  · have hprevails : Prevails (L.revisionAt s) taken := by
      rcases hrow with ⟨-, hfresh⟩ | hrow
      · rw [hfresh] at hnew
        cases hnew
      · exact hrow.2
    rw [he]
    apply chronicle_put hclean
    · exact accounts_record hknown hold _ _
    · exact hprevails.join hforced hnew hfree old
  · rw [he]
    split
    · simpa [isTaken] using h
    · simpa [isTaken] using chronicle_purge F L s taken

/-- One more proposal, whether it is answered or not. -/
theorem chronicle_propose (h : ∀ s, Chronicle F (proposeAll F p {} calls).1 s (takenAt F p s calls))
    (c : Proposal) (s : Scope) :
    Chronicle F (proposeAll F p {} (calls ++ [c])).1 s (takenAt F p s (calls ++ [c])) := by
  rw [takenAt_append, proposeAll_append]
  cases hscope : c.scope? F with
  | none => simpa [propose_of_scope?_eq_none hscope] using h s
  | some q =>
    rw [propose_eq hscope]
    cases hold : F.resolve c.viewer c.value with
    | error e => simpa [isTaken] using h s
    | ok old =>
      dsimp only
      split
      · simpa [isTaken] using h s
      · rename_i hclean
        rw [Bool.not_eq_true] at hclean
        by_cases hq : q = s
        · subst hq
          simpa using (h q).enter hclean hold p
        · obtain ⟨hget, hpurged⟩ := enter_of_ne hq (proposeAll F p {} calls).1 F p old c.wish
          simpa [hq] using (h s).of_same hget hpurged

theorem chronicle_proposeAll (F : Forest) (p : Policy) (calls : List Proposal) (s : Scope) :
    Chronicle F (proposeAll F p {} calls).1 s (takenAt F p s calls) := by
  induction calls using List.reverseRecOn generalizing s with
  | nil => exact chronicle_empty F s
  | append_singleton calls c ih => exact chronicle_propose ih c s

theorem enter_of_error {w : Wish} {e : AlignError} (h : (L.enter F p s old w).2 = .error e) :
    (L.enter F p s old w).1 = L ∧ L.touch s = L := by
  rcases enter_cases L F p s old w with
    ⟨-, he⟩ | ⟨existing, hnew, -, -, ⟨-, he⟩ | ⟨-, he⟩⟩
  · rw [he] at h
    cases h
  · rw [he] at h
    cases h
  · refine ⟨?_, touch_of_new (by rw [hnew]; simp)⟩
    rw [he] at h ⊢
    split at h
    · rename_i hfatal
      rw [if_pos hfatal]
    · cases h

/-- A proposal that fails leaves the ledger alone. It does not even leave a fresh row for a scope
that it came to. -/
theorem propose_of_error {e : AlignError}
    (h : (L.propose F p c.viewer c.value c.wish).2 = .error e) :
    (L.propose F p c.viewer c.value c.wish).1 = L ∧
      ∀ s old, c.scope? F = some s → F.resolve c.viewer c.value = .ok old → L.touch s = L := by
  cases hscope : c.scope? F with
  | none =>
    rw [propose_of_scope?_eq_none hscope] at h
    cases h
  | some s =>
    rw [propose_eq hscope] at h ⊢
    cases hold : F.resolve c.viewer c.value with
    | error e' => exact ⟨rfl, fun s old _ hok => by cases hok⟩
    | ok old =>
      simp only [hold] at h ⊢
      split at h
      · cases h
      · rename_i hclean
        obtain ⟨hsame, htouch⟩ := enter_of_error h
        rw [if_neg hclean]
        refine ⟨hsame, fun s' old' hs' _ => ?_⟩
        rw [← Option.some.inj hs']
        exact htouch

end Proposing

/-- A user of a property that is to be checked, as seen from a module. -/
structure Check where
  viewer : Nat
  user : Ident
  name : String
deriving DecidableEq, Repr

/-- The ledger after checks made one after another, whatever they say. -/
def verifyAll (F : Forest) (p : Policy) (L : Ledger) (checks : List Check) : Ledger :=
  checks.foldl (fun L c => (L.verify F p c.viewer c.user c.name).1) L

/-- The ledger after proposals made to an empty one, and checks after them. -/
def reached (F : Forest) (p : Policy) (calls : List Proposal) (checks : List Check) : Ledger :=
  verifyAll F p (proposeAll F p {} calls).1 checks

/-- A ledger in which some revisions ask for their old values again, and all else is the same. -/
def RolledBack (L L' : Ledger) : Prop :=
  ∃ back : Revision → Revision, (∀ r, back r = r ∨ back r = { r with new := r.old }) ∧
    L' = { L with modules := L.modules.mapValues (Table.mapValues back) }

section Checking

variable {F : Forest} {p : Policy} {L L' L'' : Ledger} {s : Scope} {taken : List Proposal}

theorem RolledBack.refl (L : Ledger) : RolledBack L L := by
  refine ⟨fun r => r, fun r => Or.inl rfl, ?_⟩
  have hinner : (Table.mapValues fun r => r : Table String Revision → _) = fun t => t :=
    funext Table.mapValues_id
  rw [hinner, Table.mapValues_id]

theorem RolledBack.trans (h : RolledBack L L') (h' : RolledBack L' L'') : RolledBack L L'' := by
  obtain ⟨back, hback, rfl⟩ := h
  obtain ⟨back', hback', rfl⟩ := h'
  refine ⟨fun r => back' (back r), fun r => ?_, ?_⟩
  · dsimp only
    rcases hback r with hr | hr
    · rw [hr]
      exact hback' r
    · have hsame := hback' { r with new := r.old }
      rw [or_self] at hsame
      rw [hr]
      exact Or.inr hsame
  · simp only [Table.mapValues_mapValues]

theorem rolledBack_revertMatching (L : Ledger) (old : String) :
    RolledBack L (L.revertMatching old) := by
  refine ⟨Revision.revertFrom old, fun r => ?_, rfl⟩
  rw [Revision.revertFrom]
  split
  · exact Or.inr rfl
  · exact Or.inl rfl

theorem rolledBack_verify (L : Ledger) (F : Forest) (p : Policy) (c : Check) :
    RolledBack L (L.verify F p c.viewer c.user c.name).1 := by
  rcases L.verify_fst F p c.viewer c.user c.name with hsame | ⟨-, old, hrevert⟩
  · rw [hsame]
    exact RolledBack.refl L
  · rw [hrevert]
    exact rolledBack_revertMatching L old

theorem rolledBack_verifyAll (F : Forest) (p : Policy) (L : Ledger) (checks : List Check) :
    RolledBack L (verifyAll F p L checks) := by
  unfold verifyAll
  apply List.foldlRecOn (motive := RolledBack L) _ _ (RolledBack.refl L)
  intro L' h c _
  exact h.trans (rolledBack_verify L' F p c)

/-- Rolling back changes nothing that a revision knows of the proposals for its scope. -/
theorem Accounts.rolledBack {r : Revision} (h : Accounts F r taken) :
    Accounts F { r with new := r.old } taken := by
  refine ⟨h.old, ?_, h.contributors⟩
  obtain ⟨-, old, -, -, hold⟩ := h.old
  exact ⟨old, hold⟩

theorem RolledBack.isPurged (h : RolledBack L L') (s : Scope) :
    L'.isPurged s = L.isPurged s := by
  obtain ⟨back, -, rfl⟩ := h
  rfl

/-- A row after rolling back is one from before, as it was or with its old value. -/
theorem RolledBack.get? (h : RolledBack L L') (s : Scope) :
    (L'.get? s = none ∧ L.get? s = none) ∨
      ∃ r r', L.get? s = some r ∧ L'.get? s = some r' ∧
        (r' = r ∨ r' = { r with new := r.old }) := by
  obtain ⟨back, hback, rfl⟩ := h
  have hrow : Ledger.get? { L with modules := L.modules.mapValues (Table.mapValues back) } s =
      (L.get? s).map back := by
    simp only [Ledger.get?, revisions?, Table.get?_mapValues]
    cases L.modules.get? s.holder <;> simp [Table.get?_mapValues]
  rw [hrow]
  cases L.get? s with
  | none => exact Or.inl ⟨rfl, rfl⟩
  | some r => exact Or.inr ⟨r, back r, rfl, rfl, hback r⟩

theorem verify_of_error {c : Check} {e : AlignError}
    (h : (L.verify F p c.viewer c.user c.name).2 = .error e) :
    (L.verify F p c.viewer c.user c.name).1 = L := by
  unfold verify at h ⊢
  dsimp only at h ⊢
  split
  · rfl
  · split
    · rfl
    · rename_i hrow
      split
      · rfl
      · split
        · rename_i hpolicy hold
          simp [*] at h
        · rfl
        · rfl

/-- Checks leave a purged scope without a row and bring no other scope to that, and leave what a row
knows of the proposals that were taken. -/
theorem Chronicle.rolledBack (h : Chronicle F L s taken) (hback : RolledBack L L') :
    (L'.isPurged s = true → L'.get? s = none) ∧
      (L'.get? s = none → L'.isPurged s = true ∨ taken = []) ∧
      ∀ r, L'.get? s = some r → Accounts F r taken := by
  rw [hback.isPurged]
  rcases hback.get? s with ⟨hnone, hbefore⟩ | ⟨r, r', hr, hr', hcases⟩
  · refine ⟨fun _ => hnone, fun _ => h.absent hbefore, fun r hr => ?_⟩
    rw [hnone] at hr
    cases hr
  · refine ⟨fun hpurged => ?_, fun hnone => ?_, fun x hx => ?_⟩
    · rw [h.purged hpurged] at hr
      cases hr
    · rw [hr'] at hnone
      cases hnone
    · rw [hr'] at hx
      obtain rfl := Option.some.inj hx
      rcases hcases with rfl | rfl
      · exact h.accounts _ hr
      · exact (h.accounts r hr).rolledBack

/-- Whatever was proposed and checked so far, a purged scope has no row, and any other scope has one
as soon as a proposal for it was taken. A row knows who made the proposals that were taken for its
scope and what the first of them found. Before any check it asks for what these proposals amount
to. A check rolls values back and does nothing else, and a call that fails does nothing at all. -/
theorem ledger_keeps_account (F : Forest) (p : Policy) (calls : List Proposal)
    (checks : List Check) :
    (∀ s, ((reached F p calls checks).isPurged s = true →
          (reached F p calls checks).get? s = none) ∧
        ((reached F p calls checks).get? s = none →
          (reached F p calls checks).isPurged s = true ∨ takenAt F p s calls = []) ∧
        ∀ r, (reached F p calls checks).get? s = some r → Accounts F r (takenAt F p s calls)) ∧
      (∀ s r, (reached F p calls []).get? s = some r → Prevails r (takenAt F p s calls)) ∧
      RolledBack (reached F p calls []) (reached F p calls checks) ∧
      ∀ L : Ledger,
        (∀ c : Check, RolledBack L (L.verify F p c.viewer c.user c.name).1 ∧
          ∀ e, (L.verify F p c.viewer c.user c.name).2 = .error e →
            (L.verify F p c.viewer c.user c.name).1 = L) ∧
        ∀ (c : Proposal) (e : AlignError),
          (L.propose F p c.viewer c.value c.wish).2 = .error e →
            (L.propose F p c.viewer c.value c.wish).1 = L ∧
              ∀ s old, c.scope? F = some s → F.resolve c.viewer c.value = .ok old →
                L.touch s = L := by
  have hback := rolledBack_verifyAll F p (proposeAll F p {} calls).1 checks
  refine ⟨fun s => ?_, fun s => ?_, hback, fun L => ⟨fun c => ?_, fun c e => propose_of_error⟩⟩
  · exact (chronicle_proposeAll F p calls s).rolledBack hback
  · exact (chronicle_proposeAll F p calls s).prevails
  · exact ⟨rolledBack_verify L F p c, fun e => verify_of_error⟩

example : (takenAt siblings tolerantOfClashes ⟨0, "shared"⟩
    (sharedByBoth (wishFor "a" "2.0" true) (wishFor "b" "3.0" false))).map
      (fun c => c.wish.source.artifact) = ["a", "b"] := by
  decide +kernel

end Checking

end Ledger
end Realign
