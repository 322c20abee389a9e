import Realign.Alignment.Proposal
import Realign.Proofs.Lists

/-!
Rows of the ledger and the revisions that are pending. A scope has one row at most, so the
pending revisions have distinct scopes. Rolling revisions back takes some of them out and
brings no other about.
-/
namespace Realign

theorem Revision.mem_contributors_record {r : Revision} {old new : String} {contributor x : Ident}
    {forced : Bool} :
    x ∈ (r.record old new contributor forced).contributors ↔
      x ∈ r.contributors ∨ x = contributor := by
  unfold Revision.record
  dsimp only
  split
  · rename_i h
    constructor
    · exact Or.inl
    · intro hx
      rcases hx with hx | rfl
      · exact hx
      · exact h
  · rw [List.mem_append, List.mem_singleton]

namespace Ledger

variable {L : Ledger} {s : Scope} {r : Revision} {q : PendingRevision}

theorem mem_rows : (s, r) ∈ L.rows ↔ L.get? s = some r := by
  obtain ⟨holder, property⟩ := s
  rw [rows, get?, revisions?, Option.bind_eq_some_iff, List.mem_flatMap]
  constructor
  · intro h
    obtain ⟨⟨holder', revisions⟩, hm, hmem⟩ := h
    obtain ⟨⟨property', r'⟩, hr, he⟩ := List.mem_map.1 hmem
    simp only [Prod.mk.injEq, Scope.mk.injEq] at he
    obtain ⟨⟨rfl, rfl⟩, rfl⟩ := he
    exact ⟨revisions, Table.get?_eq_some.2 hm, Table.get?_eq_some.2 hr⟩
  · intro h
    obtain ⟨revisions, hm, hr⟩ := h
    refine ⟨(holder, revisions), Table.get?_eq_some.1 hm, ?_⟩
    exact List.mem_map.2 ⟨(property, r), Table.get?_eq_some.1 hr, rfl⟩

/-- No scope has two rows. -/
theorem nodup_rows (L : Ledger) : (L.rows.map Prod.fst).Nodup := by
  rw [rows, List.map_flatMap]
  apply nodup_flatMap_of_key Scope.holder Prod.fst _ _ L.modules.nodup
  · intro row _ scope hs
    obtain ⟨_, hrow, rfl⟩ := List.mem_map.1 hs
    obtain ⟨_, -, rfl⟩ := List.mem_map.1 hrow
    rfl
  · intro row _
    obtain ⟨holder, revisions⟩ := row
    have hmap : revisions.rows.map (Prod.fst ∘ fun row => ((⟨holder, row.1⟩ : Scope), row.2)) =
        (revisions.rows.map Prod.fst).map (Scope.mk holder) := by
      rw [List.map_map]
      rfl
    rw [List.map_map, hmap]
    exact revisions.nodup.map fun a b hab => (Scope.mk.inj hab).2

theorem pendingOf_eq_some :
    pendingOf s r = some q ↔ r.isReverted = false ∧ q.scope = s ∧ r.old = some q.old ∧
      r.new = some q.new ∧ r.forced = q.forced := by
  obtain ⟨scope, old, new, forced⟩ := q
  unfold pendingOf
  cases hr : r.isReverted
  · cases r.old <;> cases r.new <;> simp [eq_comm]
  · simp

theorem mem_pending :
    q ∈ L.pending ↔ ∃ r, L.get? q.scope = some r ∧ pendingOf q.scope r = some q := by
  rw [pending, List.mem_filterMap]
  constructor
  · intro h
    obtain ⟨⟨s, r⟩, hr, hq⟩ := h
    obtain rfl := (pendingOf_eq_some.1 hq).2.1
    exact ⟨r, mem_rows.1 hr, hq⟩
  · intro h
    obtain ⟨r, hr, hq⟩ := h
    exact ⟨(q.scope, r), mem_rows.2 hr, hq⟩

/-- A row that asks for a change is pending. -/
theorem mem_pending_of_get? {old new : String} (h : L.get? s = some r)
    (hrev : r.isReverted = false) (hold : r.old = some old) (hnew : r.new = some new) :
    ⟨s, old, new, r.forced⟩ ∈ L.pending := by
  apply mem_pending.2
  refine ⟨r, h, ?_⟩
  apply pendingOf_eq_some.2
  exact ⟨hrev, rfl, hold, hnew, rfl⟩

/-- Nothing is pending for a scope that keeps its value. -/
theorem not_mem_pending_of_isReverted (h : L.get? s = some r) (hrev : r.isReverted = true) :
    s ∉ L.pending.map PendingRevision.scope := by
  intro hmem
  obtain ⟨q, hq, hscope⟩ := List.mem_map.1 hmem
  obtain ⟨r', hr', hpending⟩ := mem_pending.1 hq
  rw [hscope, h] at hr'
  obtain rfl := Option.some.inj hr'
  rw [(pendingOf_eq_some.1 hpending).1] at hrev
  cases hrev

/-- No two revisions are pending for one scope. -/
theorem nodup_pending (L : Ledger) : (L.pending.map PendingRevision.scope).Nodup := by
  have hrows := L.nodup_rows
  rw [List.Nodup, List.pairwise_map] at hrows ⊢
  apply hrows.filterMap
  intro row row' hne q hq q' hq'
  rw [(pendingOf_eq_some.1 hq).2.1, (pendingOf_eq_some.1 hq').2.1]
  exact hne

/-- Rolling back takes out what started from the value and nothing else. -/
theorem mem_pending_revertMatching {old : String} :
    q ∈ (L.revertMatching old).pending ↔ q ∈ L.pending ∧ q.old ≠ old := by
  simp only [mem_pending, get?_revertMatching, Option.map_eq_some_iff]
  constructor
  · intro h
    obtain ⟨_, ⟨r, hr, rfl⟩, hq⟩ := h
    rw [Revision.revertFrom] at hq
    split at hq
    · rename_i ho
      have hrev := (pendingOf_eq_some.1 hq).1
      simp [Revision.isReverted, Revision.revert, ho] at hrev
    · rename_i ho
      refine ⟨⟨r, hr, hq⟩, fun he => ho ?_⟩
      rw [(pendingOf_eq_some.1 hq).2.2.1, he]
  · intro h
    obtain ⟨⟨r, hr, hq⟩, hne⟩ := h
    refine ⟨r, ⟨r, hr, ?_⟩, hq⟩
    rw [Revision.revertFrom, if_neg]
    rw [(pendingOf_eq_some.1 hq).2.2.1]
    simpa using hne

theorem verify_fst (L : Ledger) (F : Forest) (p : Policy) (i : Nat) (user : Ident) (name : String) :
    (L.verify F p i user name).1 = L ∨
      p.strictPropertyValidation = .revert ∧
        ∃ old, (L.verify F p i user name).1 = L.revertMatching old := by
  unfold verify
  split
  · exact Or.inl rfl
  · dsimp only
    cases L.get? (F.declaringScope i name) with
    | none => exact Or.inl rfl
    | some r =>
      dsimp only
      split
      · exact Or.inl rfl
      · split
        · rename_i old hv _
          exact Or.inr ⟨hv, old, rfl⟩
        · exact Or.inl rfl
        · exact Or.inl rfl

end Ledger
end Realign
