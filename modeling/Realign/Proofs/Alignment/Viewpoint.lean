import Realign.Proofs.Alignment.CarryOut
import Realign.Proofs.Property.Landing

/-!
An update by way of the ledger and a direct one. Both come to the value that the scope of a name
declares. The direct update looks at it from the module that refers to the name; a revision is
carried out at the scope, and looks at it from there. For a literal value that is all the
same, but what a compound value resolves to depends on the names that the module overrides. The
two agree as long as that makes no difference to the strict check and to what is written.
-/
namespace Realign

namespace Placeholder

variable {value : String}

theorem occursIn_of_isCompound (h : isCompound value = true) : occursIn value = true := by
  rw [isCompound, Bool.and_eq_true] at h
  exact h.1

theorem bare?_of_isCompound (h : isCompound value = true) : bare? value = none := by
  rw [isCompound, Bool.and_eq_true] at h
  exact Option.isNone_iff_eq_none.1 h.2

theorem isCompound_of_bare? {name : String} (h : bare? value = some name) :
    isCompound value = false := by
  rw [isCompound, h, Option.isNone_some, Bool.and_false]

theorem occursIn_append (h : occursIn value = true) (tail : String) :
    occursIn (value ++ tail) = true := by
  rw [occursIn, Text.hasWord_eq_true_iff] at h ⊢
  rw [String.toList_append]
  exact h.trans (List.prefix_append _ _).isInfix

end Placeholder

namespace UpdateRequest

variable {r : UpdateRequest} {name declared text text' left : String} {written : Option String}

theorem not_refuses_value (r : UpdateRequest) : r.refuses r.value = false := by
  simp [refuses, Strict.compatible, Strict.compatibleChars]

/-- Two texts that a compound value resolves to, for the one module and for the other, come to the
same: the first one stands for the request as it is made, the second as it is carried out. -/
inductive TreatsAlike (r : UpdateRequest) (text text' : String) : Prop where
  | same (equal : text' = text)
  | refused (here : r.refuses text = true) (there : r.refuses text' = true)
  | tolerated (here : r.refuses text = true) (there : text' = r.value)
      (lax : r.policy.strictViolationFails = false)
  | replaced (here : r.refuses text = false) (there : r.refuses text' = false)
      (apart : ¬ text.toList <+: r.value.toList) (apart' : ¬ text'.toList <+: r.value.toList)

/-- What the request leaves in place of a compound value: the value as it was, with the rest of the
new value behind it, or the new value. -/
inductive Leaves (r : UpdateRequest) (declared text left : String) : Prop where
  | kept (refused : r.refuses text = true) (equal : left = declared)
  | extended (tail : List Char) (accepted : r.refuses text = false)
      (more : r.value.toList = text.toList ++ tail) (equal : left = declared ++ String.ofList tail)
  | replaced (accepted : r.refuses text = false) (apart : ¬ text.toList <+: r.value.toList)
      (equal : left = r.value)

theorem leaves_of_written? (hc : Placeholder.isCompound declared = true)
    (h : r.written? name declared text = .ok written) :
    r.Leaves declared text (written.getD declared) := by
  rcases written?_eq_ok h with ⟨hrefused, rfl⟩ | ⟨haccepted, ⟨-, tail, hmore, rfl⟩ | ⟨happart, rfl⟩⟩
  · exact .kept hrefused rfl
  · exact .extended tail haccepted hmore rfl
  · exact .replaced haccepted (happart hc) rfl

/-- An unforced request for a compound value fails when the strict check stands against it and
violations are fatal, and never else. -/
theorem written?_eq_error (hforce : r.bypassStrict = false) (name declared text : String) :
    (∃ e, r.written? name declared text = .error e) ↔
      r.refuses text = true ∧ r.policy.strictViolationFails = true := by
  unfold written?
  rw [← refuses, hforce]
  cases r.refuses text with
  | true => cases r.policy.strictViolationFails <;> simp
  | false =>
    simp only [Bool.false_eq_true, if_false, false_and, iff_false, not_exists]
    intro e
    split
    · cases Text.strip? text.toList r.value.toList <;> simp
    · simp

theorem not_fatal_of_written? (hforce : r.bypassStrict = false)
    (h : r.written? name declared text = .ok written) :
    ¬ (r.refuses text = true ∧ r.policy.strictViolationFails = true) := by
  rw [← written?_eq_error hforce name declared text, h]
  simp

theorem append_ofList_ne (hne : text ≠ r.value) {tail : List Char}
    (hmore : r.value.toList = text.toList ++ tail) : declared ++ String.ofList tail ≠ declared := by
  intro he
  have hlist := congrArg String.toList he
  rw [String.toList_append, String.toList_ofList] at hlist
  obtain rfl : tail = [] := by simpa using hlist
  rw [List.append_nil, String.toList_inj] at hmore
  exact hne hmore.symm

section Leaves

variable (hc : Placeholder.isCompound declared = true)
  (hnew : Placeholder.occursIn r.value = false) (hne : text ≠ r.value)

include hc hnew

theorem Leaves.literal_iff (h : r.Leaves declared text left) :
    Placeholder.occursIn left = false ↔
      r.refuses text = false ∧ ¬ text.toList <+: r.value.toList := by
  have hoccurs := Placeholder.occursIn_of_isCompound hc
  cases h with
  | kept refused equal =>
    rw [equal, hoccurs, refused]
    simp
  | extended tail accepted more equal =>
    rw [equal, Placeholder.occursIn_append hoccurs]
    simp [more]
  | replaced accepted apart equal =>
    rw [equal]
    exact iff_of_true hnew ⟨accepted, apart⟩

include hne

theorem Leaves.eq_declared_iff (h : r.Leaves declared text left) :
    left = declared ↔ r.refuses text = true := by
  cases h with
  | kept refused equal => exact iff_of_true equal refused
  | extended tail accepted more equal =>
    rw [equal, accepted]
    exact iff_of_false (append_ofList_ne hne more) Bool.false_ne_true
  | replaced accepted apart equal =>
    rw [equal, accepted]
    refine iff_of_false (fun he => ?_) Bool.false_ne_true
    rw [he, Placeholder.occursIn_of_isCompound hc] at hnew
    cases hnew

/-- What is left in place of a compound value tells how the request for it was treated. -/
theorem TreatsAlike.of_leaves (hne' : text' ≠ r.value) (h : r.Leaves declared text left)
    (h' : r.Leaves declared text' left) : r.TreatsAlike text text' := by
  have hkept := h.eq_declared_iff hc hnew hne
  have hkept' := h'.eq_declared_iff hc hnew hne'
  have hliteral := h.literal_iff hc hnew
  have hliteral' := h'.literal_iff hc hnew
  by_cases hleft : left = declared
  · exact .refused (hkept.1 hleft) (hkept'.1 hleft)
  by_cases hlit : Placeholder.occursIn left = false
  · obtain ⟨haccepted, hapart⟩ := hliteral.1 hlit
    obtain ⟨haccepted', hapart'⟩ := hliteral'.1 hlit
    exact .replaced haccepted haccepted' hapart hapart'
  -- otherwise something was put behind the value both times
  have hextended {text : String} (h : r.Leaves declared text left) : ∃ tail,
      r.value.toList = text.toList ++ tail ∧ left = declared ++ String.ofList tail := by
    rcases h with ⟨-, he⟩ | ⟨tail, -, hmore, he⟩ | ⟨-, -, he⟩
    · exact absurd he hleft
    · exact ⟨tail, hmore, he⟩
    · exact absurd (he ▸ hnew) hlit
  obtain ⟨tail, hmore, he⟩ := hextended h
  obtain ⟨tail', hmore', he'⟩ := hextended h'
  rw [he, String.append_right_inj, String.ofList_inj] at he'
  rw [hmore, he', List.append_left_inj, String.toList_inj] at hmore'
  exact .same hmore'.symm

end Leaves

section Treated

variable {written' : Option String}

theorem written_eq_none (hrefused : r.refuses text = true)
    (h : r.written? name declared text = .ok written) : written = none := by
  rcases written?_eq_ok h with ⟨-, hnone⟩ | ⟨haccepted, -⟩
  · exact hnone
  · rw [haccepted] at hrefused
    cases hrefused

theorem written_eq_value (haccepted : r.refuses text = false)
    (hapart : ¬ text.toList <+: r.value.toList)
    (h : r.written? name declared text = .ok written) : written = some r.value := by
  rcases written?_eq_ok h with ⟨hrefused, -⟩ | ⟨-, ⟨-, tail, hmore, -⟩ | ⟨-, hvalue⟩⟩
  · rw [haccepted] at hrefused
    cases hrefused
  · exact absurd ⟨tail, hmore.symm⟩ hapart
  · exact hvalue

theorem treatsAlike_value_iff (hne : text ≠ r.value) :
    r.TreatsAlike text r.value ↔
      r.refuses text = true ∧ r.policy.strictViolationFails = false := by
  constructor
  · intro h
    cases h with
    | same equal => exact absurd equal.symm hne
    | refused here there =>
      rw [r.not_refuses_value] at there
      cases there
    | tolerated here there lax => exact ⟨here, lax⟩
    | replaced here there apart apart' => exact absurd (List.prefix_refl _) apart'
  · intro h
    exact .tolerated h.1 rfl h.2

theorem TreatsAlike.refuses_eq (h : r.TreatsAlike text text') (hne' : text' ≠ r.value) :
    r.refuses text' = r.refuses text := by
  cases h with
  | same equal => rw [equal]
  | refused here there => rw [here, there]
  | tolerated here there lax => exact absurd there hne'
  | replaced here there apart apart' => rw [here, there]

theorem TreatsAlike.written_eq (h : r.TreatsAlike text text') (hne' : text' ≠ r.value)
    (hw : r.written? name declared text = .ok written)
    (hw' : r.written? name declared text' = .ok written') : written' = written := by
  cases h with
  | same equal =>
    rw [equal, hw] at hw'
    exact (Except.ok.inj hw').symm
  | refused here there => rw [written_eq_none here hw, written_eq_none there hw']
  | tolerated here there lax => exact absurd there hne'
  | replaced here there apart apart' =>
    rw [written_eq_value here apart hw, written_eq_value there apart' hw']

end Treated

end UpdateRequest

namespace Forest

variable {F : Forest} {i j : Nat} {r : UpdateRequest} {name text text' : String} {d : Declaration}
  {written written' : Option String}

/-- The one update fails if and only if the other one does, and when neither fails both end in the
same forest. -/
structure SameResult (x y : Forest × Except AlignError UpdateOutcome) : Prop where
  through : (∃ outcome, x.2 = .ok outcome) ↔ ∃ outcome, y.2 = .ok outcome
  forests : (∃ outcome, x.2 = .ok outcome) → x.1 = y.1

theorem SameResult.refl (x : Forest × Except AlignError UpdateOutcome) : SameResult x x :=
  ⟨Iff.rfl, fun _ => rfl⟩

section Results

variable {G : Forest} {e e' : AlignError} {outcome outcome' : UpdateOutcome}

theorem sameResult_of_errors : SameResult (F, .error e) (G, .error e') :=
  ⟨by simp, by simp⟩

theorem not_sameResult_error_ok : ¬ SameResult (F, .error e) (G, .ok outcome) :=
  fun h => by simpa using h.through

theorem not_sameResult_ok_error : ¬ SameResult (F, .ok outcome) (G, .error e) :=
  fun h => by simpa using h.through

theorem sameResult_ok_iff : SameResult (F, .ok outcome) (G, .ok outcome') ↔ F = G :=
  ⟨fun h => h.forests ⟨_, rfl⟩, fun h => ⟨by simp, fun _ => h⟩⟩

end Results

theorem getD_eq_of_rewrite (hd : F.declaration? i name = some d)
    (h : F.rewrite d name written' = F.rewrite d name written) :
    written'.getD d.value = written.getD d.value := by
  have hsame := declaration?_rewrite hd written'
  rw [h, declaration?_rewrite hd written] at hsame
  exact (congrArg Declaration.value (Option.some.inj hsame)).symm

section Compound

variable (hd : F.declaration? i name = some d) (hc : Placeholder.isCompound d.value = true)
  (hnew : Placeholder.occursIn r.value = false) (hforce : r.bypassStrict = false)
  (hne : text ≠ r.value)

include hd hc hnew hforce hne

/-- A compound value that stands for the new value there is left alone. -/
theorem sameResult_ignored_iff :
    SameResult (F, .ok .ignored) (F.overwrite r d name text) ↔ r.TreatsAlike text r.value := by
  rw [UpdateRequest.treatsAlike_value_iff hne, overwrite]
  cases hw : r.written? name d.value text with
  | error e =>
    have hfatal := (UpdateRequest.written?_eq_error hforce name d.value text).1 ⟨e, hw⟩
    exact iff_of_false not_sameResult_ok_error (by simp [hfatal.2])
  | ok written =>
    rw [sameResult_ok_iff]
    constructor
    · intro hsame
      have hkept : F.rewrite d name none = F.rewrite d name written := hsame
      have hleft := getD_eq_of_rewrite hd hkept
      have hleaves := UpdateRequest.leaves_of_written? hc hw
      have hrefused := (hleaves.eq_declared_iff hc hnew hne).1 hleft.symm
      have hlax := UpdateRequest.not_fatal_of_written? hforce hw
      exact ⟨hrefused, by simpa [hrefused] using hlax⟩
    · intro h
      rw [UpdateRequest.written_eq_none h.1 hw]
      rfl

/-- Where it stands for something else there as well, it is written over both times. -/
theorem sameResult_overwrite_iff (hne' : text' ≠ r.value) :
    SameResult (F.overwrite r d name text') (F.overwrite r d name text) ↔
      r.TreatsAlike text text' := by
  have hfault := UpdateRequest.written?_eq_error hforce name d.value
  rw [overwrite, overwrite]
  cases hw' : r.written? name d.value text' with
  | error e' =>
    have hfatal' := (hfault text').1 ⟨e', hw'⟩
    cases hw : r.written? name d.value text with
    | error e =>
      have hfatal := (hfault text).1 ⟨e, hw⟩
      exact iff_of_true sameResult_of_errors (.refused hfatal.1 hfatal'.1)
    | ok written =>
      refine iff_of_false not_sameResult_error_ok fun h => ?_
      rw [h.refuses_eq hne'] at hfatal'
      exact UpdateRequest.not_fatal_of_written? hforce hw hfatal'
  | ok written' =>
    cases hw : r.written? name d.value text with
    | error e =>
      have hfatal := (hfault text).1 ⟨e, hw⟩
      refine iff_of_false not_sameResult_ok_error fun h => ?_
      rw [← h.refuses_eq hne'] at hfatal
      exact UpdateRequest.not_fatal_of_written? hforce hw' hfatal
    | ok written =>
      rw [sameResult_ok_iff]
      constructor
      · intro hsame
        have hleaves := UpdateRequest.leaves_of_written? hc hw
        have hleaves' := UpdateRequest.leaves_of_written? hc hw'
        rw [getD_eq_of_rewrite hd hsame] at hleaves'
        exact .of_leaves hc hnew hne hne' hleaves hleaves'
      · intro h
        rw [h.written_eq hne' hw hw']

end Compound

/-- What is declared comes to the same when it is looked at from this module as where it stands for
the text: a reference or a literal value if it resolves at all, a compound value if the request
treats both texts alike, or fails for the one where the other does not resolve. -/
inductive SeenAlike (F : Forest) (j : Nat) (r : UpdateRequest) (d : Declaration) (text : String) :
    Prop where
  | resolved (text' : String) (resolves : F.resolve j d.value = .ok text')
      (alike : Placeholder.isCompound d.value = true → r.TreatsAlike text text')
  | failed (unresolved : ∀ text', F.resolve j d.value ≠ .ok text')
      (compound : Placeholder.isCompound d.value = true) (refused : r.refuses text = true)
      (fatal : r.policy.strictViolationFails = true)

theorem seenAlike_iff_of_resolve (h : F.resolve j d.value = .ok text') :
    F.SeenAlike j r d text ↔
      (Placeholder.isCompound d.value = true → r.TreatsAlike text text') := by
  refine ⟨fun hseen => ?_, .resolved text' h⟩
  cases hseen with
  | resolved text'' resolves alike =>
    rw [h] at resolves
    exact Except.ok.inj resolves ▸ alike
  | failed unresolved compound refused fatal => exact absurd h (unresolved text')

theorem seenAlike_iff_of_unresolved (h : ∀ text', F.resolve j d.value ≠ .ok text') :
    F.SeenAlike j r d text ↔ Placeholder.isCompound d.value = true ∧ r.refuses text = true ∧
      r.policy.strictViolationFails = true := by
  refine ⟨fun hseen => ?_, fun hfails => .failed h hfails.1 hfails.2.1 hfails.2.2⟩
  cases hseen with
  | resolved text' resolves alike => exact absurd resolves (h text')
  | failed unresolved compound refused fatal => exact ⟨compound, refused, fatal⟩

section Scope

variable (hF : F.NoFieldNames) (hname : Placeholder.isName name.toList = true)
  (hd : F.declaration? i name = some d)
  (hr : F.resolve i (Placeholder.spell name) = .ok text) (hne : text ≠ r.value)

include hF hname hd

theorem update_holder_of_unresolved (h : ∀ text', F.resolve d.holder d.value ≠ .ok text') :
    ∃ e, F.update d.holder r name = (F, .error e) := by
  cases hr' : F.resolve d.holder (Placeholder.spell name) with
  | error e => exact ⟨_, update_of_unresolved (ne_moduleVersionName hF hd) hr'⟩
  | ok text' =>
    exact absurd ((resolve_spell_iff hF hname (declaration?_holder hd).2).1 hr') (h text')

include hr

theorem sameResult_literal_iff (hlit : Placeholder.occursIn d.value = false) :
    SameResult (F.update d.holder r name) (F.update i r name) ↔ F.SeenAlike d.holder r d text := by
  have hb := Placeholder.bare?_of_not_occursIn hlit
  have hv := ne_moduleVersionName hF hd
  have hdown := (declaration?_holder hd).2
  have hvalue : F.resolve d.holder d.value = .ok d.value := (resolve_literal_iff hlit).2 rfl
  have htext := (resolve_literal_iff hlit).1 ((resolve_spell_iff hF hname hd).1 hr)
  have hr' : F.resolve d.holder (Placeholder.spell name) = .ok text := by
    rw [htext]
    exact (resolve_spell_iff hF hname hdown).2 hvalue
  rw [update_of_plain hv hr hd hb, update_of_plain hv hr' hdown hb,
    seenAlike_iff_of_resolve hvalue, Placeholder.isCompound_of_not_occursIn hlit]
  exact iff_of_true (.refl _) (by simp)

include hne

theorem sameResult_bare_iff (hends : F.EndsAt i d) {other : String}
    (hb : Placeholder.bare? d.value = some other) :
    SameResult (F.update d.holder r name) (F.update i r name) ↔ F.SeenAlike d.holder r d text := by
  have hdown := (declaration?_holder hd).2
  have hsimple := Placeholder.isCompound_of_bare? hb
  -- from the module itself the reference ends without a fault
  have hdirect : ∃ outcome, F.update i r name = (F, .ok outcome) := by
    have hstep : F.Refers i name other := ⟨d, hd, hb⟩
    have hundeclared : F.declaration? i other = none := by
      rcases hends other hb with rfl | hnone
      · exact declaration?_moduleVersionName hF i
      · exact hnone
    rw [update_of_leads hF hname hr hne (.single hstep)]
    have hother := (hstep.resolve_iff hF hname text).1 hr
    exact updateFollowing_ok_of_unfollowed (Or.inr hundeclared) hother r _
  obtain ⟨outcome, hdirect⟩ := hdirect
  rw [hdirect]
  by_cases hex : ∃ text', F.resolve d.holder d.value = .ok text'
  · obtain ⟨text', hvalue⟩ := hex
    have hr' := (resolve_spell_iff hF hname hdown).2 hvalue
    have hs := settled_holder hname hd hends
    obtain ⟨outcome', hscope⟩ := update_ok_of_bare hs hF r hdown hb hr'
    rw [hscope, seenAlike_iff_of_resolve hvalue, hsimple]
    exact iff_of_true (sameResult_ok_iff.2 rfl) (by simp)
  · rw [not_exists] at hex
    obtain ⟨e, hscope⟩ := update_holder_of_unresolved (r := r) hF hname hd hex
    rw [hscope, seenAlike_iff_of_unresolved hex, hsimple]
    exact iff_of_false not_sameResult_error_ok (by simp)

theorem sameResult_compound_iff (hc : Placeholder.isCompound d.value = true)
    (hnew : Placeholder.occursIn r.value = false) (hforce : r.bypassStrict = false) :
    SameResult (F.update d.holder r name) (F.update i r name) ↔ F.SeenAlike d.holder r d text := by
  have hb := Placeholder.bare?_of_isCompound hc
  have hv := ne_moduleVersionName hF hd
  have hdown := (declaration?_holder hd).2
  rw [update_of_plain (i := i) hv hr hd hb, if_neg hne]
  by_cases hex : ∃ text', F.resolve d.holder d.value = .ok text'
  · obtain ⟨text', hvalue⟩ := hex
    have hr' := (resolve_spell_iff hF hname hdown).2 hvalue
    rw [update_of_plain hv hr' hdown hb, seenAlike_iff_of_resolve hvalue, hc, eq_self,
      true_imp_iff]
    split
    · rename_i he
      rw [he]
      exact sameResult_ignored_iff hd hc hnew hforce hne
    · rename_i hne'
      exact sameResult_overwrite_iff hd hc hnew hforce hne hne'
  · rw [not_exists] at hex
    obtain ⟨e, hscope⟩ := update_holder_of_unresolved (r := r) hF hname hd hex
    rw [hscope, seenAlike_iff_of_unresolved hex, hc, eq_self, true_and, overwrite]
    cases hw : r.written? name d.value text with
    | error e' =>
      have hfatal := (UpdateRequest.written?_eq_error hforce name d.value text).1 ⟨e', hw⟩
      exact iff_of_true sameResult_of_errors hfatal
    | ok written =>
      have hlax := UpdateRequest.not_fatal_of_written? hforce hw
      exact iff_of_false not_sameResult_error_ok hlax

end Scope

/-- What the scope of a name declares comes to the same, looked at from the module of the scope or
from the one that refers to the name, unless the name stands for the new value already. -/
def AlikeAtScope (F : Forest) (i : Nat) (r : UpdateRequest) (name : String) : Prop :=
  ∀ text d, F.resolve i (Placeholder.spell name) = .ok text → text ≠ r.value →
    F.declaration? (F.declaringScope i name).holder (F.declaringScope i name).property = some d →
    F.SeenAlike (F.declaringScope i name).holder r d text

/-- It does, if the scope resolves its property as the module resolves the name. -/
theorem alikeAtScope_of_resolve (hF : F.NoFieldNames)
    (hname : Placeholder.isName name.toList = true)
    (h : ∀ text, F.resolve i (Placeholder.spell name) = .ok text →
      F.resolve (F.declaringScope i name).holder
        (Placeholder.spell (F.declaringScope i name).property) = .ok text) :
    F.AlikeAtScope i r name := by
  intro text d hr _ hd
  have hs := settled_declaringScope hF hname hr
  exact .resolved text ((resolve_spell_iff hF hs.name hd).1 (h text hr)) fun _ => .same rfl

/-- An update at the scope of a name, compared with one from the module that refers to it. -/
theorem sameResult_declaringScope_iff (hF : F.NoFieldNames)
    (hname : Placeholder.isName name.toList = true)
    (hr : F.resolve i (Placeholder.spell name) = .ok text) (hne : text ≠ r.value)
    (hnew : Placeholder.occursIn r.value = false) (hforce : r.bypassStrict = false) :
    SameResult (F.update (F.declaringScope i name).holder r (F.declaringScope i name).property)
      (F.update i r name) ↔ F.AlikeAtScope i r name := by
  have hscope : F.AlikeAtScope i r name ↔
      ∀ d, F.declaration? (F.declaringScope i name).holder (F.declaringScope i name).property =
        some d → F.SeenAlike (F.declaringScope i name).holder r d text := by
    refine ⟨fun h d => h text d hr hne, fun h text' d hr' _ hd => ?_⟩
    rw [hr] at hr'
    exact Except.ok.inj hr' ▸ h d hd
  rw [hscope]
  rcases declaringScope_eq hF hname hr with ⟨hd, hs⟩ | ⟨last, d, hl, hd, hends, hs⟩
  · rw [hs]
    apply iff_of_true (.refl _)
    intro d hd'
    rw [hd] at hd'
    cases hd'
  · rw [hs, update_of_leads hF hname hr hne hl, (declaration?_holder hd).2]
    have hlast := hl.isName hname
    have hrlast := (hl.resolve_iff hF hname text).1 hr
    have hiff : SameResult (F.update d.holder r last) (F.update i r last) ↔
        F.SeenAlike d.holder r d text := by
      cases hb : Placeholder.bare? d.value with
      | some other => exact sameResult_bare_iff hF hlast hd hrlast hne hends hb
      | none =>
        cases hlit : Placeholder.occursIn d.value with
        | false => exact sameResult_literal_iff hF hlast hd hrlast hlit
        | true =>
          have hc : Placeholder.isCompound d.value = true := by
            simp [Placeholder.isCompound, hlit, hb]
          exact sameResult_compound_iff hF hlast hd hrlast hne hc hnew hforce
    simpa using hiff

end Forest

namespace Ledger

/-- What is pending after one wish: the wish, unless it asks for what is there. -/
theorem pending_put_empty (s : Scope) (old version : String) (source : Ident) :
    (({} : Ledger).put s (({} : Revision).record old version source false)).pending =
      if old = version then [] else [⟨s, old, version, false⟩] := by
  have hrows : (({} : Ledger).put s (({} : Revision).record old version source false)).rows =
      [(s, ⟨some old, some version, [source], false⟩)] := rfl
  rw [pending, hrows]
  by_cases h : old = version
  · simp [pendingOf, Revision.isReverted, h]
  · simp [pendingOf, Revision.isReverted, h]

end Ledger

namespace Alignment

variable {plan : Plan} {F : Forest} {i : Nat} {ident : Ident} {name version text : String}

/-- An update by way of the ledger, as a pass makes it: a wish for the property behind a value is
entered in an empty ledger, and what is pending then is carried out. -/
def updateByLedger (plan : Plan) (F : Forest) (i : Nat) (ident : Ident) (value version : String) :
    Outcome :=
  proposeFor plan ⟨F, {}, {}⟩ i ident value ⟨version, false⟩
    |> Walk.andThen fun s => Walk.untilFault (carryOut plan) s.ledger.pending s

/-- The one fails if and only if the other does, and when neither fails both end in the same
forest. -/
structure Agrees (x : Outcome) (y : Forest × Except AlignError UpdateOutcome) : Prop where
  through : x.2 = none ↔ ∃ outcome, y.2 = .ok outcome
  forests : x.2 = none → x.1.forest = y.1

theorem agrees_carryOut_iff {s : State} {q : PendingRevision}
    {y : Forest × Except AlignError UpdateOutcome} :
    Agrees (carryOut plan s q) y ↔ Forest.SameResult
      (s.forest.update q.scope.holder (request plan q) q.scope.property) y := by
  constructor
  · intro h
    refine ⟨carryOut_eq_none.symm.trans h.through, fun hok => ?_⟩
    rw [← carryOut_forest]
    exact h.forests (carryOut_eq_none.2 hok)
  · intro h
    refine ⟨carryOut_eq_none.trans h.through, fun hnone => ?_⟩
    rw [carryOut_forest]
    exact h.forests (carryOut_eq_none.1 hnone)

section Ledger

variable (hname : Placeholder.isName name.toList = true) (hne : name ≠ moduleVersionName)

include hname hne

theorem updateByLedger_of_unresolved {e : ResolveError}
    (hr : F.resolve i (Placeholder.spell name) = .error e) :
    updateByLedger plan F i ident (Placeholder.spell name) version =
      (⟨F, {}, {}⟩, some (.resolve e)) := by
  have hb := Placeholder.bare?_eq_some.2 ⟨rfl, hname⟩
  simp [updateByLedger, proposeFor, Ledger.propose, hb, hne, hr, Walk.andThen]

theorem updateByLedger_of_resolve (hr : F.resolve i (Placeholder.spell name) = .ok text)
    (plan : Plan) (ident : Ident) (version : String) :
    ∃ ledger, updateByLedger plan F i ident (Placeholder.spell name) version =
      if text = version then (⟨F, ledger, {}⟩, none)
      else carryOut plan ⟨F, ledger, {}⟩ ⟨F.declaringScope i name, text, version, false⟩ := by
  have hb := Placeholder.bare?_eq_some.2 ⟨rfl, hname⟩
  have hwish : proposeFor plan ⟨F, {}, {}⟩ i ident (Placeholder.spell name) ⟨version, false⟩ =
      (⟨F, ({} : Ledger).put (F.declaringScope i name)
        (({} : Revision).record text version ident false), {}⟩, none) := by
    have hfresh (s : Scope) : ({} : Ledger).revisionAt s = {} := rfl
    simp [proposeFor, Ledger.propose, hb, hne, hr, Ledger.isPurged, Ledger.enter, hfresh]
  refine ⟨({} : Ledger).put (F.declaringScope i name)
    (({} : Revision).record text version ident false), ?_⟩
  rw [updateByLedger, hwish, Walk.andThen, Ledger.pending_put_empty]
  split
  · rfl
  · exact Walk.untilFault_singleton _ _ _

end Ledger

/-- An update by way of the ledger agrees with the direct one exactly when what the scope declares
comes to the same from both modules, as it does where the scope resolves its property as the module
resolves the name. -/
theorem updateByLedger_agrees_iff (hF : F.NoFieldNames)
    (hname : Placeholder.isName name.toList = true) (hne : name ≠ moduleVersionName)
    (hnew : Placeholder.occursIn version = false) (plan : Plan) (i : Nat) (ident : Ident) :
    (Agrees (updateByLedger plan F i ident (Placeholder.spell name) version)
        (F.update i ⟨plan.policy, false, version⟩ name) ↔
      F.AlikeAtScope i ⟨plan.policy, false, version⟩ name) ∧
    ((∀ text, F.resolve i (Placeholder.spell name) = .ok text →
        F.resolve (F.declaringScope i name).holder
          (Placeholder.spell (F.declaringScope i name).property) = .ok text) →
      Agrees (updateByLedger plan F i ident (Placeholder.spell name) version)
        (F.update i ⟨plan.policy, false, version⟩ name)) := by
  have hiff : Agrees (updateByLedger plan F i ident (Placeholder.spell name) version)
        (F.update i ⟨plan.policy, false, version⟩ name) ↔
      F.AlikeAtScope i ⟨plan.policy, false, version⟩ name := by
    cases hr : F.resolve i (Placeholder.spell name) with
    | error e =>
      rw [updateByLedger_of_unresolved hname hne hr, Forest.update_of_unresolved hne hr]
      apply iff_of_true ⟨by simp, fun _ => rfl⟩
      intro text d hr'
      rw [hr] at hr'
      cases hr'
    | ok text =>
      obtain ⟨ledger, hledger⟩ := updateByLedger_of_resolve hname hne hr plan ident version
      rw [hledger]
      split
      · rename_i he
        rw [he] at hr
        rw [Forest.update_of_resolve (r := ⟨plan.policy, false, version⟩) hne hr]
        apply iff_of_true ⟨by simp, fun _ => rfl⟩
        intro text' d hr' hne'
        rw [hr] at hr'
        exact absurd (Except.ok.inj hr').symm hne'
      · rename_i hne'
        rw [agrees_carryOut_iff]
        exact Forest.sameResult_declaringScope_iff (r := ⟨plan.policy, false, version⟩) hF hname hr
          hne' hnew rfl
  exact ⟨hiff, fun h => hiff.2 (Forest.alikeAtScope_of_resolve hF hname h)⟩

def suffixedPlan : Plan := ⟨Forest.suffixedRequest.policy, {}, .empty⟩

theorem layered_updateByLedger_agrees :
    Forest.layeredForest.NoFieldNames ∧ Placeholder.isName "alias".toList = true ∧
      "alias" ≠ moduleVersionName ∧ Placeholder.occursIn "1.0-GA.redhat-1" = false ∧
      Agrees
        (updateByLedger suffixedPlan Forest.layeredForest 1 ⟨"org.dep", "a"⟩
          (Placeholder.spell "alias") "1.0-GA.redhat-1")
        (Forest.layeredForest.update 1 Forest.suffixedRequest "alias") := by
  have hscope : Forest.layeredForest.declaringScope 1 "alias" = ⟨0, "full"⟩ := by decide +kernel
  have hthere : Forest.layeredForest.resolve 0 (Placeholder.spell "full") = .ok "1.0-GA" := by
    decide +kernel
  have hhere : Forest.layeredForest.resolve 1 (Placeholder.spell "alias") = .ok "1.0-GA" := by
    decide +kernel
  refine ⟨by decide, by decide, by decide, by decide, ?_⟩
  apply (updateByLedger_agrees_iff (F := Forest.layeredForest) (by decide) (by decide)
    (by decide : "alias" ≠ moduleVersionName) (by decide) suffixedPlan 1 ⟨"org.dep", "a"⟩).2
  intro text hr
  rw [hhere] at hr
  rw [hscope, hthere, ← Except.ok.inj hr]

/-- A module that overrides a name which the parent's compound value refers to. -/
def overridingForest : Forest where
  modules := [
    { ident := ⟨"org.foo", "root"⟩, version := "1.0",
      main.properties := .ofRows [("base", "1.0"), ("full", "$\x7bbase\x7d-GA")] },
    { ident := ⟨"org.foo", "app"⟩, version := "1.0", parent := some ⟨"org.foo", "root"⟩,
      main.properties := .ofRows [("base", "2.0")] }]
  grounded := ⟨by decide, by decide⟩

theorem not_forall_updateByLedger_agrees :
    ¬ ∀ (plan : Plan) (F : Forest) (i : Nat) (ident : Ident) (name version : String),
      F.NoFieldNames → Placeholder.isName name.toList = true → name ≠ moduleVersionName →
        Placeholder.occursIn version = false →
          Agrees (updateByLedger plan F i ident (Placeholder.spell name) version)
            (F.update i ⟨plan.policy, false, version⟩ name) := by
  intro hall
  have hagrees := hall ⟨{}, {}, .empty⟩ overridingForest 1 ⟨"org.dep", "a"⟩ "full" "2.0-GA.redhat-1"
    (by decide) (by decide) (by decide) (by decide)
  have hvalue := congrArg (Forest.property? · 0 .main "full") (hagrees.forests (by decide +kernel))
  exact absurd hvalue (by decide +kernel)

end Alignment
end Realign
