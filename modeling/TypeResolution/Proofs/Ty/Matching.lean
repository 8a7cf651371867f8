import TypeResolution.Proofs.Ty.Parameters
import TypeResolution.Ty.Matching

/-!
# One-way matching solves what it is asked

An assignment leaves some parameters open; a list of types that has one for every parameter *fills*
it. Matching a pattern with a type is sound and complete for fillings: every filling of the
assignment that it leaves turns the pattern into the type (`assign?_sound`), and if some filling of
the assignment that it starts from does so, then matching succeeds and leaves one that is filled by
the same list (`assign?_complete`).

What it leaves is no more than what is needed: the parameters that the pattern mentions are known,
and of all others nothing has been learned (`assign?_adds`).

All three facts are proved by recursion on the pattern, together with their counterparts for lists
of patterns. Matching is not symmetric. The pattern has parameters, the type has none that count,
and what is known is compared with a type as it is.
-/

namespace TypeResolution

/-- The types agree with all that is known of the parameters, and there is one for each. -/
structure Assignment.FilledBy (σ : Assignment) (θ : List Ty) : Prop where
  /-- there is a type for each parameter -/
  length_eq : θ.length = σ.length
  /-- known parameters stand for what is known of them -/
  agrees : ∀ (i : Nat) (t : Ty), σ[i]? = some (some t) → θ[i]? = some t

/-- Nothing is known yet. -/
theorem Assignment.filledBy_replicate (θ : List Ty) :
    Assignment.FilledBy (List.replicate θ.length none) θ where
  length_eq := List.length_replicate.symm
  agrees i t h := by
    cases (List.mem_replicate.mp (List.mem_of_getElem? h)).2

/-- A parameter that nothing was known of is now known. -/
theorem Assignment.FilledBy.of_set {σ : Assignment} {θ : List Ty} {i : Nat} {t : Ty}
    (hfree : σ[i]? = some none) (h : Assignment.FilledBy (σ.set i (some t)) θ) :
    θ[i]? = some t ∧ σ.FilledBy θ := by
  have hlt : i < σ.length := (List.getElem?_eq_some_iff.mp hfree).1
  refine ⟨h.agrees i t (List.getElem?_set_self hlt), ⟨?_, fun j u hj => h.agrees j u ?_⟩⟩
  · rw [h.length_eq, List.length_set]
  · have hne : i ≠ j := by
      rintro rfl
      rw [hfree] at hj
      cases hj
    rw [List.getElem?_set_ne hne, hj]

/-- What fills an assignment fills it with one more entry, if it has that entry. -/
theorem Assignment.FilledBy.set {σ : Assignment} {θ : List Ty} (h : σ.FilledBy θ) {i : Nat} {t : Ty}
    (ht : θ[i]? = some t) : Assignment.FilledBy (σ.set i (some t)) θ where
  length_eq := by rw [h.length_eq, List.length_set]
  agrees j u hj := by
    by_cases hij : i = j
    · subst hij
      obtain ⟨hlt, hj⟩ := List.getElem?_eq_some_iff.mp hj
      rw [List.getElem_set_self] at hj
      rw [ht, Option.some.inj hj]
    · rw [List.getElem?_set_ne hij] at hj
      exact h.agrees j u hj

namespace Ty

mutual
/-- Whatever fills the assignment that matching leaves turns the pattern into the type, and it fills
the assignment of before. -/
theorem assign?_sound : (pattern : Ty) → {actual : Ty} → {σ σ' : Assignment} → {θ : List Ty} →
    assign? pattern actual σ = some σ' → σ'.FilledBy θ → pattern.subst θ = actual ∧ σ.FilledBy θ
  | .param i, actual, σ, σ', θ, h, hθ => by
    have hsubst : ∀ {t}, θ[i]? = some t → (Ty.param i).subst θ = t := by
      intro t ht
      rw [subst, List.getD_eq_getElem?_getD, ht, Option.getD_some]
    -- A parameter is open, then it is learned, or it is known, and then the type has to be what is
    -- known.
    rw [assign?] at h
    split at h
    · cases h
    · next hfree =>
      obtain rfl := Option.some.inj h
      obtain ⟨hi, hσ⟩ := hθ.of_set hfree
      exact ⟨hsubst hi, hσ⟩
    · next known hknown =>
      split at h
      · next heq =>
        obtain rfl := Option.some.inj h
        exact ⟨heq ▸ hsubst (hθ.agrees i known hknown), hθ⟩
      · cases h
  | .named d ts, actual, σ, σ', θ, h, hθ => by
    cases actual with
    | named e us =>
      rw [assign?] at h
      split at h
      · next hsame =>
        obtain ⟨hall, hσ⟩ := assignAll?_sound ts hsame.2 h hθ
        exact ⟨by rw [subst, substAll_eq_map, hall, hsame.1], hσ⟩
      · cases h
    | _ => cases h
  | .array m t, actual, σ, σ', θ, h, hθ => by
    cases actual with
    | array n u =>
      rw [assign?] at h
      split at h
      · next hrank =>
        obtain ⟨ht, hσ⟩ := assign?_sound t h hθ
        exact ⟨by rw [subst, ht, hrank], hσ⟩
      · cases h
    | _ => cases h
  | .pointer t, actual, σ, σ', θ, h, hθ => by
    cases actual with
    | pointer u =>
      rw [assign?] at h
      obtain ⟨ht, hσ⟩ := assign?_sound t h hθ
      exact ⟨by rw [subst, ht], hσ⟩
    | _ => cases h
  | .byRef t, actual, σ, σ', θ, h, hθ => by
    cases actual with
    | byRef u =>
      rw [assign?] at h
      obtain ⟨ht, hσ⟩ := assign?_sound t h hθ
      exact ⟨by rw [subst, ht], hσ⟩
    | _ => cases h

/-- The same for lists of equal length, from left to right. -/
theorem assignAll?_sound : (patterns : List Ty) → {actuals : List Ty} → {σ σ' : Assignment} →
    {θ : List Ty} → patterns.length = actuals.length → assignAll? patterns actuals σ = some σ' →
      σ'.FilledBy θ → patterns.map (subst θ) = actuals ∧ σ.FilledBy θ
  | [], actuals, σ, σ', θ, hlength, h, hθ => by
    obtain rfl := List.length_eq_zero_iff.mp hlength.symm
    rw [assignAll?] at h
    · exact ⟨rfl, Option.some.inj h ▸ hθ⟩
    · exact nofun
  | t :: ts, actuals, σ, σ', θ, hlength, h, hθ => by
    cases actuals with
    | nil => cases hlength
    | cons u us =>
      rw [assignAll?] at h
      -- The assignment in between is filled by the same list, so the rest is sound first, and then
      -- the head.
      obtain ⟨τ, hτ, h⟩ := Option.bind_eq_some_iff.mp h
      obtain ⟨hts, hτθ⟩ := assignAll?_sound ts (Nat.succ.inj hlength) h hθ
      obtain ⟨ht, hσ⟩ := assign?_sound t hτ hτθ
      exact ⟨by rw [List.map_cons, ht, hts], hσ⟩
end

mutual
/-- If a filling turns the pattern into the type, then matching succeeds, and what it leaves is
filled by the same list. -/
theorem assign?_complete : (pattern : Ty) → {actual : Ty} → {σ : Assignment} → {θ : List Ty} →
    σ.FilledBy θ → pattern.subst θ = actual → pattern.paramsBelow θ.length = true →
      ∃ σ', assign? pattern actual σ = some σ' ∧ σ'.FilledBy θ
  | .param i, actual, σ, θ, hσ, h, hparams => by
    have hlt : i < θ.length := of_decide_eq_true hparams
    have hi : θ[i]? = some actual := by
      rw [subst, List.getD_eq_getElem?_getD, List.getElem?_eq_getElem hlt, Option.getD_some] at h
      rw [List.getElem?_eq_getElem hlt, h]
    rw [assign?]
    split
    · next hnone =>
      -- the assignment is as long as the filling
      have hge := List.getElem?_eq_none_iff.mp hnone
      rw [← hσ.length_eq] at hge
      omega
    · exact ⟨_, rfl, hσ.set hi⟩
    · next known hknown =>
      have hsame : known = actual := Option.some.inj ((hσ.agrees i known hknown).symm.trans hi)
      exact ⟨σ, if_pos hsame, hσ⟩
  | .named d ts, actual, σ, θ, hσ, h, hparams => by
    rw [subst, substAll_eq_map] at h
    subst h
    rw [assign?, if_pos ⟨rfl, by rw [List.length_map]⟩]
    exact assignAll?_complete ts hσ rfl hparams
  | .array n t, actual, σ, θ, hσ, h, hparams => by
    rw [subst] at h
    subst h
    rw [assign?, if_pos rfl]
    exact assign?_complete t hσ rfl hparams
  | .pointer t, actual, σ, θ, hσ, h, hparams => by
    rw [subst] at h
    subst h
    rw [assign?]
    exact assign?_complete t hσ rfl hparams
  | .byRef t, actual, σ, θ, hσ, h, hparams => by
    rw [subst] at h
    subst h
    rw [assign?]
    exact assign?_complete t hσ rfl hparams

/-- The same for lists, where each pattern starts from the assignment that the one before has left.
-/
theorem assignAll?_complete : (patterns : List Ty) → {actuals : List Ty} → {σ : Assignment} →
    {θ : List Ty} → σ.FilledBy θ → patterns.map (subst θ) = actuals →
      allParamsBelow θ.length patterns = true →
      ∃ σ', assignAll? patterns actuals σ = some σ' ∧ σ'.FilledBy θ
  | [], actuals, σ, θ, hσ, h, hparams => ⟨σ, by rw [assignAll?]; exact nofun, hσ⟩
  | t :: ts, actuals, σ, θ, hσ, h, hparams => by
    rw [allParamsBelow, Bool.and_eq_true] at hparams
    subst h
    obtain ⟨τ, hτ, hτθ⟩ := assign?_complete t hσ rfl hparams.1
    obtain ⟨σ', hσ', hfilled⟩ := assignAll?_complete ts hτθ rfl hparams.2
    exact ⟨σ', by rw [List.map_cons, assignAll?, hτ, Option.bind_some, hσ'], hfilled⟩
end

end Ty

/-! ## What is learned

An assignment adds to another one for a set of parameters if it has learned something about these at
most, and about all of them. Going through a list of patterns, what is learned adds up. -/

/-- The second assignment knows what the first one knows and beyond that only what it needs to: an
entry for each of the parameters that `picked` tells. -/
structure Assignment.AddsTo (σ σ' : Assignment) (picked : Nat → Bool) : Prop where
  /-- no parameters come and go -/
  length_eq : σ'.length = σ.length
  /-- what was known stays known -/
  keeps : ∀ (i : Nat) (t : Ty), σ[i]? = some (some t) → σ'[i]? = some (some t)
  /-- the picked parameters are known -/
  knows : ∀ i, picked i = true → ∃ t, σ'[i]? = some (some t)
  /-- nothing is learned of the others -/
  others : ∀ i, picked i = false → σ'[i]? = σ[i]?

namespace Assignment.AddsTo

variable {σ τ σ' : Assignment} {p q : Nat → Bool}

/-- Nothing is learned by doing nothing. -/
theorem refl (σ : Assignment) : σ.AddsTo σ fun _ => false :=
  ⟨rfl, fun _ _ h => h, nofun, fun _ _ => rfl⟩

/-- What is learned in two steps adds up. -/
theorem trans (h : σ.AddsTo τ p) (h' : τ.AddsTo σ' q) : σ.AddsTo σ' fun i => p i || q i where
  length_eq := h'.length_eq.trans h.length_eq
  keeps i t ht := h'.keeps i t (h.keeps i t ht)
  knows i hi := by
    rcases Bool.or_eq_true_iff.mp hi with hi | hi
    · obtain ⟨t, ht⟩ := h.knows i hi
      exact ⟨t, h'.keeps i t ht⟩
    · exact h'.knows i hi
  others i hi := by
    obtain ⟨hp, hq⟩ := Bool.or_eq_false_iff.mp hi
    exact (h'.others i hq).trans (h.others i hp)

/-- A parameter that nothing is known of gets an entry. -/
theorem set {i : Nat} (hfree : σ[i]? = some none) (t : Ty) :
    σ.AddsTo (σ.set i (some t)) fun j => decide (i = j) where
  length_eq := List.length_set
  keeps j u hj := by
    have hne : i ≠ j := by
      rintro rfl
      rw [hfree] at hj
      cases hj
    rw [List.getElem?_set_ne hne, hj]
  knows j hj := by
    obtain rfl := of_decide_eq_true hj
    exact ⟨t, List.getElem?_set_self (List.getElem?_eq_some_iff.mp hfree).1⟩
  others _ hj := List.getElem?_set_ne (of_decide_eq_false hj)

/-- A parameter that is known needs no entry. -/
theorem of_known {i : Nat} {t : Ty} (hknown : σ[i]? = some (some t)) :
    σ.AddsTo σ fun j => decide (i = j) where
  length_eq := rfl
  keeps _ _ h := h
  knows _ hj := ⟨t, of_decide_eq_true hj ▸ hknown⟩
  others _ _ := rfl

end Assignment.AddsTo

namespace Ty

mutual
/-- **Matching learns of the parameters that the pattern mentions and of no others.** -/
theorem assign?_adds : (pattern : Ty) → {actual : Ty} → {σ σ' : Assignment} →
    assign? pattern actual σ = some σ' → σ.AddsTo σ' fun i => pattern.mentions i
  | .param i, actual, σ, σ', h => by
    -- A parameter that was open is learned, one that was known stays so. In both cases it is known
    -- afterwards.
    rw [assign?] at h
    split at h
    · cases h
    · next hfree =>
      obtain rfl := Option.some.inj h
      exact .set hfree actual
    · next known hknown =>
      split at h
      · obtain rfl := Option.some.inj h
        exact .of_known hknown
      · cases h
  | .named d ts, actual, σ, σ', h => by
    cases actual with
    | named e us =>
      rw [assign?] at h
      split at h
      · next hsame => exact assignAll?_adds ts hsame.2 h
      · cases h
    | _ => cases h
  | .array m t, actual, σ, σ', h => by
    cases actual with
    | array n u =>
      rw [assign?] at h
      split at h
      · exact assign?_adds t h
      · cases h
    | _ => cases h
  | .pointer t, actual, σ, σ', h => by
    cases actual with
    | pointer u => exact assign?_adds t h
    | _ => cases h
  | .byRef t, actual, σ, σ', h => by
    cases actual with
    | byRef u => exact assign?_adds t h
    | _ => cases h

/-- A list of patterns adds what its members mention. -/
theorem assignAll?_adds : (patterns : List Ty) → {actuals : List Ty} → {σ σ' : Assignment} →
    patterns.length = actuals.length → assignAll? patterns actuals σ = some σ' →
      σ.AddsTo σ' fun i => anyMentions i patterns
  | [], actuals, σ, σ', hlength, h => by
    obtain rfl := List.length_eq_zero_iff.mp hlength.symm
    rw [assignAll?] at h
    · exact Option.some.inj h ▸ .refl σ
    · exact nofun
  | t :: ts, actuals, σ, σ', hlength, h => by
    cases actuals with
    | nil => cases hlength
    | cons u us =>
      rw [assignAll?] at h
      obtain ⟨τ, hτ, h⟩ := Option.bind_eq_some_iff.mp h
      exact (assign?_adds t hτ).trans (assignAll?_adds ts (Nat.succ.inj hlength) h)
end

end Ty

end TypeResolution
