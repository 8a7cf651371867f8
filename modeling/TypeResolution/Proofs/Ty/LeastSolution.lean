import TypeResolution.Proofs.Ty.Matching

/-!
# Matching leaves the least solution

Of assignments for the same parameters, one extends another if it knows all that the other knows.
The more an assignment knows, the fewer lists of types fill it, and no two assignments are filled by
the same lists: what is known of a parameter shows in every filling, and what is not known can be
filled in more than one way (`extendedBy_iff`). So extensions can be compared by their fillings.

The assignment that matching leaves is filled by those fillings of the one before that turn the
pattern into the type, and by no others (`filledBy_iff_of_assign?`). That makes it the least
extension whose fillings all do so, and with nothing more to know than the parameters of the pattern
(`assign?_least`).
-/

namespace TypeResolution

namespace Assignment

variable {σ τ : Assignment} {θ : List Ty}

/-- The second assignment knows, of the same parameters, all that the first one knows. -/
structure ExtendedBy (σ τ : Assignment) : Prop where
  /-- no parameters come and go -/
  length_eq : τ.length = σ.length
  /-- what was known stays known -/
  keeps : ∀ (i : Nat) (t : Ty), σ[i]? = some (some t) → τ[i]? = some (some t)

/-- Enough is known to turn the pattern into the type, whatever the other parameters stand for. -/
def Solves (σ : Assignment) (pattern actual : Ty) : Prop :=
  ∀ θ, σ.FilledBy θ → pattern.subst θ = actual

/-- What fills an extension fills the assignment. -/
theorem ExtendedBy.filledBy (h : σ.ExtendedBy τ) (hθ : τ.FilledBy θ) : σ.FilledBy θ where
  length_eq := hθ.length_eq.trans h.length_eq
  agrees i t hi := hθ.agrees i t (h.keeps i t hi)

/-- The types that are known, and one type for all parameters that nothing is known of. -/
def fill (σ : Assignment) (other : Ty) : List Ty := σ.map (·.getD other)

/-- What is open is filled with the other type. -/
theorem getElem?_fill (σ : Assignment) (other : Ty) (i : Nat) :
    (σ.fill other)[i]? = (σ[i]?).map (·.getD other) := List.getElem?_map

/-- That fills the assignment. -/
theorem filledBy_fill (σ : Assignment) (other : Ty) : σ.FilledBy (σ.fill other) where
  length_eq := List.length_map _
  agrees i t hi := by rw [getElem?_fill, hi, Option.map_some, Option.getD_some]

/-- **To know more is to be filled by less.** -/
theorem extendedBy_iff :
    σ.ExtendedBy τ ↔ τ.length = σ.length ∧ ∀ θ, τ.FilledBy θ → σ.FilledBy θ := by
  constructor
  · intro h
    exact ⟨h.length_eq, fun θ hθ => h.filledBy hθ⟩
  · rintro ⟨hlength, h⟩
    refine ⟨hlength, fun i t hi => ?_⟩
    have hlt : i < τ.length := hlength ▸ (List.getElem?_eq_some_iff.mp hi).1
    -- a filling that puts something else than `t` wherever it may
    have hfill := (h _ (τ.filledBy_fill (.pointer t))).agrees i t hi
    rw [getElem?_fill, List.getElem?_eq_getElem hlt, Option.map_some] at hfill
    rw [List.getElem?_eq_getElem hlt]
    cases hknown : τ[i] with
    | none =>
      rw [hknown] at hfill
      have hsize := congrArg sizeOf (Option.some.inj hfill)
      simp only [Option.getD_none, Ty.pointer.sizeOf_spec] at hsize
      omega
    | some u =>
      rw [hknown] at hfill
      exact congrArg some hfill

end Assignment

namespace Ty

variable {pattern actual : Ty} {σ σ' : Assignment}

/-- **The fillings of what matching leaves** are those of the assignment before that turn the
pattern into the type. -/
theorem filledBy_iff_of_assign? (hparams : pattern.paramsBelow σ.length = true)
    (h : assign? pattern actual σ = some σ') (θ : List Ty) :
    σ'.FilledBy θ ↔ σ.FilledBy θ ∧ pattern.subst θ = actual := by
  constructor
  · intro hθ
    exact (assign?_sound pattern h hθ).symm
  · rintro ⟨hθ, hsubst⟩
    rw [← hθ.length_eq] at hparams
    obtain ⟨τ, hτ, hfilled⟩ := assign?_complete pattern hθ hsubst hparams
    obtain rfl := Option.some.inj (h.symm.trans hτ)
    exact hfilled

/-- Matching succeeds exactly if some filling turns the pattern into the type. -/
theorem assign?_isSome_iff (hparams : pattern.paramsBelow σ.length = true) :
    (assign? pattern actual σ).isSome = true ↔
      ∃ θ, σ.FilledBy θ ∧ pattern.subst θ = actual := by
  rw [Option.isSome_iff_exists]
  constructor
  · rintro ⟨σ', h⟩
    have hfill := σ'.filledBy_fill actual
    exact ⟨_, (filledBy_iff_of_assign? hparams h _).mp hfill⟩
  · rintro ⟨θ, hθ, hsubst⟩
    rw [← hθ.length_eq] at hparams
    obtain ⟨σ', h, -⟩ := assign?_complete pattern hθ hsubst hparams
    exact ⟨σ', h⟩

/-- **Matching is sound, complete and most general.** For a pattern whose parameters all have a
place in the assignment, matching succeeds exactly if the parameters that nothing is known of can be
given types so that the pattern becomes the actual type. What it leaves then

* knows what was known and, beyond that, the parameters of the pattern and no others;
* turns the pattern into the type, whatever else is put in for the other parameters;
* is the least of the extensions that do so. -/
theorem assign?_least (hparams : pattern.paramsBelow σ.length = true) :
    ((assign? pattern actual σ).isSome = true ↔
        ∃ θ, σ.FilledBy θ ∧ pattern.subst θ = actual) ∧
      ∀ σ', assign? pattern actual σ = some σ' →
        (σ.AddsTo σ' fun i => pattern.mentions i) ∧ σ'.Solves pattern actual ∧
          ∀ τ, σ.ExtendedBy τ → τ.Solves pattern actual → σ'.ExtendedBy τ := by
  refine ⟨assign?_isSome_iff hparams, fun σ' h => ⟨assign?_adds pattern h, ?_, ?_⟩⟩
  · intro θ hθ
    exact (assign?_sound pattern h hθ).1
  · intro τ hτ hsolves
    refine Assignment.extendedBy_iff.mpr ⟨?_, fun θ hθ => ?_⟩
    · rw [hτ.length_eq, (assign?_adds pattern h).length_eq]
    · exact (filledBy_iff_of_assign? hparams h θ).mpr ⟨hτ.filledBy hθ, hsolves θ hθ⟩

/-- A definition over a parameter, an array of another and the first one again is matched with the
third parameter known. The second one is found below the array, and the fourth is left open. -/
theorem assign?_least_repeated :
    let pattern : Ty := .named 8 [.param 0, .array 1 (.param 1), .param 0]
    let actual : Ty := .named 8 [.nominal 9, .array 1 (.pointer (.nominal 9)), .nominal 9]
    let before : Assignment := [none, none, some (.nominal 10), none]
    let after : Assignment :=
      [some (.nominal 9), some (.pointer (.nominal 9)), some (.nominal 10), none]
    pattern.paramsBelow before.length = true ∧ assign? pattern actual before = some after ∧
      after.Solves pattern actual ∧
      ∀ τ, before.ExtendedBy τ → τ.Solves pattern actual → after.ExtendedBy τ := by
  intro pattern actual before after
  have hparams : pattern.paramsBelow before.length = true := rfl
  have hafter : assign? pattern actual before = some after := rfl
  obtain ⟨-, hsolves, hleast⟩ := (assign?_least hparams).2 after hafter
  exact ⟨hparams, hafter, hsolves, hleast⟩

end Ty

end TypeResolution
