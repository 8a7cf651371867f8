import TypeResolution.Proofs.Catalog.Questions
import TypeResolution.Proofs.Unification.Description
import TypeResolution.Proofs.Unification.Validity

/-!
# The readings of a closed constraint agree

A constraint that leaves nothing open stands for one type, and two recursions find out for which.
The one that asks passes over whatever goes wrong, since a place that is not known yet is no
mistake. The one that builds a directive's candidates reports it. On constraints that may stand in a
directive they are the same recursion: they end under the same fuel, and asking gives what building
gives, with the errors forgotten (`singleType_eq_requireType`). Elsewhere they differ, in that a
kind marker can be built like any definition, while to ask for the type that it stands for gives
none.

The third reading is the type itself, which is expanded to a constraint that describes it. Such a
description may stand in a directive (`Describes.check`), so both recursions give back the type
(`readings_agree`).
-/

namespace TypeResolution

open Filter

namespace Constraint

variable {c : Catalog} {fuel : Nat} {b : Bindings}

/-! ## Asking and building

Both recursions read what parameters are bound to and instantiate definitions over what they have
found. On kind markers they part: to ask for their type gives none, although there is a definition
that could be built. So the constraint has to pass the check for directives, which excludes kind
markers and wildcards. -/

/-- No kind marker may stand in a directive. -/
theorem isKindMarker_of_check {target : DefIndex} {v : Variance} {args : List Constraint}
    (h : check c .directive (.instanceOf target v args) = .ok ()) :
    isKindMarker target = false := by
  by_contra hkind
  rw [Bool.not_eq_false] at hkind
  rw [check, if_pos ⟨rfl, hkind⟩] at h
  cases h

mutual
/-- **Asking for the type of a checked directive is building it**, with the errors forgotten. -/
theorem singleType_eq_requireType : (k : Constraint) → check c .directive k = .ok () →
    singleType c fuel b k = (requireType c fuel b k).map Except.toOption
  | .wildcard, h => absurd rfl (check_wildcard_ok h)
  | .negation inner, h => nomatch (check_negation_ok h).1
  | .param name v, _ => by
    rw [singleType, requireType]
    cases b.get? name <;> rfl
  | .instanceOf target v args, h => by
    have hargs := singleTypes_eq_requireTypes args (check_instanceOf_ok h).2
    simp only [singleType, requireType, isKindMarker_of_check h, hargs]
    rcases requireTypes c fuel b args with _ | _ | ts
    · rfl
    · rfl
    · -- what the definition makes of the arguments is the same, and so is that it makes nothing
      simp only [Option.map_some, Except.toOption, Bool.false_eq_true, if_false, Option.map_map]
      refine congrArg (Option.map · _) (funext fun result => ?_)
      cases result <;> rfl

/-- The same for lists, where the first error ends the building and the asking alike. -/
theorem singleTypes_eq_requireTypes : (ks : List Constraint) →
    (∀ k ∈ ks, check c .directive k = .ok ()) →
    singleTypes c fuel b ks = (requireTypes c fuel b ks).map Except.toOption
  | [], _ => rfl
  | k :: ks, h => by
    obtain ⟨hk, hks⟩ := List.forall_mem_cons.mp h
    rw [singleTypes, requireTypes, singleType_eq_requireType k hk,
      singleTypes_eq_requireTypes ks hks]
    rcases requireType c fuel b k with _ | _ | t
    · rfl
    · rfl
    · rcases requireTypes c fuel b ks with _ | _ | ts <;> rfl
end

/-- A kind marker may not stand in a directive, where the two would differ. -/
example : (marker .valueType []).singleType .empty 1 [] = some none ∧
    (marker .valueType []).requireType .empty 1 [] =
      some (.ok (.nominal Marker.valueType.definition)) := ⟨rfl, rfl⟩

/-- A list passes its check if all members do. -/
theorem checkAll_eq_ok {role : Role} {ks : List Constraint}
    (h : ∀ k ∈ ks, check c role k = .ok ()) : checkAll c role ks = .ok () := by
  induction ks with
  | nil => rfl
  | cons k ks ih =>
    obtain ⟨hk, hks⟩ := List.forall_mem_cons.mp h
    rw [checkAll, hk]
    exact ih hks

end Constraint

variable {c : Catalog}

/-! ## Descriptions

A description is made of instances only, with a constraint on no kind marker, so the check for
directives lets it pass. -/

/-- What describes a type may stand in a directive. -/
theorem Describes.check {k : Constraint} {t : Ty} (h : Describes c k t) :
    k.check c .directive = .ok () := by
  induction h with
  | @intro d v ks ts t fuel hkind hlength hargs hinstance ih =>
    have hcount : checkArgCount c d ks.length = .ok () := by
      rw [checkArgCount, if_pos]
      rw [hlength, c.length_of_instantiate hinstance]
    have hks : ∀ k ∈ ks, k.check c .directive = .ok () := by
      rw [← List.map_fst_zip (Nat.le_of_eq hlength)]
      simpa using fun k t hp => ih (k, t) hp
    simp only [Constraint.check, hkind, Bool.false_eq_true, and_false, if_false, hcount,
      Constraint.argumentRole]
    exact Constraint.checkAll_eq_ok hks

/-- With enough fuel the described type is built. -/
theorem Describes.eventually_requireType {k : Constraint} {t : Ty} (h : Describes c k t)
    (b : Bindings) : ∀ᶠ fuel in atTop, k.requireType c fuel b = some (.ok t) := by
  filter_upwards [h.eventually_singleType b] with fuel hsingle
  rw [Constraint.singleType_eq_requireType k h.check] at hsingle
  obtain ⟨result, hresult, hok⟩ := Option.map_eq_some_iff.mp hsingle
  cases result with
  | error e => cases hok
  | ok u => rw [hresult, Option.some.inj hok]

/-- **The readings of a closed constraint agree.** Whatever is bound, the constraint that a
canonical type without kind markers is expanded to stands for this type and builds it. And every
constraint that may stand in a directive stands for what it builds: both questions are answered
under the same fuel, and one answer is a type exactly if the other is this type. -/
theorem readings_agree (c : Catalog) :
    (∀ t, c.Canonical t → t.mentionsKindMarker = false → ∀ b, ∀ᶠ fuel in atTop,
      (Constraint.ofType c t).singleType c fuel b = some (some t) ∧
        (Constraint.ofType c t).requireType c fuel b = some (.ok t)) ∧
      ∀ k : Constraint, k.check c .directive = .ok () → ∀ b fuel,
        (k.singleType c fuel b = none ↔ k.requireType c fuel b = none) ∧
          ∀ u, k.singleType c fuel b = some (some u) ↔ k.requireType c fuel b = some (.ok u) := by
  refine ⟨?_, ?_⟩
  · intro t ht hkind b
    have hdescribes := (describes_ofType ht hkind).1
    exact (hdescribes.eventually_singleType b).and (hdescribes.eventually_requireType b)
  · intro k hk b fuel
    rw [Constraint.singleType_eq_requireType k hk]
    rcases k.requireType c fuel b with _ | _ | t <;> simp [Except.toOption]

/-- Lists of matrices of pointers to integers. -/
def pointerMatrixList : Ty := .named 14 [.array 2 (.pointer (.nominal 19))]

open Catalog in
/-- The list of matrices of pointers is read from what it is expanded to, and a list of what is
bound to a pointer is built over the pointer's nominal form, as it stands for a list over that form.
-/
theorem pointerMatrixList_readings_agree :
    (∀ᶠ fuel in atTop,
      (Constraint.ofType baseLibrary pointerMatrixList).singleType baseLibrary fuel [] =
          some (some pointerMatrixList) ∧
        (Constraint.ofType baseLibrary pointerMatrixList).requireType baseLibrary fuel [] =
          some (.ok pointerMatrixList)) ∧
      (Constraint.definition 14 [.named "T"]).requireType baseLibrary 9
          [("T", .pointer (.nominal 19))] =
        some (.ok (.named 14 [(Ty.pointer (.nominal 19)).nominalForm])) := by
  have hassign := baseLibrary_flat.assignabilityEnds baseLibrary_acyclic.hierarchyEnds
  have hpointer : baseLibrary.Canonical (.pointer (.nominal 19)) := (canonical_nominal rfl).pointer
  have hmatrix : baseLibrary.Canonical (.array 2 (.pointer (.nominal 19))) :=
    hpointer.array (hassign.canonical_rankEncoding (by decide) 2)
  have hlist : baseLibrary.Canonical pointerMatrixList := hmatrix.generic 14 rfl rfl
  obtain ⟨hexpanded, hdirective⟩ := readings_agree baseLibrary
  refine ⟨hexpanded pointerMatrixList hlist rfl [], ?_⟩
  obtain ⟨-, hbuilt⟩ := hdirective (.definition 14 [.named "T"]) rfl
    [("T", .pointer (.nominal 19))] 9
  exact (hbuilt _).mp rfl

end TypeResolution
