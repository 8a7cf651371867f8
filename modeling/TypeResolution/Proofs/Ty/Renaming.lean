import Mathlib.Logic.Function.Basic
import TypeResolution.Marker

/-!
# Renaming definitions

A definition has its number from the order of registration alone. This module is about what changes
in a type when its definitions get other numbers: nothing but the numbers. Substitution, closedness
and ranks go along with any renaming that keeps definitions apart; the nominal and structural forms
of a type go along if, moreover, the stand-ins keep their numbers (`Renaming`).

Errors carry definitions and types as well. So an outcome is renamed on both of its sides
(`mapOutcome`), and functions that may fail commute with renaming in this sense.
-/

namespace TypeResolution

/-- Other numbers for the definitions: different ones for different definitions, and the same ones
for the stand-ins. -/
structure Renaming (ρ : DefIndex → DefIndex) : Prop where
  /-- definitions are kept apart -/
  injective : Function.Injective ρ
  /-- the stand-ins keep their numbers -/
  fixed : ∀ d < standIns.length, ρ d = d

/-! ## Renamed types

Renaming goes through a type and changes the number of every definition in it. Nothing else about
the type is looked at. -/

namespace Ty

mutual
/-- A type with other numbers for its definitions. -/
def rename (ρ : DefIndex → DefIndex) : Ty → Ty
  | .param i => .param i
  | .named d ts => .named (ρ d) (renameAll ρ ts)
  | .array n t => .array n (t.rename ρ)
  | .pointer t => .pointer (t.rename ρ)
  | .byRef t => .byRef (t.rename ρ)

/-- Renaming in every type of a list. -/
def renameAll (ρ : DefIndex → DefIndex) : List Ty → List Ty
  | [] => []
  | t :: ts => t.rename ρ :: renameAll ρ ts
end

variable {ρ : DefIndex → DefIndex}

/-- Renaming a list is renaming its members. -/
theorem renameAll_eq_map (ts : List Ty) : renameAll ρ ts = ts.map (rename ρ) := by
  induction ts with
  | nil => rfl
  | cons t ts ih => rw [renameAll, ih, List.map_cons]

/-- A name gets the new number, over renamed arguments. -/
@[simp] theorem rename_named (d : DefIndex) (ts : List Ty) :
    (named d ts).rename ρ = .named (ρ d) (ts.map (rename ρ)) := by
  rw [rename, renameAll_eq_map]

/-- Renaming twice is renaming with the composed numbers. -/
theorem rename_rename (ρ σ : DefIndex → DefIndex) (t : Ty) :
    (t.rename ρ).rename σ = t.rename (σ ∘ ρ) := by
  induction t with
  | param i => rfl
  | named d ts ih =>
    rw [rename_named, rename_named, rename_named, List.map_map]
    exact congrArg _ (List.map_congr_left ih)
  | array n t ih => exact congrArg _ ih
  | pointer t ih => exact congrArg _ ih
  | byRef t ih => exact congrArg _ ih

/-- Keeping all numbers keeps the type. -/
theorem rename_id (t : Ty) : t.rename id = t := by
  induction t with
  | param i => rfl
  | named d ts ih =>
    rw [rename_named]
    exact congrArg _ ((List.map_congr_left ih).trans (List.map_id ts))
  | array n t ih => exact congrArg _ ih
  | pointer t ih => exact congrArg _ ih
  | byRef t ih => exact congrArg _ ih

/-- Types are kept apart if definitions are. -/
theorem rename_injective (h : Function.Injective ρ) : Function.Injective (rename ρ) := by
  intro s t hst
  have hinverse : Function.invFun ρ ∘ ρ = id := Function.invFun_comp h
  rw [← rename_id s, ← rename_id t, ← hinverse, ← rename_rename, ← rename_rename, hst]

/-- Substitution goes along. -/
theorem subst_rename (σ : List Ty) (t : Ty) :
    (t.subst σ).rename ρ = (t.rename ρ).subst (σ.map (rename ρ)) := by
  induction t with
  | param i =>
    rw [subst, rename, subst, List.getD_eq_getElem?_getD, List.getD_eq_getElem?_getD,
      List.getElem?_map]
    cases σ[i]? <;> rfl
  | named d ts ih =>
    rw [subst, rename_named, rename_named, subst, substAll_eq_map, substAll_eq_map, List.map_map,
      List.map_map]
    exact congrArg _ (List.map_congr_left ih)
  | array n t ih => exact congrArg _ ih
  | pointer t ih => exact congrArg _ ih
  | byRef t ih => exact congrArg _ ih

/-- Renaming does not open a type. -/
@[simp] theorem isClosed_rename (t : Ty) : (t.rename ρ).isClosed = t.isClosed := by
  induction t with
  | param i => rfl
  | named d ts ih =>
    rw [rename_named, isClosed, isClosed, allClosed_eq_all, allClosed_eq_all, List.all_map,
      Bool.eq_iff_iff, List.all_eq_true, List.all_eq_true]
    exact forall₂_congr fun t ht => by rw [Function.comp_apply, ih t ht]
  | array n t ih => exact ih
  | pointer t ih => exact ih
  | byRef t ih => exact ih

end Ty

/-! ## Renamed forms

The forms of a type are about stand-ins, and to read one means to compare numbers with those of the
stand-ins. So what is needed is that a definition is a stand-in after renaming exactly if it was one
before. -/

/-- A refusal with other numbers for the definitions. -/
def ArgumentError.rename (ρ : DefIndex → DefIndex) : ArgumentError → ArgumentError
  | .arity d expected found => .arity (ρ d) expected found
  | .bound d param arg => .bound (ρ d) param (arg.rename ρ)
  | .malformedRank rank => .malformedRank (rank.rename ρ)
  | .openArgument d index => .openArgument (ρ d) index

/-- An answer, or the reason why there is none, changed by a function each. -/
def mapOutcome {ε α : Type} (f : ε → ε) (g : α → α) : Except ε α → Except ε α
  | .ok a => .ok (g a)
  | .error e => .error (f e)

/-- The checks of an argument list go along. -/
theorem checkArgs_rename (ρ : DefIndex → DefIndex) (d : DefIndex) (arity : Nat) (args : List Ty) :
    checkArgs (ρ d) arity (args.map (Ty.rename ρ)) =
      (checkArgs d arity args).mapError (ArgumentError.rename ρ) := by
  have hindex : (args.map (Ty.rename ρ)).findIdx? (fun t => !t.isClosed) =
      args.findIdx? fun t => !t.isClosed := by
    rw [List.findIdx?_map]
    exact congrArg (fun p => args.findIdx? p) (funext fun t => by simp)
  rw [checkArgs, checkArgs, List.length_map, hindex]
  split
  · rfl
  · split <;> rfl

namespace Renaming

variable {ρ : DefIndex → DefIndex} (h : Renaming ρ)
include h

/-- A stand-in keeps its number. -/
theorem definition (m : Marker) : ρ m.definition = m.definition :=
  h.fixed _ (by cases m <;> decide)

/-- Only the stand-in gets its number. -/
theorem eq_definition_iff (m : Marker) (d : DefIndex) : ρ d = m.definition ↔ d = m.definition := by
  rw [← h.injective.eq_iff (a := d), h.definition]

/-- The same goes for the end of a rank encoding. -/
theorem eq_rankZero_iff (d : DefIndex) : ρ d = rankZero ↔ d = rankZero := by
  rw [← h.injective.eq_iff (a := d), h.fixed rankZero (by decide)]

/-- The same goes for its successor. -/
theorem eq_rankSucc_iff (d : DefIndex) : ρ d = rankSucc ↔ d = rankSucc := by
  rw [← h.injective.eq_iff (a := d), h.fixed rankSucc (by decide)]

/-- Different types stay different. -/
theorem rename_injective : Function.Injective (Ty.rename ρ) := Ty.rename_injective h.injective

/-- Ranks go along. -/
theorem readRank?_rename (t : Ty) : readRank? (t.rename ρ) = readRank? t := by
  induction t with
  | named d ts ih =>
    rw [Ty.rename_named]
    match ts with
    | [] => simp only [List.map_nil, readRank?, h.eq_rankZero_iff]
    | [t] =>
      simp only [List.map_cons, List.map_nil, readRank?, h.eq_rankSucc_iff,
        ih t List.mem_cons_self]
    | t :: u :: us => rfl
  | param i => rfl
  | array n t _ => rfl
  | pointer t _ => rfl
  | byRef t _ => rfl

/-- What a stand-in denotes goes along. -/
theorem structural?_rename (d : DefIndex) (args : List Ty) :
    Ty.structural? (ρ d) (args.map (Ty.rename ρ)) =
      (Ty.structural? d args).map (mapOutcome (ArgumentError.rename ρ) (Ty.rename ρ)) := by
  match args with
  | [] => rfl
  | [elem] =>
    simp only [List.map_cons, List.map_nil, Ty.structural?, h.eq_definition_iff]
    split
    · rfl
    · split <;> rfl
  | [rank, elem] =>
    simp only [List.map_cons, List.map_nil, Ty.structural?, h.eq_definition_iff,
      h.readRank?_rename]
    split
    · split <;> rfl
    · rfl
  | rank :: elem :: t :: ts => rfl

end Renaming

/-! ## Renamed definitions

The bounds, parameters and declarations of a definition are renamed along with it. Names, kinds and
variances are not. -/

/-- A bound with other numbers for the definitions. -/
def Bound.rename (ρ : DefIndex → DefIndex) : Bound → Bound
  | .implements required => .implements (required.rename ρ)
  | bound => bound

/-- A parameter with other numbers for the definitions. -/
def TypeParam.rename (ρ : DefIndex → DefIndex) (p : TypeParam) : TypeParam :=
  { p with bounds := p.bounds.map (Bound.rename ρ) }

/-- A definition with other numbers for the definitions that it mentions. -/
def Definition.rename (ρ : DefIndex → DefIndex) (d : Definition) : Definition :=
  { d with
    params := d.params.map (TypeParam.rename ρ)
    base := d.base.map (Ty.rename ρ)
    interfaces := d.interfaces.map (Ty.rename ρ) }

/-- The number of parameters stays. -/
@[simp] theorem Definition.arity_rename (ρ : DefIndex → DefIndex) (d : Definition) :
    (d.rename ρ).arity = d.arity := List.length_map _

/-- A stand-in mentions stand-ins alone. -/
theorem Renaming.standIns_rename {ρ : DefIndex → DefIndex} (h : Renaming ρ) :
    ∀ s ∈ standIns, s.rename ρ = s := by
  have hrank : (Ty.nominal rankInterface).rename ρ = .nominal rankInterface := by
    rw [Ty.nominal, Ty.rename_named, h.fixed rankInterface (by decide)]
    rfl
  simp [standIns, Definition.rename, TypeParam.rename, Bound.rename, rankParam, hrank]

end TypeResolution
