import Mathlib.Data.List.Basic
import TypeResolution.Expr.Reading
import TypeResolution.Proofs.Ty.Renaming

/-!
# Catalogs that differ in the numbers of their definitions

If one catalog is another one with other numbers for the definitions (`Catalog.Renames`), then every
question has the same answer in both, up to the numbers, and needs as much fuel: what a type
inherits from, whether it is assignable, what a definition over arguments is. If names are found
alike, too, the same texts denote the same types.

Renaming keeps types apart, so it decides no comparison of types differently; this is all that the
walks over the hierarchy depend on.

Each function of the catalog gets one lemma, which says that it commutes with renaming. They follow
the functions one by one, with the same case analysis, and each is proved from the lemmas for the
functions that it calls. Nothing is said about which numbers are renamed to which, only that
different ones stay different and that the stand-ins keep theirs.
-/

namespace TypeResolution

/-! ## Fueled tests on renamed lists

Testing the elements of a renamed list is testing those of the list for what they are renamed to. -/

namespace Fueled

variable {α β : Type}

/-- Whether some element passes can be tested before renaming. -/
theorem any_map (f : α → β) (p : β → Fueled Bool) (as : List α) :
    Fueled.any p (as.map f) = Fueled.any (fun a => p (f a)) as := by
  induction as with
  | nil => rfl
  | cons a as ih => rw [List.map_cons, Fueled.any, Fueled.any, ih]

/-- Whether all of them pass can be, too. -/
theorem all_map (f : α → β) (p : β → Fueled Bool) (as : List α) :
    Fueled.all p (as.map f) = Fueled.all (fun a => p (f a)) as := by
  induction as with
  | nil => rfl
  | cons a as ih => rw [List.map_cons, Fueled.all, Fueled.all, ih]

end Fueled

namespace Catalog

open Ty

/-- The second catalog is the first one with other numbers for the definitions. -/
structure Renames (ρ : DefIndex → DefIndex) (c c' : Catalog) : Prop extends Renaming ρ where
  /-- the definitions are the same -/
  definition : ∀ d, c'.definition (ρ d) = (c.definition d).rename ρ
  /-- arrays have the same base -/
  arrayBase : c'.arrayBase = c.arrayBase.map (rename ρ)
  /-- arrays have the same interfaces -/
  arrayInterfaces : c'.arrayInterfaces = c.arrayInterfaces.map (rename ρ)

namespace Renames

variable {ρ : DefIndex → DefIndex} {c c' : Catalog} (h : Renames ρ c c')
include h

/-- A definition keeps its arity. -/
theorem arity_eq (d : DefIndex) : c'.arity (ρ d) = c.arity d := by
  rw [arity, h.definition, Definition.arity_rename]
  rfl

/-- It keeps its kind. -/
theorem kind_eq (d : DefIndex) : (c'.definition (ρ d)).kind = (c.definition d).kind := by
  rw [h.definition]
  rfl

/-- Whether a type is a reference depends on the kind of its definition. -/
theorem isReferenceType_rename (t : Ty) :
    c'.isReferenceType (t.rename ρ) = c.isReferenceType t := by
  cases t with
  | named d ts => rw [rename_named, isReferenceType, isReferenceType, h.kind_eq]
  | _ => rfl

/-- Whether it is a value does, too. -/
theorem isValueType_rename (t : Ty) : c'.isValueType (t.rename ρ) = c.isValueType t := by
  cases t with
  | named d ts => rw [rename_named, isValueType, isValueType, h.kind_eq]
  | _ => rfl

/-- Two types are equal exactly if they are after renaming. -/
theorem eq_iff {s t : Ty} : s.rename ρ = t.rename ρ ↔ s = t := h.rename_injective.eq_iff

/-- So is membership in a list of types decided alike. -/
theorem mem_map_iff {t : Ty} {ts : List Ty} : t.rename ρ ∈ ts.map (rename ρ) ↔ t ∈ ts :=
  List.mem_map_of_injective h.rename_injective

/-! ## The hierarchy

The walks compare types with lists of types that they have seen, and these comparisons have the same
outcome after renaming. So the walks take the same steps with the same fuel. -/

/-- The declared base goes along, with the arguments put in. -/
theorem declaredBase?_rename (t : Ty) :
    c'.declaredBase? (t.rename ρ) = (c.declaredBase? t).map (rename ρ) := by
  cases t with
  | named d ts =>
    rw [rename_named, declaredBase?, declaredBase?, h.definition, Definition.rename,
      Option.map_map, Option.map_map]
    exact congrArg (fun f => (c.definition d).base.map f) (funext fun s => (subst_rename ts s).symm)
  | array n t => exact h.arrayBase
  | _ => rfl

/-- The declared interfaces do. -/
theorem declaredInterfaces_rename (t : Ty) :
    c'.declaredInterfaces (t.rename ρ) = (c.declaredInterfaces t).map (rename ρ) := by
  -- Renaming declared types and then putting renamed arguments in is renaming what results from
  -- putting the arguments in.
  have hsubst (ts ss : List Ty) : (ss.map (rename ρ)).map (subst (ts.map (rename ρ))) =
      (ss.map (subst ts)).map (rename ρ) := by
    rw [List.map_map, List.map_map]
    exact List.map_congr_left fun s _ => (subst_rename ts s).symm
  cases t with
  | named d ts =>
    rw [rename_named, declaredInterfaces, declaredInterfaces, h.definition]
    exact hsubst ts _
  | array n t =>
    rcases Nat.decEq n 1 with hn | rfl
    · unfold declaredInterfaces rename
      simp [hn]
    · rw [rename, declaredInterfaces, declaredInterfaces, h.arrayInterfaces]
      exact hsubst [t] _
  | _ => rfl

/-- The base chain goes along and stops at the same type. -/
theorem basesFrom_rename (fuel : Nat) (seen : List Ty) (t : Ty) :
    c'.basesFrom fuel (seen.map (rename ρ)) (t.rename ρ) =
      (c.basesFrom fuel seen t).map (List.map (rename ρ)) := by
  induction fuel generalizing seen t with
  | zero => rfl
  | succ fuel ih =>
    rw [basesFrom, basesFrom, h.declaredBase?_rename]
    cases c.declaredBase? t with
    | none => rfl
    | some base =>
      simp only [Option.map_some]
      by_cases hseen : base ∈ seen
      · rw [if_pos hseen, if_pos (h.mem_map_iff.mpr hseen)]
        rfl
      · rw [if_neg hseen, if_neg (mt h.mem_map_iff.mp hseen), ← List.map_cons, ih, Option.map_map,
          Option.map_map]
        rfl

/-- The walk over the interfaces passes over the same types. -/
theorem addInterfaces_rename (fuel : Nat) (found pending : List Ty) :
    c'.addInterfaces fuel (found.map (rename ρ)) (pending.map (rename ρ)) =
      (c.addInterfaces fuel found pending).map (List.map (rename ρ)) := by
  induction fuel generalizing found pending with
  | zero => cases pending <;> simp [addInterfaces]
  | succ fuel ih =>
    cases pending with
    | nil => simp [addInterfaces]
    | cons t pending =>
      rw [List.map_cons, addInterfaces, addInterfaces]
      by_cases hfound : t ∈ found
      · rw [if_pos hfound, if_pos (h.mem_map_iff.mpr hfound), ih]
      · have hsnoc : found.map (rename ρ) ++ [t.rename ρ] = (found ++ [t]).map (rename ρ) := by
          rw [List.map_append, List.map_singleton]
        rw [if_neg hfound, if_neg (mt h.mem_map_iff.mp hfound), h.declaredInterfaces_rename,
          ← List.map_append, hsnoc, ih]

/-- **What a type inherits from is the same.** -/
theorem ancestors_rename (fuel : Nat) (t : Ty) :
    c'.ancestors fuel (t.rename ρ) = (c.ancestors fuel t).map (List.map (rename ρ)) := by
  have hbases : c'.bases fuel (t.rename ρ) = (c.bases fuel t).map (List.map (rename ρ)) :=
    h.basesFrom_rename fuel [t] t
  rw [ancestors, ancestors, hbases]
  cases c.bases fuel t with
  | none => rfl
  | some bases =>
    -- The walk starts from what the type and its bases declare, and from the type as already found.
    have hdeclared : (t.rename ρ :: bases.map (rename ρ)).flatMap c'.declaredInterfaces =
        ((t :: bases).flatMap c.declaredInterfaces).map (rename ρ) := by
      rw [← List.map_cons, List.flatMap_map, List.map_flatMap]
      exact congrArg (fun f => (t :: bases).flatMap f) (funext h.declaredInterfaces_rename)
    have hfound := h.addInterfaces_rename fuel [t] ((t :: bases).flatMap c.declaredInterfaces)
    rw [List.map_singleton] at hfound
    simp only [Option.map_some]
    rw [hdeclared, hfound]
    cases c.addInterfaces fuel [t] ((t :: bases).flatMap c.declaredInterfaces) with
    | none => rfl
    | some found =>
      have hunlisted : unlisted (found.map (rename ρ)) (bases.map (rename ρ)) =
          (unlisted found bases).map (rename ρ) := by
        rw [unlisted, unlisted, List.filter_map]
        refine congrArg (List.map (rename ρ)) (List.filter_congr fun s _ => ?_)
        exact decide_eq_decide.mpr (not_congr h.mem_map_iff)
      simp only [Option.map_some]
      rw [hunlisted, ← List.map_append]

/-! ## Assignability

The tests of arguments, instances and arrays are renamed for any two relations that agree up to
renaming. Assignability is renamed by induction on its fuel, with itself under less fuel for these
relations. -/

section

variable {p p' : Ty → Ty → Fueled Bool}
  (hp : ∀ target source, p' (target.rename ρ) (source.rename ρ) = p target source)

include hp

/-- Two arguments are convertible exactly if they are after renaming. -/
theorem argumentConvertible_rename (v : Variance) (target source : Ty) :
    c'.argumentConvertible p' v (target.rename ρ) (source.rename ρ) =
      c.argumentConvertible p v target source := by
  simp only [argumentConvertible, h.eq_iff, h.isReferenceType_rename, hp]

/-- Two instances are, since their parameters have the same variances. -/
theorem instanceConvertible_rename (target source : Ty) :
    c'.instanceConvertible p' (target.rename ρ) (source.rename ρ) =
      c.instanceConvertible p target source := by
  cases target with
  | named d ts =>
    cases source with
    | named e us =>
      -- The parameters and the arguments on both sides are renamed together, as one list of
      -- triples.
      have hzip : (c'.definition (ρ d)).params.zip ((ts.map (rename ρ)).zip (us.map (rename ρ))) =
          ((c.definition d).params.zip (ts.zip us)).map
            (Prod.map (TypeParam.rename ρ) (Prod.map (rename ρ) (rename ρ))) := by
        rw [h.definition, Definition.rename, List.zip_map, List.zip_map]
      simp only [rename_named, instanceConvertible, h.injective.eq_iff, List.length_map,
        List.map_eq_nil_iff, ne_eq, hzip, Fueled.all_map]
      split
      · exact congrArg (fun f => Fueled.all f _)
          (funext fun q => h.argumentConvertible_rename hp q.1.variance q.2.1 q.2.2)
      · rfl
    | _ => rw [rename_named]; rfl
  | _ => rfl

/-- Two arrays are. -/
theorem arrayConvertible_rename (target source : Ty) :
    c'.arrayConvertible p' (target.rename ρ) (source.rename ρ) =
      c.arrayConvertible p target source := by
  cases target with
  | array m t =>
    cases source with
    | array n u => simp only [rename, arrayConvertible, h.isReferenceType_rename, hp]
    | _ => rfl
  | _ => rfl

end

/-- **What is assignable is the same.** -/
theorem isAssignable_rename (fuel : Nat) (target source : Ty) :
    c'.isAssignable fuel (target.rename ρ) (source.rename ρ) =
      c.isAssignable fuel target source := by
  induction fuel generalizing target source with
  | zero => rfl
  | succ fuel ih =>
    rw [isAssignable, isAssignable]
    simp only [h.eq_iff, h.arrayConvertible_rename ih, h.ancestors_rename]
    cases c.ancestors fuel source with
    | none => rfl
    | some above =>
      simp only [Option.map_some, Fueled.any_map, h.eq_iff, h.instanceConvertible_rename ih]

/-! ## Instances

Instantiating checks the number of arguments, reads stand-ins and checks bounds. The errors name
definitions and types, so they are renamed as well. -/

/-- An argument is stored over the same stand-in, which renaming keeps. -/
theorem storedArg_rename (t : Ty) : storedArg (t.rename ρ) = (storedArg t).rename ρ := by
  cases t with
  | pointer t =>
    rw [storedArg, nominalForm, rename_named, h.toRenaming.definition .pointer]
    rfl
  | byRef t =>
    rw [storedArg, nominalForm, rename_named, h.toRenaming.definition .byRef]
    rfl
  | _ => rfl

/-- A bound is met exactly if it is after renaming. -/
theorem meets_rename (fuel : Nat) (args : List Ty) (arg : Ty) (bound : Bound) :
    c'.meets fuel (args.map (rename ρ)) (arg.rename ρ) (bound.rename ρ) =
      c.meets fuel args arg bound := by
  cases bound with
  | referenceType => exact congrArg some (h.isReferenceType_rename arg)
  | valueType => exact congrArg some (h.isValueType_rename arg)
  | implements required =>
    rw [Bound.rename, meets, meets, ← subst_rename, h.isAssignable_rename]

/-- The first bound that is missed is the same one. -/
theorem firstMissed_rename (fuel : Nat) (args : List Ty) (ps : List (TypeParam × Ty)) :
    c'.firstMissed fuel (args.map (rename ρ))
        (ps.map (Prod.map (TypeParam.rename ρ) (rename ρ))) =
      (c.firstMissed fuel args ps).map
        (Option.map (Prod.map (TypeParam.rename ρ) (rename ρ))) := by
  induction ps with
  | nil => rfl
  | cons p ps ih =>
    obtain ⟨param, arg⟩ := p
    have hbounds : Fueled.all (c'.meets fuel (args.map (rename ρ)) (arg.rename ρ))
        (param.rename ρ).bounds = Fueled.all (c.meets fuel args arg) param.bounds := by
      rw [TypeParam.rename, Fueled.all_map]
      exact congrArg (fun f => Fueled.all f param.bounds)
        (funext fun bound => h.meets_rename fuel args arg bound)
    rw [List.map_cons, Prod.map_apply, firstMissed, firstMissed, hbounds]
    cases Fueled.all (c.meets fuel args arg) param.bounds with
    | none => rfl
    | some met =>
      cases met with
      | false => rfl
      | true => exact ih

/-- **Instances are the same.** -/
theorem instantiate_rename (fuel : Nat) (d : DefIndex) (args : List Ty) :
    c'.instantiate fuel (ρ d) (args.map (rename ρ)) =
      (c.instantiate fuel d args).map (mapOutcome (ArgumentError.rename ρ) (rename ρ)) := by
  rw [instantiate, instantiate, h.arity_eq, checkArgs_rename, h.structural?_rename]
  cases checkArgs d (c.arity d) args with
  | error e => rfl
  | ok _ =>
    cases structural? d args with
    | some result => rfl
    | none =>
      have hstored : (args.map (rename ρ)).map storedArg = (args.map storedArg).map (rename ρ) := by
        rw [List.map_map, List.map_map]
        exact List.map_congr_left fun a _ => h.storedArg_rename a
      have hzip : (c'.definition (ρ d)).params.zip ((args.map storedArg).map (rename ρ)) =
          ((c.definition d).params.zip (args.map storedArg)).map
            (Prod.map (TypeParam.rename ρ) (rename ρ)) := by
        rw [h.definition, Definition.rename, List.zip_map]
      simp only [Except.mapError, Option.map_none, hstored, hzip, h.firstMissed_rename]
      cases c.firstMissed fuel (args.map storedArg)
        ((c.definition d).params.zip (args.map storedArg)) with
      | none => rfl
      | some missed =>
        cases missed with
        | none => rw [← rename_named]; rfl
        | some p => rfl

end Renames

end Catalog

/-! ## Texts

Reading a text needs the catalog for two things: to find a definition by its name and number of
arguments, and to instantiate it. The second is renamed in any case. The first is a condition on the
names. -/

/-- The reason why a text denotes no type, with other numbers for the definitions. -/
def ReadingError.rename (ρ : DefIndex → DefIndex) : ReadingError → ReadingError
  | .instantiate e => .instantiate (e.rename ρ)
  | e => e

namespace Catalog

open Ty

/-- Names are found alike, wherever the number of arguments is known. -/
def FindsAlike (ρ : DefIndex → DefIndex) (c c' : Catalog) : Prop :=
  ∀ name n, c'.find? name (some n) = (c.find? name (some n)).map ρ

variable {ρ : DefIndex → DefIndex} {c c' : Catalog}

mutual
/-- Open expressions denote the same types. -/
theorem FindsAlike.toOpen (hfind : FindsAlike ρ c c') :
    (e : Expr) → e.toOpen c' = (e.toOpen c).map (rename ρ)
  | .param index => rfl
  | .named name args => by
    rw [Expr.toOpen, Expr.toOpen, hfind, hfind.toOpenAll args]
    cases c.find? name (some args.length) with
    | none => rfl
    | some d =>
      simp only [Option.map_some]
      cases Expr.toOpenAll c args with
      | error e => rfl
      | ok ts => exact congrArg Except.ok (rename_named d ts).symm
  | .array elem rank => by
    rw [Expr.toOpen, Expr.toOpen, hfind.toOpen elem]
    cases elem.toOpen c <;> rfl
  | .pointer elem => by
    rw [Expr.toOpen, Expr.toOpen, hfind.toOpen elem]
    cases elem.toOpen c <;> rfl
  | .byRef elem => by
    rw [Expr.toOpen, Expr.toOpen, hfind.toOpen elem]
    cases elem.toOpen c <;> rfl

/-- A list of open expressions is read alike. -/
theorem FindsAlike.toOpenAll (hfind : FindsAlike ρ c c') : (es : List Expr) →
    Expr.toOpenAll c' es = (Expr.toOpenAll c es).map (List.map (rename ρ))
  | [] => rfl
  | e :: es => by
    rw [Expr.toOpenAll, Expr.toOpenAll, hfind.toOpen e, hfind.toOpenAll es]
    cases e.toOpen c with
    | error e => rfl
    | ok t => cases Expr.toOpenAll c es <;> rfl
end

/-- **Inside a definition, texts denote the same types.** -/
theorem FindsAlike.readOpen (hfind : FindsAlike ρ c c') (src : String) :
    c'.readOpen src = (c.readOpen src).map (rename ρ) := by
  rw [Catalog.readOpen, Catalog.readOpen]
  cases Expr.parse src with
  | error e => rfl
  | ok e => exact hfind.toOpen e

mutual
/-- Closed expressions denote the same types. -/
theorem Renames.toClosed (h : Renames ρ c c') (hfind : FindsAlike ρ c c') (fuel : Nat) :
    (e : Expr) → e.toClosed c' fuel =
      (e.toClosed c fuel).map (mapOutcome (ReadingError.rename ρ) (rename ρ))
  | .param index => rfl
  | .named name args => by
    rw [Expr.toClosed, Expr.toClosed, hfind, h.toClosedAll hfind fuel args]
    cases c.find? name (some args.length) with
    | none => rfl
    | some d =>
      simp only [Option.map_some]
      match Expr.toClosedAll c fuel args with
      | none => rfl
      | some (.error e) => rfl
      | some (.ok ts) =>
        simp only [Option.map_some, mapOutcome, h.instantiate_rename]
        match c.instantiate fuel d ts with
        | none => rfl
        | some (.error e) => rfl
        | some (.ok t) => rfl
  | .array elem rank => by
    rw [Expr.toClosed, Expr.toClosed, h.toClosed hfind fuel elem]
    match elem.toClosed c fuel with
    | none => rfl
    | some (.error e) => rfl
    | some (.ok t) => rfl
  | .pointer elem => by
    rw [Expr.toClosed, Expr.toClosed, h.toClosed hfind fuel elem]
    match elem.toClosed c fuel with
    | none => rfl
    | some (.error e) => rfl
    | some (.ok t) => rfl
  | .byRef elem => by
    rw [Expr.toClosed, Expr.toClosed, h.toClosed hfind fuel elem]
    match elem.toClosed c fuel with
    | none => rfl
    | some (.error e) => rfl
    | some (.ok t) => rfl

/-- A list of closed expressions is. -/
theorem Renames.toClosedAll (h : Renames ρ c c') (hfind : FindsAlike ρ c c') (fuel : Nat) :
    (es : List Expr) → Expr.toClosedAll c' fuel es =
      (Expr.toClosedAll c fuel es).map (mapOutcome (ReadingError.rename ρ) (List.map (rename ρ)))
  | [] => rfl
  | e :: es => by
    rw [Expr.toClosedAll, Expr.toClosedAll, h.toClosed hfind fuel e, h.toClosedAll hfind fuel es]
    match e.toClosed c fuel with
    | none => rfl
    | some (.error e) => rfl
    | some (.ok t) =>
      match Expr.toClosedAll c fuel es with
      | none => rfl
      | some (.error e) => rfl
      | some (.ok ts) => rfl
end

/-- **Texts denote the same closed types.** -/
theorem Renames.readClosed (h : Renames ρ c c') (hfind : FindsAlike ρ c c') (fuel : Nat)
    (src : String) : c'.readClosed fuel src =
      (c.readClosed fuel src).map (mapOutcome (ReadingError.rename ρ) (rename ρ)) := by
  rw [Catalog.readClosed, Catalog.readClosed]
  cases Expr.parse src with
  | error e => rfl
  | ok e => exact h.toClosed hfind fuel e

end Catalog

end TypeResolution
