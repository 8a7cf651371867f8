/-!
# Types as the catalog's users see them

A type is a generic definition applied to arguments, an array, a pointer or a by-reference type.
Definitions are referred to by number; what a number stands for is the catalog's business
(`TypeResolution.Catalog`). A type may also mention the numbered parameters of the definition
that it is declared in, and is *closed* if it mentions none.

`Ty` is nested through the argument list of a nominal type. Functions on it come in pairs, one for
a type and one for a list, and the second is shown to be the list operation that its name says.
-/

namespace TypeResolution

/-- The number of a definition: its position in registration order. -/
abbrev DefIndex := Nat

/-- A type. No arity and no bound is checked here; `Catalog.instantiate` does that. -/
inductive Ty where
  /-- the parameter at a position of the enclosing definition -/
  | param (index : Nat)
  /-- a definition applied to arguments -/
  | named (definition : DefIndex) (args : List Ty)
  /-- an array with `rank` dimensions -/
  | array (rank : Nat) (elem : Ty)
  /-- a pointer -/
  | pointer (elem : Ty)
  /-- a by-reference type -/
  | byRef (elem : Ty)

namespace Ty

instance : Inhabited Ty := ⟨.param 0⟩

/-- Induction over a type, with the hypothesis for every argument of a nominal type. -/
@[induction_eliminator]
theorem induction {motive : Ty → Prop}
    (param : ∀ index, motive (.param index))
    (named : ∀ definition args, (∀ t ∈ args, motive t) → motive (.named definition args))
    (array : ∀ rank elem, motive elem → motive (.array rank elem))
    (pointer : ∀ elem, motive elem → motive (.pointer elem))
    (byRef : ∀ elem, motive elem → motive (.byRef elem)) :
    ∀ t, motive t :=
  @Ty.rec motive (fun ts => ∀ t ∈ ts, motive t) param named array pointer byRef
    (fun _ h => nomatch h)
    (fun _ _ head tail => fun t ht => by
      cases ht with
      | head => exact head
      | tail _ h => exact tail t h)

/-! ## Equality -/

mutual
/-- Structural equality of types. -/
def decEq : (s t : Ty) → Decidable (s = t)
  | .param i, .param j => if h : i = j then .isTrue (by rw [h]) else .isFalse (by simp [h])
  | .named d as, .named e bs =>
    if hd : d = e then
      match decEqList as bs with
      | .isTrue h => .isTrue (by rw [hd, h])
      | .isFalse h => .isFalse (by simp [h])
    else .isFalse (by simp [hd])
  | .array m s, .array n t =>
    if hm : m = n then
      match decEq s t with
      | .isTrue h => .isTrue (by rw [hm, h])
      | .isFalse h => .isFalse (by simp [h])
    else .isFalse (by simp [hm])
  | .pointer s, .pointer t =>
    match decEq s t with
    | .isTrue h => .isTrue (by rw [h])
    | .isFalse h => .isFalse (by simp [h])
  | .byRef s, .byRef t =>
    match decEq s t with
    | .isTrue h => .isTrue (by rw [h])
    | .isFalse h => .isFalse (by simp [h])
  | .param _, .named .. => .isFalse (by simp)
  | .param _, .array .. => .isFalse (by simp)
  | .param _, .pointer _ => .isFalse (by simp)
  | .param _, .byRef _ => .isFalse (by simp)
  | .named .., .param _ => .isFalse (by simp)
  | .named .., .array .. => .isFalse (by simp)
  | .named .., .pointer _ => .isFalse (by simp)
  | .named .., .byRef _ => .isFalse (by simp)
  | .array .., .param _ => .isFalse (by simp)
  | .array .., .named .. => .isFalse (by simp)
  | .array .., .pointer _ => .isFalse (by simp)
  | .array .., .byRef _ => .isFalse (by simp)
  | .pointer _, .param _ => .isFalse (by simp)
  | .pointer _, .named .. => .isFalse (by simp)
  | .pointer _, .array .. => .isFalse (by simp)
  | .pointer _, .byRef _ => .isFalse (by simp)
  | .byRef _, .param _ => .isFalse (by simp)
  | .byRef _, .named .. => .isFalse (by simp)
  | .byRef _, .array .. => .isFalse (by simp)
  | .byRef _, .pointer _ => .isFalse (by simp)

/-- Structural equality of lists of types. -/
def decEqList : (ss ts : List Ty) → Decidable (ss = ts)
  | [], [] => .isTrue rfl
  | [], _ :: _ => .isFalse (by simp)
  | _ :: _, [] => .isFalse (by simp)
  | s :: ss, t :: ts =>
    match decEq s t with
    | .isFalse h => .isFalse (by simp [h])
    | .isTrue h =>
      match decEqList ss ts with
      | .isTrue hs => .isTrue (by rw [h, hs])
      | .isFalse hs => .isFalse (by simp [hs])
end

instance : DecidableEq Ty := decEq

/-! ## Parts -/

/-- A non-generic nominal type. -/
def nominal (definition : DefIndex) : Ty := .named definition []

/-- The definition of a nominal type. -/
def definition? : Ty → Option DefIndex
  | .named d _ => some d
  | _ => none

/-- The arguments of a nominal type; other types have none. -/
def args : Ty → List Ty
  | .named _ ts => ts
  | _ => []

/-! ## Closed types -/

mutual
/-- Whether a type mentions no parameter. -/
def isClosed : Ty → Bool
  | .param _ => false
  | .named _ ts => allClosed ts
  | .array _ t => t.isClosed
  | .pointer t => t.isClosed
  | .byRef t => t.isClosed

/-- Whether no type of a list mentions a parameter. -/
def allClosed : List Ty → Bool
  | [] => true
  | t :: ts => t.isClosed && allClosed ts
end

theorem allClosed_eq_all (ts : List Ty) : allClosed ts = ts.all isClosed := by
  induction ts with
  | nil => rfl
  | cons t ts ih => simp [allClosed, ih]

/-! ## Substitution -/

mutual
/-- Puts the argument at position `i` in place of every parameter `i`. A parameter without an
argument stays. -/
def subst (σ : List Ty) : Ty → Ty
  | .param i => σ.getD i (.param i)
  | .named d ts => .named d (substAll σ ts)
  | .array n t => .array n (t.subst σ)
  | .pointer t => .pointer (t.subst σ)
  | .byRef t => .byRef (t.subst σ)

/-- Substitution in every type of a list. -/
def substAll (σ : List Ty) : List Ty → List Ty
  | [] => []
  | t :: ts => t.subst σ :: substAll σ ts
end

theorem substAll_eq_map (σ ts : List Ty) : substAll σ ts = ts.map (subst σ) := by
  induction ts with
  | nil => rfl
  | cons t ts ih => simp [substAll, ih]

/-- A closed type has nothing to substitute. -/
theorem subst_of_isClosed (σ : List Ty) (t : Ty) (h : t.isClosed = true) : t.subst σ = t := by
  induction t with
  | param i => simp [isClosed] at h
  | named d ts ih =>
    simp only [isClosed, allClosed_eq_all, List.all_eq_true] at h
    simp only [subst, substAll_eq_map, Ty.named.injEq, true_and]
    exact (List.map_congr_left fun t ht => ih t ht (h t ht)).trans (List.map_id ts)
  | array n t ih => simp [subst, ih (by simpa [isClosed] using h)]
  | pointer t ih => simp [subst, ih (by simpa [isClosed] using h)]
  | byRef t ih => simp [subst, ih (by simpa [isClosed] using h)]

end Ty

end TypeResolution
