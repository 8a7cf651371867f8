import TypeResolution.Ty.Basic

/-!
# Bindings: what the named type parameters stand for

A list of pairs, the latest first. Matching only ever adds a name that is not bound yet, so an
alternative that is given up leaves nothing behind: whoever goes on holds the list of before.
-/

namespace TypeResolution

/-- Named type parameters with the types that they are bound to. -/
abbrev Bindings := List (String × Ty)

namespace Bindings

/-- The type that a name is bound to; of two, the one bound last. -/
def get? (b : Bindings) (name : String) : Option Ty := List.lookup name b

/-- Binds a name, in place of what it was bound to before. -/
def bind (b : Bindings) (name : String) (t : Ty) : Bindings := (name, t) :: b

/-- Binds names to types position by position, as far as both lists reach. -/
def bindAll (b : Bindings) (names : List String) (ts : List Ty) : Bindings :=
  (names.zip ts).foldl (fun b p => b.bind p.1 p.2) b

theorem get?_bind_self (b : Bindings) (name : String) (t : Ty) :
    (b.bind name t).get? name = some t := by
  rw [get?, bind, List.lookup_cons_self]

theorem get?_bind_of_ne (b : Bindings) {name other : String} (t : Ty) (h : other ≠ name) :
    (b.bind name t).get? other = b.get? other := by
  rw [get?, bind, List.lookup_cons, beq_false_of_ne h]
  rfl

/-- Binding a new name leaves the others alone. -/
theorem get?_bind_of_notMem (b : Bindings) {names : List String} {name other : String} (t : Ty)
    (hnew : name ∉ names) (hother : other ∈ names) : (b.bind name t).get? other = b.get? other :=
  b.get?_bind_of_ne t fun heq => hnew (heq ▸ hother)

end Bindings

end TypeResolution
