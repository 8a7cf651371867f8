import TypeResolution.Ty.Basic

/-!
# One-way matching

`assign? pattern actual σ` looks for what the parameters of `pattern` have to stand for so that it
becomes `actual`. Only the pattern has unknowns; a parameter that occurs twice must be given the
same type at both places, and one that `σ` already knows must agree with it.
-/

namespace TypeResolution

/-- What is known of each parameter, by position. -/
abbrev Assignment := List (Option Ty)

namespace Ty

mutual
/-- Extends an assignment so that `pattern` becomes `actual`, or `none` if nothing does. A
parameter beyond the end of the assignment has no solution. -/
def assign? : (pattern actual : Ty) → Assignment → Option Assignment
  | .param i, actual, σ =>
    match σ[i]? with
    | none => none
    | some none => some (σ.set i (some actual))
    | some (some known) => if known = actual then some σ else none
  | .named d ts, .named e us, σ =>
    if d = e ∧ ts.length = us.length then assignAll? ts us σ else none
  | .array m t, .array n u, σ => if m = n then assign? t u σ else none
  | .pointer t, .pointer u, σ => assign? t u σ
  | .byRef t, .byRef u, σ => assign? t u σ
  | _, _, _ => none

/-- Matches two lists position by position, from left to right, as far as both reach. -/
def assignAll? : (patterns actuals : List Ty) → Assignment → Option Assignment
  | t :: ts, u :: us, σ => (assign? t u σ).bind (assignAll? ts us)
  | _, _, σ => some σ
end

end Ty

end TypeResolution
