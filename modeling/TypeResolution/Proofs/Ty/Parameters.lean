import TypeResolution.Ty.Basic

/-!
# The parameters that a type mentions

A type that is declared in a definition with `n` parameters should mention parameters below `n`
only. Then arguments for all of them are all that it needs: what is put in afterwards for the
parameters of these arguments may as well be put into them before (`subst_subst`). And then it has
no parameters but theirs (`mentions_subst`).
-/

namespace TypeResolution.Ty

mutual
/-- Whether a type mentions only parameters below `n`. -/
def paramsBelow (n : Nat) : Ty → Bool
  | .param i => decide (i < n)
  | .named _ ts => allParamsBelow n ts
  | .array _ t => t.paramsBelow n
  | .pointer t => t.paramsBelow n
  | .byRef t => t.paramsBelow n

/-- Whether all types of a list mention only parameters below `n`. -/
def allParamsBelow (n : Nat) : List Ty → Bool
  | [] => true
  | t :: ts => t.paramsBelow n && allParamsBelow n ts
end

/-- The test of a list is the test of all its members. -/
theorem allParamsBelow_eq_all (n : Nat) (ts : List Ty) :
    allParamsBelow n ts = ts.all (paramsBelow n) := by
  induction ts with
  | nil => rfl
  | cons t ts ih => rw [allParamsBelow, ih, List.all_cons]

/-- A closed type is one that has no parameter at all to mention. -/
theorem isClosed_eq_paramsBelow_zero (t : Ty) : t.isClosed = t.paramsBelow 0 := by
  induction t with
  | param i => rfl
  | named d ts ih =>
    rw [isClosed, paramsBelow, allClosed_eq_all, allParamsBelow_eq_all, Bool.eq_iff_iff,
      List.all_eq_true, List.all_eq_true]
    exact ⟨fun h t ht => ih t ht ▸ h t ht, fun h t ht => (ih t ht).trans (h t ht)⟩
  | array _ t ih => exact ih
  | pointer t ih => exact ih
  | byRef t ih => exact ih

/-- A parameter becomes one of the types that are put in. -/
theorem subst_param_mem {i : Nat} {σ : List Ty} (h : i < σ.length) : (param i).subst σ ∈ σ := by
  rw [subst, List.getD_eq_getElem?_getD, List.getElem?_eq_getElem h]
  exact List.getElem_mem h

/-- Putting in arguments and then something for the parameters of these is putting in the arguments
with this already put in. -/
theorem subst_subst {n : Nat} {s : Ty} (h : s.paramsBelow n = true) {ts : List Ty}
    (hlength : n ≤ ts.length) (σ : List Ty) :
    (s.subst ts).subst σ = s.subst (ts.map (subst σ)) := by
  induction s with
  | param i =>
    have hlt : i < ts.length := Nat.lt_of_lt_of_le (of_decide_eq_true h) hlength
    simp only [subst, List.getD_eq_getElem?_getD, List.getElem?_map,
      List.getElem?_eq_getElem hlt, Option.map_some, Option.getD_some]
  | named d us ih =>
    rw [paramsBelow, allParamsBelow_eq_all, List.all_eq_true] at h
    simp only [subst, substAll_eq_map, List.map_map, named.injEq, true_and]
    exact List.map_congr_left fun u hu => ih u hu (h u hu)
  | array rank elem ih => rw [subst, subst, subst, ih h]
  | pointer elem ih => rw [subst, subst, subst, ih h]
  | byRef elem ih => rw [subst, subst, subst, ih h]

/-! ## Single parameters

Of one parameter it may matter whether a type mentions it at all. What is put in for the others then
makes no difference to that. -/

mutual
/-- Whether a type mentions a parameter. -/
def mentions (i : Nat) : Ty → Bool
  | .param j => decide (j = i)
  | .named _ ts => anyMentions i ts
  | .array _ t => t.mentions i
  | .pointer t => t.mentions i
  | .byRef t => t.mentions i

/-- Whether some type of a list mentions a parameter. -/
def anyMentions (i : Nat) : List Ty → Bool
  | [] => false
  | t :: ts => t.mentions i || anyMentions i ts
end

/-- A list mentions a parameter if one of its members does. -/
theorem anyMentions_eq_any (i : Nat) (ts : List Ty) : anyMentions i ts = ts.any (mentions i) := by
  induction ts with
  | nil => rfl
  | cons t ts ih => rw [anyMentions, ih, List.any_cons]

/-- A closed type mentions no parameter. -/
theorem mentions_of_isClosed (i : Nat) {t : Ty} (h : t.isClosed = true) : t.mentions i = false := by
  induction t with
  | param j => cases h
  | named d ts ih =>
    rw [isClosed, allClosed_eq_all, List.all_eq_true] at h
    rw [mentions, anyMentions_eq_any, List.any_eq_false]
    simpa using fun t ht => ih t ht (h t ht)
  | array rank elem ih => exact ih h
  | pointer elem ih => exact ih h
  | byRef elem ih => exact ih h

/-- With its parameters filled, a type mentions only what the arguments mention. -/
theorem mentions_subst {n : Nat} {s : Ty} (h : s.paramsBelow n = true) {ts : List Ty}
    (hlength : n ≤ ts.length) {i : Nat} (hts : ∀ t ∈ ts, t.mentions i = false) :
    (s.subst ts).mentions i = false := by
  induction s with
  | param j => exact hts _ (subst_param_mem (Nat.lt_of_lt_of_le (of_decide_eq_true h) hlength))
  | named d us ih =>
    rw [paramsBelow, allParamsBelow_eq_all, List.all_eq_true] at h
    rw [subst, mentions, anyMentions_eq_any, substAll_eq_map, List.any_map, List.any_eq_false]
    simpa using fun u hu => ih u hu (h u hu)
  | array rank elem ih => exact ih h
  | pointer elem ih => exact ih h
  | byRef elem ih => exact ih h

end TypeResolution.Ty
