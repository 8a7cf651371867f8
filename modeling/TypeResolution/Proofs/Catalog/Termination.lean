import Mathlib.Order.Filter.AtTopBot.Basic
import TypeResolution.Proofs.Catalog.MoreFuel

/-!
# Ancestry that ends

An answer that is reached under some fuel stays under more, so it is the answer under every fuel
that is large enough. "Under every fuel that is large enough" is the filter `atTop` on the naturals,
which lets several such facts be used together as one.

The combinators of fueled answers are compatible with it. If the parts of a test settle, then so
does the test, and the amount of fuel need not be named. It is the maximum of those of the parts,
taken by the filter.
-/

namespace TypeResolution

/-! ## Enough fuel

A function of the fuel is *settled* if it has one answer from some fuel on. For a function that is
monotone in its fuel this is the same as having an answer at all. -/

open Filter

/-- An answer that is reached stays. -/
theorem Fueled.eventually_eq_some {α : Type} {f : Nat → Fueled α}
    (hf : ∀ {n m}, n ≤ m → (f n).Le (f m)) {n : Nat} {a : α} (h : f n = some a) :
    ∀ᶠ m in atTop, f m = some a :=
  eventually_atTop.mpr ⟨n, fun _ hm => (hf hm).eq_some h⟩

/-- Under enough fuel there is an answer. -/
def Fueled.Settled {α : Type} (x : Nat → Fueled α) : Prop :=
  ∃ a, ∀ᶠ fuel in atTop, x fuel = some a

namespace Fueled.Settled

variable {α β : Type}

/-- A constant answer is settled. -/
theorem const (a : α) : Settled fun _ => some a := ⟨a, Eventually.of_forall fun _ => rfl⟩

/-- A monotone function is settled once it answers. -/
theorem of_eq_some {f : Nat → Fueled α} (hf : ∀ {n m}, n ≤ m → (f n).Le (f m)) {n : Nat} {a : α}
    (h : f n = some a) : Settled f := ⟨a, eventually_eq_some hf h⟩

/-- Changing the answer leaves it settled. -/
theorem map {x : Nat → Fueled α} (hx : Settled x) (f : α → β) :
    Settled fun fuel => (x fuel).map f := by
  obtain ⟨a, ha⟩ := hx
  refine ⟨f a, ?_⟩
  filter_upwards [ha] with fuel ha
  rw [ha, Option.map_some]

/-- A disjunction is settled if both sides are. -/
theorem or {x y : Nat → Fueled Bool} (hx : Settled x) (hy : Settled y) :
    Settled fun fuel => Fueled.or (x fuel) fun _ => y fuel := by
  obtain ⟨holds, hx⟩ := hx
  obtain ⟨holds', hy⟩ := hy
  refine ⟨holds || holds', ?_⟩
  filter_upwards [hx, hy] with fuel hx hy
  rw [hx, hy]
  cases holds <;> rfl

/-- A test of all elements is settled if it is for each of them. -/
theorem all {p : Nat → α → Fueled Bool} {as : List α}
    (hp : ∀ a ∈ as, Settled fun fuel => p fuel a) : Settled fun fuel => Fueled.all (p fuel) as := by
  induction as with
  | nil => exact const true
  | cons a as ih =>
    obtain ⟨holds, ha⟩ := hp a List.mem_cons_self
    obtain ⟨rest, hrest⟩ := ih fun x hx => hp x (List.mem_cons_of_mem a hx)
    refine ⟨holds && rest, ?_⟩
    filter_upwards [ha, hrest] with fuel ha hrest
    rw [Fueled.all, ha]
    cases holds with
    | false => rfl
    | true => exact hrest

/-- So is the test for some element. -/
theorem any {p : Nat → α → Fueled Bool} {as : List α}
    (hp : ∀ a ∈ as, Settled fun fuel => p fuel a) : Settled fun fuel => Fueled.any (p fuel) as := by
  induction as with
  | nil => exact const false
  | cons a as ih =>
    obtain ⟨holds, ha⟩ := hp a List.mem_cons_self
    obtain ⟨rest, hrest⟩ := ih fun x hx => hp x (List.mem_cons_of_mem a hx)
    refine ⟨holds || rest, ?_⟩
    filter_upwards [ha, hrest] with fuel ha hrest
    rw [Fueled.any, ha]
    cases holds with
    | false => exact hrest
    | true => rfl

end Fueled.Settled

/-- What holds of each element of a list under enough fuel holds of all of them under enough
fuel. -/
theorem eventually_forall_mem {α : Type} {as : List α} {p : Nat → α → Prop}
    (h : ∀ a ∈ as, ∀ᶠ n in atTop, p n a) : ∀ᶠ n in atTop, ∀ a ∈ as, p n a := by
  induction as with
  | nil => exact Eventually.of_forall fun n a ha => absurd ha List.not_mem_nil
  | cons a as ih =>
    have hfirst := h a List.mem_cons_self
    have hothers := ih fun b hb => h b (List.mem_cons_of_mem a hb)
    filter_upwards [hfirst, hothers] with n hn hns
    exact List.forall_mem_cons.mpr ⟨hn, hns⟩

namespace Catalog

variable (c : Catalog)

/-! ## Ancestors

Either the walk over the ancestors of a type ends with some fuel, or it ends with none. In the
second case nothing that has to look at the ancestors has an answer, so that they end is a
condition, on a type or on a whole hierarchy. -/

/-- The walk over the ancestors of a type comes to its end. -/
def AncestorsEnd (t : Ty) : Prop := ∃ fuel above, c.ancestors fuel t = some above

/-- Where the walk ends there is one list of ancestors for every fuel that is large enough. -/
theorem AncestorsEnd.eventually {c : Catalog} {t : Ty} (h : c.AncestorsEnd t) :
    ∃ above, ∀ᶠ fuel in atTop, c.ancestors fuel t = some above := by
  obtain ⟨fuel, above, habove⟩ := h
  exact ⟨above, Fueled.eventually_eq_some (fun h => c.ancestors_le h t) habove⟩

/-- The walks over the ancestors of all types come to their ends. -/
def HierarchyEnds : Prop := ∀ t, c.AncestorsEnd t

/-- Where all walks end, all lists of ancestors are settled. -/
theorem HierarchyEnds.settled {c : Catalog} (h : c.HierarchyEnds) (t : Ty) :
    Fueled.Settled fun fuel => c.ancestors fuel t := (h t).eventually

/-- The walk over the interfaces keeps what it has found. -/
theorem subset_addInterfaces {fuel : Nat} {found pending all : List Ty}
    (h : c.addInterfaces fuel found pending = some all) : found ⊆ all := by
  -- By induction on the fuel. A type that is visited is put behind what was found, so that this
  -- stays a part of the list.
  induction fuel generalizing found pending with
  | zero =>
    cases pending with
    | nil =>
      rw [addInterfaces] at h
      exact (Option.some.inj h) ▸ List.Subset.refl found
    | cons t pending => cases h
  | succ fuel ih =>
    cases pending with
    | nil =>
      rw [addInterfaces] at h
      exact (Option.some.inj h) ▸ List.Subset.refl found
    | cons t pending =>
      rw [addInterfaces] at h
      split at h
      · exact ih h
      · exact List.Subset.trans (List.subset_append_left found [t]) (ih h)

/-- A type is one of its ancestors. -/
theorem self_mem_ancestors {fuel : Nat} {t : Ty} {above : List Ty}
    (h : c.ancestors fuel t = some above) : t ∈ above := by
  rw [ancestors] at h
  split at h
  · cases h
  · split at h
    · cases h
    · next found hfound =>
      have ht : t ∈ found := c.subset_addInterfaces hfound List.mem_cons_self
      exact (Option.some.inj h) ▸ List.mem_append_left _ ht

/-- No definition inherits from itself: among the ancestors of a definition over its own parameters
there is no other instance of it. -/
def NoSelfInheritance : Prop :=
  ∀ d fuel above, c.ancestorsOfDefinition fuel d = some above →
    ∀ a ∈ above, a.head? = some d → a = c.openInstance d

/-- Whether under some fuel the walks over the ancestors of all definitions end and no definition is
seen to inherit from itself. -/
def checkSelfInheritance (fuel : Nat) : Bool :=
  (List.range c.defs.length).all fun d =>
    match c.ancestorsOfDefinition fuel d with
    | none => false
    | some above => above.all fun a => decide (a.head? = some d → a = c.openInstance d)

/-- A number that was never given out stands for a definition that declares nothing. -/
theorem definition_of_length_le {d : DefIndex} (hd : c.defs.length ≤ d) :
    c.definition d = { name := "" } := by
  rw [definition, List.getD_eq_getElem?_getD, List.getElem?_eq_none hd, Option.getD_none]

/-- A number that was never given out has no ancestors but itself. -/
theorem ancestorsOfDefinition_of_length_le {d : DefIndex} (hd : c.defs.length ≤ d) {fuel : Nat}
    {above : List Ty} (h : c.ancestorsOfDefinition fuel d = some above) :
    above = [c.openInstance d] := by
  have hdefinition := c.definition_of_length_le hd
  have hbase : c.declaredBase? (c.openInstance d) = none := by
    rw [openInstance, declaredBase?, hdefinition, Option.map_none]
  have hinterfaces : c.declaredInterfaces (c.openInstance d) = [] := by
    rw [openInstance, declaredInterfaces, hdefinition, List.map_nil]
  cases fuel with
  | zero => cases h
  | succ fuel =>
    rw [ancestorsOfDefinition, ancestors, bases, basesFrom, hbase] at h
    simp only [List.flatMap_cons, List.flatMap_nil, hinterfaces, List.append_nil, addInterfaces,
      unlisted, List.filter_nil, Option.some.injEq] at h
    exact h.symm

/-- The check decides self-inheritance. -/
theorem noSelfInheritance_of_check {fuel : Nat} (h : c.checkSelfInheritance fuel = true) :
    c.NoSelfInheritance := by
  intro d fuel' above habove a ha hhead
  by_cases hd : d < c.defs.length
  · have hcheck := List.all_eq_true.mp h d (List.mem_range.mpr hd)
    split at hcheck
    · cases hcheck
    · next checked hchecked =>
      -- both walks ended, so they listed the same ancestors
      obtain rfl : checked = above :=
        Fueled.eq_of_answers (fun h => c.ancestorsOfDefinition_le h d) hchecked habove
      exact of_decide_eq_true (List.all_eq_true.mp hcheck a ha) hhead
  · rw [c.ancestorsOfDefinition_of_length_le (Nat.le_of_not_lt hd) habove] at ha
    exact List.mem_singleton.mp ha

/-- The open type whose ancestors are matched with candidates in order to find out of which
instances of a type's definition these are ancestors. Arrays have no definition of their own; the
open type for arrays of some rank is the array of that rank over the parameter of the stand-in that
is its element. -/
def openForm (t : Ty) : Ty :=
  match t with
  | .array n _ => .array n (.param 1)
  | t => (t.head?.map c.openInstance).getD t

end Catalog

end TypeResolution
