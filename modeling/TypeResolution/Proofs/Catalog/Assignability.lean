import TypeResolution.Proofs.Catalog.Declarations

/-!
# What assignability amounts to

Whatever its fuel, assignability never denies what inheritance says (`isAssignable_of_inherits`),
and it never affirms anything between types of unrelated definitions: the source inherits some
instance of the target's definition (`exists_inherits_of_isAssignable`).

Where assignability comes to an answer, so does instantiation, which asks it for the bounds. The
module ends with *flat* declarations, which apply a definition to bare parameters.

Both are one-sided on purpose. A catalog may make assignability ask itself the same question again
and again, and then there is no answer to describe. So the first lemma speaks of answers only, and
that there is one is a hypothesis wherever it is needed (`AssignabilityEnds`).
-/

namespace TypeResolution

open Filter

/-! ## Quantified tests

Tests are lazy and may run out of fuel. A test of a list affirms if some element is affirmed and
none before it is open; it denies only if all elements are denied. So an answer tells more in one
direction than in the other. -/

namespace Fueled

variable {α : Type} {p : α → Fueled Bool} {as : List α}

/-- If some test of a row passes, then none of those that pass is overlooked. -/
theorem any_eq_true (h : any p as = some true) : ∃ a ∈ as, p a = some true := by
  induction as with
  | nil => cases h
  | cons a as ih =>
    rw [any] at h
    rcases hp : p a with _ | _ | _
    · rw [hp] at h
      cases h
    · rw [hp] at h
      obtain ⟨x, hx, hpx⟩ := ih h
      exact ⟨x, List.mem_cons_of_mem a hx, hpx⟩
    · exact ⟨a, List.mem_cons_self, hp⟩

/-- If a row of tests fails, then each of them fails. -/
theorem any_eq_false (h : any p as = some false) : ∀ a ∈ as, p a = some false := by
  induction as with
  | nil => exact fun a ha => absurd ha List.not_mem_nil
  | cons a as ih =>
    rw [any] at h
    rcases hp : p a with _ | _ | _
    · rw [hp] at h
      cases h
    · rw [hp] at h
      exact List.forall_mem_cons.mpr ⟨hp, ih h⟩
    · rw [hp] at h
      cases h

/-- Where a disjunction holds, one of its sides does. -/
theorem or_eq_true {a : Fueled Bool} {b : Unit → Fueled Bool} (h : or a b = some true) :
    a = some true ∨ b () = some true := by
  rcases a with _ | _ | _
  · cases h
  · exact .inr h
  · exact .inl rfl

/-- Where it is denied, both sides are. -/
theorem or_eq_false {a : Fueled Bool} {b : Unit → Fueled Bool} (h : or a b = some false) :
    a = some false ∧ b () = some false := by
  rcases a with _ | _ | _
  · cases h
  · exact ⟨rfl, h⟩
  · cases h

end Fueled

namespace Catalog

variable (c : Catalog)

/-! ## Inheritance and assignability -/

/-- A type is assignable to itself, and this needs no other answer. -/
theorem isAssignable_self (fuel : Nat) (t : Ty) : c.isAssignable (fuel + 1) t t = some true := by
  rw [isAssignable, if_pos rfl]

variable {c}

/-- **What inherits is assignable**: no answer to the contrary is given. -/
theorem isAssignable_of_inherits {fuel : Nat} {target source : Ty} {answer : Bool}
    (hanswer : c.isAssignable fuel target source = some answer) (h : c.Inherits source target) :
    answer = true := by
  cases fuel with
  | zero => cases hanswer
  | succ fuel =>
    rw [isAssignable] at hanswer
    split at hanswer
    · exact (Option.some.inj hanswer).symm
    -- Denying would mean to have denied every ancestor of the source, and the target is one of
    -- them.
    · cases answer with
      | true => rfl
      | false =>
        obtain ⟨-, hanswer⟩ := Fueled.or_eq_false hanswer
        split at hanswer
        · cases hanswer
        · next above habove =>
          have htarget := Fueled.any_eq_false hanswer target ((c.mem_ancestors_iff habove).mpr h)
          rw [if_pos rfl] at htarget
          cases htarget

/-- Convertible instances are instances of one definition. -/
theorem definition?_of_instanceConvertible {assignable : Ty → Ty → Fueled Bool} {target source : Ty}
    (h : c.instanceConvertible assignable target source = some true) :
    source.head? = target.head? := by
  rw [instanceConvertible.eq_def] at h
  split at h
  · split at h
    · next hsame => exact congrArg some hsame.1.symm
    · cases h
  · cases h

/-- Arrays that are convertible have one rank, so they have the same definition. -/
theorem head?_of_arrayConvertible {assignable : Ty → Ty → Fueled Bool} {target source : Ty}
    (h : c.arrayConvertible assignable target source = some true) :
    source.head? = target.head? := by
  rw [arrayConvertible.eq_def] at h
  split at h
  · rfl
  · cases h

/-- **Only relatives are assignable**: the source inherits some instance of the definition that the
target is an instance of. -/
theorem exists_inherits_of_isAssignable {fuel : Nat} {target source : Ty}
    (h : c.isAssignable fuel target source = some true) :
    ∃ a, c.Inherits source a ∧ a.head? = target.head? := by
  cases fuel with
  | zero => cases h
  | succ fuel =>
    rw [isAssignable] at h
    split at h
    · next heq => exact ⟨source, .refl c source, heq ▸ rfl⟩
    -- There are three reasons to affirm: the types are equal, they are arrays of convertible
    -- elements, or some ancestor of the source passes a test, which is about an instance of the
    -- target's definition.
    · rcases Fueled.or_eq_true h with h | h
      · exact ⟨source, .refl c source, head?_of_arrayConvertible h⟩
      · split at h
        · cases h
        · next above habove =>
          obtain ⟨a, ha, htest⟩ := Fueled.any_eq_true h
          refine ⟨a, (c.mem_ancestors_iff habove).mp ha, ?_⟩
          split at htest
          · next heq => exact heq ▸ rfl
          · exact definition?_of_instanceConvertible htest

/-! ## Questions that end

The fuel bounds how deep questions lead to others. A question that ends under some fuel has the same
answer under more, so `AssignabilityEnds` asks for one amount of fuel for each question, and
everything that is built from finitely many questions then settles. -/

/-- Every question of assignability comes to an answer. -/
def AssignabilityEnds (c : Catalog) : Prop :=
  ∀ target source, ∃ fuel answer, c.isAssignable fuel target source = some answer

/-- The answer to a question does not change any more from some fuel on. -/
theorem AssignabilityEnds.settled (h : c.AssignabilityEnds) (target source : Ty) :
    Fueled.Settled fun fuel => c.isAssignable fuel target source := by
  obtain ⟨fuel, answer, hanswer⟩ := h target source
  exact .of_eq_some (fun h => c.isAssignable_le h target source) hanswer

/-- What a type inherits is assignable from it, as soon as there is fuel enough for an answer. -/
theorem Inherits.eventually_isAssignable (hends : c.AssignabilityEnds) {target source : Ty}
    (h : c.Inherits source target) :
    ∀ᶠ fuel in atTop, c.isAssignable fuel target source = some true := by
  obtain ⟨answer, hanswer⟩ := hends.settled target source
  filter_upwards [hanswer] with fuel hanswer
  rw [hanswer, isAssignable_of_inherits hanswer h]

/-- A value of the second type can stand where the first is expected. -/
def Assignable (c : Catalog) (target source : Ty) : Prop :=
  ∃ fuel, c.isAssignable fuel target source = some true

/-- A type is assignable to what it inherits. -/
theorem AssignabilityEnds.assignable_of_inherits (hassign : c.AssignabilityEnds) {t a : Ty}
    (h : c.Inherits t a) : c.Assignable a t := (h.eventually_isAssignable hassign).exists

/-- Assignability comes to an answer wherever the bounds of some parameters ask for it. -/
def BoundsEnd (c : Catalog) (args : List Ty) (params : List (TypeParam × Ty)) : Prop :=
  ∀ p ∈ params, ∀ required, .implements required ∈ p.1.bounds →
    Fueled.Settled fun fuel => c.isAssignable fuel (required.subst args) p.2

/-- Looking for the first bound that is missed comes to an end, if the questions for bounds do. -/
theorem settled_firstMissed {args : List Ty} {params : List (TypeParam × Ty)}
    (h : c.BoundsEnd args params) : Fueled.Settled fun fuel => c.firstMissed fuel args params := by
  induction params with
  | nil => exact .const none
  | cons p rest ih =>
    obtain ⟨hp, hrest⟩ := List.forall_mem_cons.mp h
    have hbounds : Fueled.Settled fun fuel => Fueled.all (c.meets fuel args p.2) p.1.bounds := by
      refine .all fun bound hbound => ?_
      cases bound with
      | referenceType => exact .const _
      | valueType => exact .const _
      | implements required => exact hp required hbound
    obtain ⟨met, hmet⟩ := hbounds
    obtain ⟨missed, hmissed⟩ := ih hrest
    refine ⟨if met then missed else some p, ?_⟩
    filter_upwards [hmet, hmissed] with fuel hmet hmissed
    rw [firstMissed.eq_def]
    dsimp only
    rw [hmet]
    cases met with
    | false => rfl
    | true => exact hmissed

/-- Instantiation comes to an end if assignability does, which it asks for the bounds. -/
theorem settled_instantiate (d : DefIndex) (args : List Ty)
    (h : checkArgs d (c.arity d) args = .ok () →
      c.BoundsEnd (args.map storedArg) ((c.definition d).params.zip (args.map storedArg))) :
    Fueled.Settled fun fuel => c.instantiate fuel d args := by
  unfold instantiate
  cases hcheck : checkArgs d (c.arity d) args with
  | error e => exact .const _
  | ok _ =>
    cases Ty.structural? d args with
    | some result => exact .const _
    | none =>
      obtain ⟨missed, hmissed⟩ := settled_firstMissed (h hcheck)
      cases missed with
      | none =>
        refine ⟨.ok (.named d (args.map storedArg)), ?_⟩
        filter_upwards [hmissed] with fuel hmissed
        simp only [hmissed]
      | some p =>
        refine ⟨.error (.bound d p.1.name p.2), ?_⟩
        filter_upwards [hmissed] with fuel hmissed
        simp only [hmissed]

/-- So whatever is instantiated, it comes to an end if all questions do. -/
theorem AssignabilityEnds.settled_instantiate (h : c.AssignabilityEnds) (d : DefIndex)
    (args : List Ty) : Fueled.Settled fun fuel => c.instantiate fuel d args :=
  Catalog.settled_instantiate d args fun _ _ _ _ _ => h.settled _ _

/-! ## Ranks

The rank of an array is encoded by nesting one stand-in, whose parameter is bounded by an interface
of the stand-ins. To know that such an encoding is well formed, the bound has to be checked at every
level, and this is a question of assignability like any other. -/

section Ranks

variable (hranks : ∀ d ∈ [rankZero, rankSucc],
  Ty.nominal rankInterface ∈ (c.definition d).interfaces)
include hranks

/-- Every rank encoding declares the interface of ranks. -/
theorem inherits_rankInterface (n : Nat) :
    c.Inherits (rankEncoding n) (.nominal rankInterface) := by
  have hdeclares : c.Declares (rankEncoding n) (.nominal rankInterface) := by
    cases n with
    | zero => exact List.mem_map.mpr ⟨_, hranks rankZero (by decide), rfl⟩
    | succ n => exact List.mem_map.mpr ⟨_, hranks rankSucc (by decide), rfl⟩
  exact ⟨_, .refl, .single hdeclares⟩

/-- Where both definitions that ranks are encoded with are declared to be ranks, every rank is
canonical: `RankSucc` bounds its argument by the interface of ranks. -/
theorem AssignabilityEnds.canonical_rankEncoding (hassign : c.AssignabilityEnds) (n : Nat) :
    c.Canonical (rankEncoding n) := by
  -- The successor is bounded by the interface of ranks, and by induction what it is applied to is a
  -- well-formed encoding that meets this bound.
  induction n with
  | zero => exact canonical_nominal c.arity_rankZero
  | succ n ih =>
    have hparams : (c.definition rankSucc).params = [rankParam "N"] :=
      (Prod.mk.inj (Prod.mk.inj (c.signature_standIn (d := rankSucc) rfl)).2).2
    have hstored : [rankEncoding n].map storedArg = [rankEncoding n] := by cases n <;> rfl
    obtain ⟨fuel, hrank⟩ :=
      ((inherits_rankInterface hranks n).eventually_isAssignable hassign).exists
    have hmeets : c.meets fuel [rankEncoding n] (rankEncoding n)
        (.implements (.nominal rankInterface)) = some true := hrank
    have hmissed : c.firstMissed fuel ([rankEncoding n].map storedArg)
        ((c.definition rankSucc).params.zip ([rankEncoding n].map storedArg)) = some none := by
      rw [hparams, hstored]
      simp [firstMissed, rankParam, Fueled.all, hmeets]
    have hcanonical := canonical_of_firstMissed rankSucc (List.forall_mem_singleton.mpr ih)
      c.arity_rankSucc.symm rfl hmissed
    rwa [hstored] at hcanonical

end Ranks

end Catalog

/-! ## Flat declarations

If a declaration applies definitions to bare parameters only, then inheriting never builds anything
new out of arguments; it selects and permutes them. This is the shape of most hierarchies, the base
library among them, and it makes everything about the walks easy: depth does not grow. -/

namespace Ty

mutual
/-- How deep arguments and elements are nested in a type. A type without any has depth 0. -/
def depth : Ty → Nat
  | .param _ => 0
  | .named _ ts => argsDepth ts
  | .array _ t => t.depth + 1
  | .pointer t => t.depth + 1
  | .byRef t => t.depth + 1

/-- The depth of a definition over some arguments. -/
def argsDepth : List Ty → Nat
  | [] => 0
  | t :: ts => max (t.depth + 1) (argsDepth ts)
end

/-- The arguments of a type are less deep than the type. -/
theorem depth_lt_of_mem_args {s t : Ty} (h : t ∈ s.args) : t.depth < s.depth := by
  cases s with
  | named d ts =>
    rw [args] at h
    rw [depth]
    induction ts with
    | nil => exact absurd h List.not_mem_nil
    | cons u us ih =>
      rw [argsDepth]
      rcases List.mem_cons.mp h with rfl | h
      · omega
      · have := ih h
        omega
  | _ => exact absurd h List.not_mem_nil

/-- Only parameters and non-generic types have depth 0. -/
theorem cases_of_depth_eq_zero {t : Ty} (h : t.depth = 0) :
    (∃ i, t = .param i) ∨ ∃ d, t = .nominal d := by
  cases t with
  | param i => exact .inl ⟨i, rfl⟩
  | named d ts =>
    cases ts with
    | nil => exact .inr ⟨d, rfl⟩
    | cons u us =>
      rw [depth, argsDepth] at h
      omega
  | _ => cases h

/-- Whether a type is a definition over bare parameters and non-generic types. -/
def isShallow : Ty → Bool
  | .named _ ts => ts.all fun t => decide (t.depth = 0)
  | _ => false

/-- A shallow type applies a definition to types without depth. -/
theorem exists_of_isShallow {s : Ty} (h : s.isShallow = true) :
    ∃ d ts, s = .named d ts ∧ ∀ t ∈ ts, t.depth = 0 := by
  cases s with
  | named d ts => exact ⟨d, ts, rfl, fun t ht => of_decide_eq_true (List.all_eq_true.mp h t ht)⟩
  | _ => cases h

/-- Whether a type is a definition over bare parameters. -/
def isFlat : Ty → Bool
  | .named _ ts => ts.all fun t => (t matches .param _)
  | _ => false

/-- A flat type applies a definition to bare parameters. -/
theorem exists_of_isFlat {s : Ty} (h : s.isFlat = true) :
    ∃ d ts, s = .named d ts ∧ ∀ t ∈ ts, ∃ i, t = .param i := by
  cases s with
  | named d ts =>
    refine ⟨d, ts, rfl, fun t ht => ?_⟩
    have hparam := List.all_eq_true.mp h t ht
    cases t with
    | param i => exact ⟨i, rfl⟩
    | _ => cases hparam
  | _ => cases h

/-- Flat types are shallow. -/
theorem isShallow_of_isFlat {s : Ty} (h : s.isFlat = true) : s.isShallow = true := by
  obtain ⟨d, ts, rfl, hts⟩ := exists_of_isFlat h
  refine List.all_eq_true.mpr fun t ht => decide_eq_true ?_
  obtain ⟨i, rfl⟩ := hts t ht
  rfl

end Ty

namespace Catalog

/-- Every declared type is flat. -/
structure Flat (c : Catalog) : Prop where
  /-- the bases and interfaces of definitions -/
  declared : ∀ d, ∀ s ∈ c.declared d, s.isFlat = true
  /-- the base of arrays -/
  arrayBase : ∀ s ∈ c.arrayBase, s.isFlat = true
  /-- the interfaces of arrays -/
  arrayInterfaces : ∀ s ∈ c.arrayInterfaces, s.isFlat = true

/-- The base library is declared flat. -/
theorem baseLibrary_flat : baseLibrary.Flat where
  declared := baseLibrary.forall_declared (by decide)
  arrayBase := by decide
  arrayInterfaces := by decide

end Catalog

end TypeResolution
