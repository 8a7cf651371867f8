import TypeResolution.Proofs.Catalog.Canonical
import TypeResolution.Proofs.Catalog.Termination
import TypeResolution.Proofs.Unification.MoreFuel

/-!
# Constraints that describe a type

A constraint describes a type if it asks for an instance of the definition that the type is an
instance of, with arguments that describe the type's arguments. Variances do not matter for that.

The constraint that a canonical type is expanded to describes it, in whatever form the type is
stored (`describes_ofType`), unless the type mentions a kind marker: a constraint on a kind marker
asks for any type of that kind. With enough fuel a constraint that describes a type stands for that
single type (`Describes.eventually_singleType`).
-/

namespace TypeResolution

open Filter

/-! ## Kind markers

A constraint on one of them tests the kind of the candidate and looks at nothing else, so it does
not stand for a single type. -/

namespace Ty

mutual
/-- Whether a type mentions one of the two kind markers. -/
def mentionsKindMarker : Ty → Bool
  | .param _ => false
  | .named d ts => Constraint.isKindMarker d || anyMentionsKindMarker ts
  | .array _ t => t.mentionsKindMarker
  | .pointer t => t.mentionsKindMarker
  | .byRef t => t.mentionsKindMarker

/-- Whether some type of a list mentions a kind marker. -/
def anyMentionsKindMarker : List Ty → Bool
  | [] => false
  | t :: ts => t.mentionsKindMarker || anyMentionsKindMarker ts
end

/-- A list mentions a kind marker if one of its members does. -/
theorem anyMentionsKindMarker_eq_any (ts : List Ty) :
    anyMentionsKindMarker ts = ts.any mentionsKindMarker := by
  induction ts with
  | nil => rfl
  | cons t ts ih => rw [anyMentionsKindMarker, ih, List.any_cons]

/-- Storing an argument brings in no kind marker and loses none. -/
theorem mentionsKindMarker_storedArg (t : Ty) :
    (Catalog.storedArg t).mentionsKindMarker = t.mentionsKindMarker := by
  have hpointer : Constraint.isKindMarker Marker.pointer.definition = false := rfl
  have hbyRef : Constraint.isKindMarker Marker.byRef.definition = false := rfl
  cases t <;> simp [Catalog.storedArg, nominalForm, mentionsKindMarker, anyMentionsKindMarker,
    hpointer, hbyRef]

end Ty

variable (c : Catalog)

/-! ## Descriptions

The predicate follows the structure of the constraint. It asks nothing of the type but to be the
instance that the constraint spells out, so it is independent of the form in which the type is
written. -/

/-- A constraint that asks for a type argument by argument, with any variances. -/
inductive Describes : Constraint → Ty → Prop where
  /-- it asks for an instance of the definition over arguments that describe the type's -/
  | intro {d : DefIndex} {v : Variance} {ks : List Constraint} {ts : List Ty} {t : Ty} {fuel : Nat}
      (hkind : Constraint.isKindMarker d = false) (hlength : ks.length = ts.length)
      (hargs : ∀ p ∈ ks.zip ts, Describes p.1 p.2)
      (h : c.instantiate fuel d ts = some (.ok t)) : Describes (.instanceOf d v ks) t

variable {c}

/-- A description remains one under another variance. -/
theorem Describes.withVariance {k : Constraint} {t : Ty} (h : Describes c k t) (v : Variance) :
    Describes c (k.withVariance v) t := by
  obtain ⟨hkind, hlength, hargs, hinstance⟩ := h
  exact .intro hkind hlength hargs hinstance

/-- What holds of the types beside constraints holds of all types, if there are as many
constraints. -/
theorem forall_mem_of_zip {P : Ty → Prop} {ks : List Constraint} {ts : List Ty}
    (hlength : ks.length = ts.length) (h : ∀ p ∈ ks.zip ts, P p.2) : ∀ a ∈ ts, P a := by
  have hsnd : (ks.zip ts).map Prod.snd = ts := List.map_snd_zip (Nat.le_of_eq hlength.symm)
  intro a ha
  rw [← hsnd] at ha
  obtain ⟨p, hp, rfl⟩ := List.mem_map.mp ha
  exact h p hp

/-- What is described is canonical. -/
theorem Describes.canonical {k : Constraint} {t : Ty} (h : Describes c k t) : c.Canonical t := by
  induction h with
  | intro hkind hlength hargs hinstance ih =>
    exact .intro (forall_mem_of_zip hlength ih) hinstance

/-! ## Types are described by what they are expanded to

The induction goes along the construction of the canonical type, with two forms to expand at every
argument: the type, and the form in which it is stored. Both are described, and they describe the
same. -/

/-- The constraint for a rank describes the encoding of the rank. -/
theorem describes_rank {n : Nat} (h : c.Canonical (rankEncoding n)) :
    Describes c (Constraint.rank n) (rankEncoding n) := by
  induction n with
  | zero =>
    obtain ⟨hargs, hinstance⟩ := h
    rcases (c.instantiate_ok hinstance).2 with hs | ⟨-, ht, -⟩
    · exact absurd hs (Ty.structural?_ne_rankEncoding _ _ 0)
    · obtain ⟨rfl, hnil⟩ := Ty.named.inj ht
      obtain rfl := List.map_eq_nil_iff.mp hnil.symm
      exact .intro rfl rfl (by simp) hinstance
  | succ n ih =>
    obtain ⟨hargs, hinstance⟩ := h
    rcases (c.instantiate_ok hinstance).2 with hs | ⟨-, ht, -⟩
    · exact absurd hs (Ty.structural?_ne_rankEncoding _ _ (n + 1))
    · obtain ⟨rfl, hsingle⟩ := Ty.named.inj ht
      obtain ⟨a, rfl, ha⟩ := List.map_eq_singleton_iff.mp hsingle.symm
      have hcanonical : c.Canonical a := hargs a List.mem_cons_self
      -- the argument is stored as it is, since the encoding of a rank is no stand-in
      obtain rfl : rankEncoding n = a := by
        have hread := hcanonical.structuralForm_storedArg
        rw [ha] at hread
        rcases Ty.structuralForm_ok hread with hself | ⟨d, args, heq, hs⟩
        · exact hself.symm
        · exact absurd hs (Ty.structural?_ne_ok_of_rankEncoding heq.symm a)
      refine .intro rfl rfl (fun p hp => ?_) hinstance
      obtain rfl := List.mem_singleton.mp hp
      exact ih hcanonical

/-- Constraints on arguments describe them, whatever the variances of their positions. -/
theorem describes_ofArgs {args : List Ty}
    (h : ∀ a ∈ args, Describes c (Constraint.ofType c (Catalog.storedArg a)) a)
    (vs : List Variance) :
    (Constraint.ofArgs c vs (args.map Catalog.storedArg)).length = args.length ∧
      ∀ p ∈ (Constraint.ofArgs c vs (args.map Catalog.storedArg)).zip args,
        Describes c p.1 p.2 := by
  induction args generalizing vs with
  | nil => exact ⟨rfl, by simp⟩
  | cons a args ih =>
    obtain ⟨ha, hargs⟩ := List.forall_mem_cons.mp h
    obtain ⟨hlength, hzip⟩ := ih hargs vs.tail
    rw [List.map_cons, Constraint.ofArgs]
    refine ⟨congrArg (· + 1) hlength, ?_⟩
    rw [List.zip_cons_cons]
    exact List.forall_mem_cons.mpr ⟨ha.withVariance _, hzip⟩

/-- A single constraint beside a single type. -/
theorem describes_pair {k : Constraint} {t : Ty} (h : Describes c k t) :
    ∀ p ∈ [k].zip [t], Describes c p.1 p.2 := by
  intro p hp
  obtain rfl := List.mem_singleton.mp hp
  exact h

/-- **A canonical type is described by what it is expanded to**, and so it is in the form in which
it is stored as an argument. -/
theorem describes_ofType {t : Ty} (h : c.Canonical t) (hkind : t.mentionsKindMarker = false) :
    Describes c (Constraint.ofType c t) t ∧
      Describes c (Constraint.ofType c (Catalog.storedArg t)) t := by
  induction h with
  | @intro fuel d args t hargs hinstance ih =>
    rcases (c.instantiate_ok hinstance).2 with hs | ⟨-, rfl, -⟩
    · rcases Ty.structural?_ok hs with ⟨rfl, n, elem, rfl, rfl⟩ | ⟨rfl, elem, rfl, rfl⟩ |
        ⟨rfl, elem, rfl, rfl⟩
      · -- an array is stored as it is
        have hrank := describes_rank (hargs (rankEncoding (n + 1)) (by simp))
        have helem := (ih elem (by simp) hkind).1
        have hzip : ∀ p ∈ [Constraint.rank (n + 1), Constraint.ofType c elem].zip
            [rankEncoding (n + 1), elem], Describes c p.1 p.2 := by
          intro p hp
          rcases List.mem_pair.mp hp with rfl | rfl
          · exact hrank
          · exact helem
        exact ⟨.intro rfl rfl hzip hinstance, .intro rfl rfl hzip hinstance⟩
      · have helem := (ih elem (by simp) hkind).1
        exact ⟨.intro rfl rfl (describes_pair helem) hinstance,
          .intro rfl rfl (describes_pair (helem.withVariance _)) hinstance⟩
      · have helem := (ih elem (by simp) hkind).1
        exact ⟨.intro rfl rfl (describes_pair helem) hinstance,
          .intro rfl rfl (describes_pair (helem.withVariance _)) hinstance⟩
    · rw [Ty.mentionsKindMarker, Bool.or_eq_false_iff, Ty.anyMentionsKindMarker_eq_any,
        List.any_map, List.any_eq_false] at hkind
      have hdescribed : ∀ a ∈ args, Describes c (Constraint.ofType c (Catalog.storedArg a)) a := by
        intro a ha
        have hnot := hkind.2 a ha
        rw [Function.comp_apply, Ty.mentionsKindMarker_storedArg, Bool.not_eq_true] at hnot
        exact (ih a ha hnot).2
      obtain ⟨hlength, hzip⟩ :=
        describes_ofArgs hdescribed ((c.definition d).params.map (·.variance))
      exact ⟨.intro hkind.1 hlength hzip hinstance, .intro hkind.1 hlength hzip hinstance⟩

/-! ## A description stands for one type

The type is computed by instantiating from the inside out, which needs fuel at every level. With
enough of it every sub-constraint is known, so the instance is. -/

/-- If all constraints of a list stand for single types, so does the list. -/
theorem Constraint.singleTypes_eq {fuel : Nat} {b : Bindings} {ks : List Constraint} {ts : List Ty}
    (hlength : ks.length = ts.length)
    (h : ∀ p ∈ ks.zip ts, Constraint.singleType c fuel b p.1 = some (some p.2)) :
    Constraint.singleTypes c fuel b ks = some (some ts) := by
  induction ks generalizing ts with
  | nil =>
    rw [List.length_eq_zero_iff.mp hlength.symm]
    rfl
  | cons k ks ih =>
    cases ts with
    | nil => cases hlength
    | cons t ts =>
      obtain ⟨hk, hks⟩ := List.forall_mem_cons.mp h
      rw [Constraint.singleTypes, hk]
      dsimp only
      rw [ih (Nat.succ.inj hlength) hks]
      rfl

/-- Then all arguments of a constraint are known. -/
theorem knownArgs_eq {fuel : Nat} {b : Bindings} {ks : List Constraint} {ts : List Ty}
    (hlength : ks.length = ts.length)
    (h : ∀ p ∈ ks.zip ts, Constraint.singleType c fuel b p.1 = some (some p.2)) :
    knownArgs c fuel b ks = some (ts.map some) := by
  induction ks generalizing ts with
  | nil =>
    rw [List.length_eq_zero_iff.mp hlength.symm]
    rfl
  | cons k ks ih =>
    cases ts with
    | nil => cases hlength
    | cons t ts =>
      obtain ⟨hk, hks⟩ := List.forall_mem_cons.mp h
      rw [knownArgs, hk]
      dsimp only
      rw [ih (Nat.succ.inj hlength) hks]
      rfl

/-- With enough fuel a description is seen to stand for the type. -/
theorem Describes.eventually_singleType {k : Constraint} {t : Ty} (h : Describes c k t)
    (b : Bindings) : ∀ᶠ fuel in atTop, Constraint.singleType c fuel b k = some (some t) := by
  induction h with
  | @intro d v ks ts t fuel hkind hlength hargs hinstance ih =>
    have hall := eventually_forall_mem ih
    have hthen := Fueled.eventually_eq_some (fun h => c.instantiate_le h d ts) hinstance
    filter_upwards [hall, hthen] with fuel hks ht
    rw [Constraint.singleType, hkind, Constraint.singleTypes_eq hlength hks]
    simp [ht, Except.toOption]

end TypeResolution
