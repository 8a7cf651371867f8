import TypeResolution.Proofs.Catalog.Storage
import TypeResolution.Proofs.Resolver.TypesMet
import TypeResolution.Proofs.Search.Trace
import TypeResolution.Proofs.Unification.Instances

/-!
# Closed and open templates

A pattern for one closed type can be written in two ways: with the type itself for its template, or
with the type's definition and a slot for each parameter, matched with the type's arguments. Either
way a single closed type is built, and it is the type that was meant (`templates_agree`).

What the parameters are bound to is not quite the same. A slot binds its candidate, but a closed
template binds the arguments as they are stored, and a pointer is stored in nominal form. The two
environments differ by a reading (`Bindings.read`), and directives show the difference: asked for
`T` alone, one template resolves again for the stand-in of a pointer and the other for the pointer
(`pointerTemplates_differ`). The difference is gone as soon as a parameter stands directly below an
ordinary definition, which stores its arguments anyway. If all directives *shelter* their parameters
so, or if nothing is stored in nominal form, then the two patterns are one and the same search.

The route to this goes over the one thing that producers see of an environment: the candidates that
directives build in it. A constraint is read by recursion, so the comparison is by mutual induction
over constraints and their lists (`Constraint.requireType_read`). From there it is carried to
argument lists, to calls, and to all producers of a pattern by lemmas that say only that these look
at the environment through directives (`callProducers_congr`).
-/

namespace TypeResolution

open Catalog Filter

/-! ## Environments that differ by a reading

What is stored in nominal form may stand for a structural type, and to read it is to take it for
that type. An environment is read by reading every entry. For most entries that changes nothing, and
the entries for which it does are singled out by `BindsNominal`. -/

/-- As an argument, the type is stored as what it is read as. -/
def Ty.StoredAsRead (t : Ty) : Prop := storedArg t.reading = storedArg t

namespace Bindings

/-- The same names, bound to what their types are read as. -/
def read (b : Bindings) : Bindings := b.map fun p => (p.1, p.2.reading)

/-- The name is bound to a type in nominal form. -/
def BindsNominal (b : Bindings) (x : String) : Prop := ∃ t, b.get? x = some t ∧ t.reading ≠ t

/-- An entry of the environment that is read is the entry, read. -/
theorem get?_read (b : Bindings) (x : String) : b.read.get? x = (b.get? x).map Ty.reading := by
  induction b with
  | nil => rfl
  | cons p b ih =>
    by_cases hx : x = p.1
    · subst hx
      exact (get?_bind_self (read b) p.1 p.2.reading).trans
        (congrArg (Option.map Ty.reading) (get?_bind_self b p.1 p.2)).symm
    · exact (get?_bind_of_ne (read b) p.2.reading hx).trans
        (ih.trans (congrArg (Option.map Ty.reading) (get?_bind_of_ne b p.2 hx)).symm)

/-- Reading may be done before binding. -/
theorem read_bindAll (b : Bindings) (names : List String) (ts : List Ty) :
    (b.bindAll names ts).read = b.read.bindAll names (ts.map Ty.reading) := by
  induction names generalizing b ts with
  | nil => rfl
  | cons name names ih =>
    cases ts with
    | nil => rfl
    | cons t ts => exact ih (b.bind name t) ts

/-- Names keep what they are bound to if others are bound. -/
theorem get?_bindAll_of_notMem (b : Bindings) {names : List String} (ts : List Ty) {x : String}
    (hx : x ∉ names) : (b.bindAll names ts).get? x = b.get? x := by
  induction names generalizing b ts with
  | nil => rfl
  | cons name names ih =>
    cases ts with
    | nil => rfl
    | cons t ts =>
      obtain ⟨hne, hx⟩ := List.ne_and_not_mem_of_not_mem_cons hx
      exact (ih (b.bind name t) ts hx).trans (b.get?_bind_of_ne t hne)

/-- Reading leaves alone what is not bound to a nominal form. -/
theorem get?_read_of_not_bindsNominal {b : Bindings} {x : String} (h : ¬ b.BindsNominal x) :
    b.read.get? x = b.get? x := by
  rw [get?_read]
  cases hx : b.get? x with
  | none => rfl
  | some t => exact congrArg some (Decidable.not_not.mp fun hne => h ⟨t, hx, hne⟩)

end Bindings

/-! ## Sheltered parameters

An instance of an ordinary definition stores its arguments, and storing undoes reading: a pointer
and the stand-in that encodes it are stored as the same type. So a parameter directly below such a
definition cannot tell the two environments apart. A structural definition builds an array or a
pointer of its arguments as they are, and there the difference stays. -/

namespace Constraint

/-- In a constraint at its place, parameters from `S` stand directly below ordinary definitions
only, which store whatever is put there. -/
inductive Shelters (S : String → Prop) : Catalog.Place → Constraint → Prop where
  /-- a wildcard has no parameters -/
  | wildcard {p : Catalog.Place} : Shelters S p .wildcard
  /-- neither are those of a negation looked at -/
  | negation {p : Catalog.Place} {inner : List Constraint} : Shelters S p (.negation inner)
  /-- another parameter may stand anywhere -/
  | param {p : Catalog.Place} {x : String} {v : Variance} (hx : ¬ S x) : Shelters S p (.param x v)
  /-- every parameter may be an argument of an ordinary definition -/
  | argument {x : String} {v : Variance} : Shelters S .argument (.param x v)
  /-- an ordinary definition shelters what stands directly below it -/
  | ordinary {p : Catalog.Place} {target : DefIndex} {v : Variance} {args : List Constraint}
      (htarget : ¬ IsStructural target) (hargs : ∀ k ∈ args, Shelters S .argument k) :
      Shelters S p (.instanceOf target v args)
  /-- any other definition, as long as its arguments do without -/
  | structural {p : Catalog.Place} {target : DefIndex} {v : Variance} {args : List Constraint}
      (hargs : ∀ k ∈ args, Shelters S .whole k) : Shelters S p (.instanceOf target v args)

/-- Only a parameter needs its place. -/
theorem Shelters.cases_argument {S : String → Prop} {k : Constraint}
    (h : k.Shelters S .argument) : (∃ x v, k = .param x v) ∨ k.Shelters S .whole := by
  cases h with
  | wildcard => exact .inr .wildcard
  | negation => exact .inr .negation
  | param hx => exact .inr (.param hx)
  | argument => exact .inl ⟨_, _, rfl⟩
  | ordinary htarget hargs => exact .inr (.ordinary htarget hargs)
  | structural hargs => exact .inr (.structural hargs)

section Require

/-- Two outcomes that a function makes equal: they failed alike, or succeeded with what it makes
equal. -/
theorem outcomes_of_map_eq {ε α β : Type} {f : α → β} {x y : Fueled (Except ε α)}
    (h : x.map (Except.map f) = y.map (Except.map f)) :
    x = y ∨ ∃ a a', x = some (.ok a) ∧ y = some (.ok a') ∧ f a = f a' := by
  rcases x with _ | e | a
  · exact .inl (Option.map_eq_none_iff.mp h.symm).symm
  · obtain ⟨outcome, rfl, houtcome⟩ := Option.map_eq_some_iff.mp h.symm
    cases outcome with
    | error e' =>
      obtain rfl := Except.error.inj houtcome
      exact .inl rfl
    | ok a' => cases houtcome
  · obtain ⟨outcome, rfl, houtcome⟩ := Option.map_eq_some_iff.mp h.symm
    cases outcome with
    | error e' => cases houtcome
    | ok a' => exact .inr ⟨a, a', rfl, rfl, (Except.ok.inj houtcome).symm⟩

/-- Putting an element in front of a list that is mapped later is mapping the element and putting it
in front. -/
theorem map_map_cons {ε α β : Type} (f : α → β) (a : α) (x : Fueled (Except ε (List α))) :
    (x.map (Except.map (a :: ·))).map (Except.map (List.map f)) =
      (x.map (Except.map (List.map f))).map (Except.map (f a :: ·)) := by
  rcases x with _ | _ | _
  all_goals rfl

variable {c : Catalog} {fuel : Nat} {b : Bindings}

mutual
/-- A directive that shelters its parameters builds the same from what these are read as. -/
theorem requireType_read (hb : b.In Ty.StoredAsRead) : (k : Constraint) →
    k.Shelters b.BindsNominal .whole → requireType c fuel b.read k = requireType c fuel b k
  | .wildcard, _ => rfl
  | .negation _, _ => rfl
  | .param x v, h => by
    cases h with
    | param hx => rw [requireType, requireType, Bindings.get?_read_of_not_bindsNominal hx]
  | .instanceOf target v args, h => by
    rw [requireType, requireType]
    cases h with
    | structural hargs => rw [requireTypes_read hb args hargs]
    | ordinary htarget hargs =>
      rcases outcomes_of_map_eq (requireTypes_read_stored hb args hargs) with heq |
        ⟨ts, ts', hts, hts', hstored⟩
      · rw [heq]
      · rw [hts, hts']
        dsimp only
        rw [instantiate_congr_stored htarget hstored]

/-- The same for a list of constraints. -/
theorem requireTypes_read (hb : b.In Ty.StoredAsRead) : (ks : List Constraint) →
    (∀ k ∈ ks, k.Shelters b.BindsNominal .whole) →
    requireTypes c fuel b.read ks = requireTypes c fuel b ks
  | [], _ => rfl
  | k :: ks, h => by
    obtain ⟨hk, hks⟩ := List.forall_mem_cons.mp h
    rw [requireTypes, requireTypes, requireType_read hb k hk, requireTypes_read hb ks hks]

/-- Below an ordinary definition it is enough that the arguments are stored alike. -/
theorem requireTypes_read_stored (hb : b.In Ty.StoredAsRead) : (ks : List Constraint) →
    (∀ k ∈ ks, k.Shelters b.BindsNominal .argument) →
    (requireTypes c fuel b.read ks).map (Except.map (List.map storedArg)) =
      (requireTypes c fuel b ks).map (Except.map (List.map storedArg))
  | [], _ => rfl
  | k :: ks, h => by
    obtain ⟨hk, hks⟩ := List.forall_mem_cons.mp h
    have hrest := requireTypes_read_stored hb ks hks
    rw [requireTypes, requireTypes]
    rcases hk.cases_argument with ⟨x, v, rfl⟩ | hk
    -- the two types put in are different, but are stored alike
    · rw [requireType, requireType, Bindings.get?_read]
      cases hx : b.get? x with
      | none => rfl
      | some t =>
        dsimp only [Option.map_some]
        rw [map_map_cons, map_map_cons, hrest, (hb x t hx : storedArg _ = _)]
    · rw [requireType_read hb k hk]
      rcases requireType c fuel b k with _ | e | t
      · rfl
      · rfl
      · dsimp only
        rw [map_map_cons, map_map_cons, hrest]
end

end Require

end Constraint

/-! ## Patterns for one closed type

Both patterns keep the producers of the given one. `closedAt` has no slots at all, so any candidates
do. `openAt` has a slot for each parameter of the definition, and each of them is a name that takes
whatever the candidate is. -/

namespace Pattern

variable {V : Type}

/-- The pattern with a closed type for its template, for all candidates. -/
def closedAt (p : Pattern V) (t : Ty) : Pattern V := { p with template := .closed t, slots := [] }

/-- The pattern with a definition for its template and a slot for each parameter. -/
def openAt (p : Pattern V) (d : DefIndex) (params : List TypeParam) : Pattern V :=
  { p with
    template := .definition d
    slots := params.map fun param => ⟨[.named param.name], false⟩ }

end Pattern

namespace Resolver

variable {V : Type} (r : Resolver V)

/-- Slots that name one parameter each bind the candidates one by one. -/
theorem slotBindings_named {ν : Type} {c : Catalog} {fuel : Nat} {params : List TypeParam}
    {ts : List Ty} {b : Bindings} (hnodup : (params.map (·.name)).Nodup)
    (hfree : ∀ param ∈ params, b.get? param.name = none) (hlength : ts.length = params.length) :
    (slotBindings c fuel (params.map fun param => ⟨[.named param.name], false⟩) ts b :
      Search ν ResolutionError Bindings) = .single (b.bindAll (params.map (·.name)) ts) := by
  induction params generalizing ts b with
  | nil =>
    obtain rfl := List.length_eq_zero_iff.mp hlength
    rfl
  | cons param params ih =>
    cases ts with
    | nil => cases hlength
    | cons t ts =>
      obtain ⟨hparam, hfree⟩ := List.forall_mem_cons.mp hfree
      obtain ⟨hnew, hnodup⟩ := List.nodup_cons.mp hnodup
      -- with a name given twice the second slot would compare instead of bind
      have hfree' : ∀ other ∈ params, (b.bind param.name t).get? other.name = none :=
        fun other hother => (b.get?_bind_of_notMem t hnew (List.mem_map_of_mem hother)).trans
          (hfree other hother)
      have hrest := ih hnodup hfree' (Nat.succ.inj hlength)
      rw [List.map_cons, slotBindings, Constraint.named]
      dsimp only
      rw [matchAll, matchOne, hparam]
      dsimp only
      rw [Search.single_bind, matchAll, Search.choose, if_neg Bool.false_ne_true,
        Search.single_bind, hrest]
      rfl

/-- A definition is closed over what its parameters were bound to. -/
theorem boundArgs?_bindAll {params : List TypeParam} {ts : List Ty} (b : Bindings)
    (hnodup : (params.map (·.name)).Nodup) (hlength : ts.length = params.length) :
    boundArgs? (b.bindAll (params.map (·.name)) ts) params = some ts := by
  -- The environment is generalized, since each parameter is bound in front of those that follow.
  -- That it is found again behind them is where the names have to be different.
  induction params generalizing ts b with
  | nil =>
    obtain rfl := List.length_eq_zero_iff.mp hlength
    rfl
  | cons param params ih =>
    cases ts with
    | nil => cases hlength
    | cons t ts =>
      obtain ⟨hnew, hnodup⟩ := List.nodup_cons.mp hnodup
      have hfirst : ((b.bind param.name t).bindAll (params.map (·.name)) ts).get? param.name =
          some t :=
        (Bindings.get?_bindAll_of_notMem (b.bind param.name t) ts hnew).trans
          (b.get?_bind_self param.name t)
      have hrest := ih (b.bind param.name t) hnodup (Nat.succ.inj hlength)
      have hbind : b.bindAll ((param :: params).map (·.name)) (t :: ts) =
          (b.bind param.name t).bindAll (params.map (·.name)) ts := rfl
      rw [boundArgs?] at hrest ⊢
      rw [hbind, List.mapM_cons, hfirst, hrest]
      rfl

section Congruence

variable {r : Resolver V} {fuel : Nat} {nested : Nested V} {place : Place} {b b' : Bindings}

/-- Parameters are filled alike if their directives stand for the same types. -/
theorem argLists_congr {params : List Parameter}
    (h : ∀ d ∈ params.filterMap Parameter.directive?,
      Constraint.requireTypes r.catalog fuel b d.types =
        Constraint.requireTypes r.catalog fuel b' d.types) :
    r.argLists fuel nested place b params = r.argLists fuel nested place b' params := by
  induction params with
  | nil => rfl
  | cons param params ih =>
    cases param with
    | required => rfl
    | optional => rw [argLists, argLists, ih h]
    | specialize d hasDefault =>
      obtain ⟨hd, hrest⟩ := List.forall_mem_cons.mp h
      rw [argLists, argLists, hd, ih hrest]

/-- Producers are called alike in two environments in which all their directives build the same. -/
theorem callAll_congr {t : Ty} {producers : List (Producer V × Nat)}
    (h : ∀ q ∈ producers, ∀ d ∈ q.1.params.filterMap Parameter.directive?,
      Constraint.requireTypes r.catalog fuel b d.types =
        Constraint.requireTypes r.catalog fuel b' d.types) :
    r.callAll fuel nested place b t producers = r.callAll fuel nested place b' t producers := by
  induction producers with
  | nil => rfl
  | cons q producers ih =>
    obtain ⟨hq, hrest⟩ := List.forall_mem_cons.mp h
    rw [callAll, callAll, argLists_congr hq, ih hrest]

/-- Producers are called alike if all directives of their pattern stand for the same types. -/
theorem callProducers_congr {p : Pattern V} {t : Ty}
    (h : ∀ d ∈ p.directives, Constraint.requireTypes r.catalog fuel b d.types =
      Constraint.requireTypes r.catalog fuel b' d.types) :
    r.callProducers fuel nested place p b t = r.callProducers fuel nested place p b' t :=
  callAll_congr fun _ hq d hd =>
    h d (Pattern.mem_directives (Pattern.mem_producers_of_mem_callOrder hq) hd)

end Congruence

end Resolver

/-! ## What a canonical type is an instance of

A canonical type is built by applying its definition, and it can be built again: from the arguments
that it stores and from what these are read as. Instantiation stores its arguments, so it makes no
difference which of them it is given. -/

namespace Catalog

variable {c : Catalog} {t : Ty} {d : DefIndex}

/-- A canonical type is the instance of its head over what the arguments are read as. The arguments
are stored as what they are read as, and a structural stand-in stores none of them. -/
theorem Canonical.exists_instantiate_reading (h : c.Canonical t) (hd : t.head? = some d) :
    c.HasInstance d (t.headArgs.map Ty.reading) t ∧ (∀ s ∈ t.headArgs, s.StoredAsRead) ∧
      (IsStructural d → t.headArgs.map Ty.reading = t.headArgs) := by
  cases h with
  | @intro fuel e args _ hargs hinstance =>
    obtain rfl : e = d := Option.some.inj ((c.head?_of_instantiate hinstance).symm.trans hd)
    rcases (c.instantiate_ok hinstance).2 with hs | ⟨hs, rfl, -⟩
    -- a structural form holds the arguments themselves, every other type holds them as stored
    · rw [Ty.headArgs_of_structural? hs]
      have hread : ∀ a ∈ args, a.reading = a := fun a ha =>
        Ty.reading_eq (hargs a ha).structuralForm
      have hargs' : args.map Ty.reading = args := (List.map_congr_left hread).trans (List.map_id _)
      refine ⟨hargs'.symm ▸ ⟨fuel, hinstance⟩, fun a ha => ?_, fun _ => hargs'⟩
      rw [Ty.StoredAsRead, hread a ha]
    · have hread : ∀ a ∈ args, (storedArg a).reading = a := fun a ha =>
        Ty.reading_eq (hargs a ha).structuralForm_storedArg
      have hargs' : (args.map storedArg).map Ty.reading = args := by
        rw [List.map_map]
        exact (List.map_congr_left hread).trans (List.map_id _)
      refine ⟨?_, fun s hs => ?_, fun ⟨m, hm, hkind⟩ => ?_⟩
      · rw [Ty.headArgs, hargs']
        exact ⟨fuel, hinstance⟩
      · obtain ⟨a, ha, rfl⟩ := List.mem_map.mp hs
        rw [Ty.StoredAsRead, hread a ha, storedArg_storedArg]
      · rw [isKind_of_structural? (c.length_of_instantiate hinstance) hs hm] at hkind
        cases hkind

/-- It is the instance over the arguments themselves just as well. -/
theorem Canonical.instantiate_headArgs (h : c.Canonical t) (hd : t.head? = some d) (fuel : Nat) :
    c.instantiate fuel d t.headArgs = c.instantiate fuel d (t.headArgs.map Ty.reading) := by
  obtain ⟨-, hstored, hstructural⟩ := h.exists_instantiate_reading hd
  by_cases hd' : IsStructural d
  · rw [hstructural hd']
  · refine instantiate_congr_stored hd' ?_ fuel
    rw [List.map_map]
    exact List.map_congr_left fun s hs => (hstored s hs).symm

end Catalog

/-! ## Two templates

Either pattern binds the parameters, builds the type, and hands both to the producers. They build
the same type, and they are compared by the environments that they hand over: `argBindings` for the
template that is closed and its reading for the one that is open. -/

namespace Resolver

variable {V : Type} (r : Resolver V) {fuel : Nat} {nested : Nested V} {place : Place}

/-- A definition that is closed to a type hands it to the producers. -/
theorem valuesOf_eq_callProducers {d : DefIndex} {b : Bindings} {args : List Ty} {t : Ty}
    (hargs : boundArgs? b (r.catalog.definition d).params = some args)
    (h : r.catalog.instantiate fuel d args = some (.ok t)) (p : Pattern V) :
    r.valuesOf fuel nested place p d b = r.callProducers fuel nested place p b t := by
  rw [valuesOf, closedUnder, hargs]
  dsimp only
  rw [h]
  rfl

/-- The environment of a pattern whose template is the closed type: the parameters of the
definition are bound to its arguments. -/
def argBindings (d : DefIndex) (t : Ty) : Bindings :=
  Bindings.bindAll [] ((r.catalog.definition d).params.map (·.name)) t.headArgs

variable {r} {t : Ty} {d : DefIndex} (ht : r.catalog.Canonical t) (hd : t.head? = some d)
  (hnodup : ((r.catalog.definition d).params.map (·.name)).Nodup)

include ht hd in
/-- What a closed template binds is stored, and read as it is stored. -/
theorem in_argBindings : (r.argBindings d t).In Ty.StoredAsRead :=
  (Bindings.in_nil _).bindAll _ (ht.exists_instantiate_reading hd).2.1

include hd in
/-- A closed template opens to its definition, with the parameters bound to the arguments it stores.
-/
theorem openTemplate_closed (hclosed : t.isClosed = true) :
    r.openTemplate (.closed t) = .ok (d, r.argBindings d t) := by
  rw [openTemplate, hd]
  exact if_pos hclosed

include ht hd hnodup

/-- The closed pattern calls its producers in the environment of stored arguments, whatever the
candidates are. -/
theorem tryPattern_closedAt (h : r.catalog.instantiate fuel d t.headArgs = some (.ok t))
    (p : Pattern V) (candidates : List Ty) :
    r.tryPattern fuel nested place candidates (p.closedAt t) =
      r.callProducers fuel nested place p (r.argBindings d t) t := by
  have hlength := ht.proper.length_headArgs hd
  rw [tryPattern, Pattern.closedAt, openTemplate_closed hd ht.isClosed]
  dsimp only
  rw [slotBindings, Search.single_bind]
  exact r.valuesOf_eq_callProducers (boundArgs?_bindAll [] hnodup hlength) h (p.closedAt t)

/-- The open pattern does so in the environment that is read, if its candidates are the arguments as
they are read. -/
theorem tryPattern_openAt
    (h : r.catalog.instantiate fuel d (t.headArgs.map Ty.reading) = some (.ok t))
    (p : Pattern V) :
    r.tryPattern fuel nested place (t.headArgs.map Ty.reading)
        (p.openAt d (r.catalog.definition d).params) =
      r.callProducers fuel nested place p (r.argBindings d t).read t := by
  have hlength : (t.headArgs.map Ty.reading).length = (r.catalog.definition d).params.length :=
    (List.length_map _).trans (ht.proper.length_headArgs hd)
  have hread : (r.argBindings d t).read = Bindings.bindAll []
      ((r.catalog.definition d).params.map (·.name)) (t.headArgs.map Ty.reading) :=
    Bindings.read_bindAll [] _ _
  rw [tryPattern, Pattern.openAt, openTemplate]
  dsimp only
  rw [slotBindings_named hnodup (fun _ _ => rfl) hlength, Search.single_bind, hread]
  exact r.valuesOf_eq_callProducers (boundArgs?_bindAll [] hnodup hlength) h
    (p.openAt d (r.catalog.definition d).params)

omit ht hd hnodup

/-- **Closed and open templates.** Take a canonical type whose definition has distinct names for its
parameters, and a pattern for it: once with the type itself for its template and no slots, and once
with the definition and a slot for each parameter, for what the type's arguments are read as. With
enough fuel either hands one type to its producers, once, and it is the type that was meant. The
environment of the one is that of the other with everything read. If the arguments are read as
themselves, then it is the same environment. And even if it is not, constraints that shelter their
parameters stand for the same types in both, or fail alike; so if all directives are such
constraints, then the two patterns make one and the same search. -/
theorem templates_agree {t : Ty} (ht : r.catalog.Canonical t) {d : DefIndex} (hd : t.head? = some d)
    (hnodup : ((r.catalog.definition d).params.map (·.name)).Nodup) :
    (∀ᶠ fuel in atTop, ∀ (p : Pattern V) nested place candidates,
      r.tryPattern fuel nested place candidates (p.closedAt t) =
          r.callProducers fuel nested place p (r.argBindings d t) t ∧
        r.tryPattern fuel nested place (t.headArgs.map Ty.reading)
            (p.openAt d (r.catalog.definition d).params) =
          r.callProducers fuel nested place p (r.argBindings d t).read t) ∧
      (t.headArgs.map Ty.reading = t.headArgs →
        (r.argBindings d t).read = r.argBindings d t) ∧
      (∀ fuel ks, (∀ k ∈ ks, Constraint.Shelters (r.argBindings d t).BindsNominal .whole k) →
        Constraint.requireTypes r.catalog fuel (r.argBindings d t).read ks =
          Constraint.requireTypes r.catalog fuel (r.argBindings d t) ks) ∧
      ∀ᶠ fuel in atTop, ∀ (p : Pattern V) nested place candidates,
        (∀ k ∈ p.directiveConstraints, k.Shelters (r.argBindings d t).BindsNominal .whole) →
        r.tryPattern fuel nested place candidates (p.closedAt t) =
          r.tryPattern fuel nested place (t.headArgs.map Ty.reading)
            (p.openAt d (r.catalog.definition d).params) := by
  -- Instantiation comes to its end with some fuel, and from there on both patterns are what the two
  -- lemmas above say. All three parts of the theorem are read off that.
  obtain ⟨⟨n, hn⟩, -, -⟩ := ht.exists_instantiate_reading hd
  have hsearch : ∀ᶠ fuel in atTop, ∀ (p : Pattern V) nested place candidates,
      r.tryPattern fuel nested place candidates (p.closedAt t) =
          r.callProducers fuel nested place p (r.argBindings d t) t ∧
        r.tryPattern fuel nested place (t.headArgs.map Ty.reading)
            (p.openAt d (r.catalog.definition d).params) =
          r.callProducers fuel nested place p (r.argBindings d t).read t := by
    have hinstance := Fueled.eventually_eq_some (fun h => r.catalog.instantiate_le h d _) hn
    filter_upwards [hinstance] with fuel hreading p nested place candidates
    have hstored := (ht.instantiate_headArgs hd fuel).trans hreading
    exact ⟨tryPattern_closedAt ht hd hnodup hstored p candidates,
      tryPattern_openAt ht hd hnodup hreading p⟩
  have hdirectives : ∀ fuel ks,
      (∀ k ∈ ks, Constraint.Shelters (r.argBindings d t).BindsNominal .whole k) →
      Constraint.requireTypes r.catalog fuel (r.argBindings d t).read ks =
        Constraint.requireTypes r.catalog fuel (r.argBindings d t) ks := fun fuel ks hks =>
    Constraint.requireTypes_read (in_argBindings ht hd) ks hks
  refine ⟨hsearch, fun hargs => ?_, hdirectives, ?_⟩
  · rw [argBindings, Bindings.read_bindAll, hargs]
    rfl
  · filter_upwards [hsearch] with fuel hsearch p nested place candidates hp
    obtain ⟨hclosed, hopen⟩ := hsearch p nested place candidates
    rw [hclosed, hopen]
    refine (callProducers_congr fun directive hdirective => hdirectives fuel _ fun k hk => ?_).symm
    exact hp k (Pattern.types_subset_directiveConstraints hdirective k hk)

end Resolver

/-- Has some types resolved, and answers with the candidates that these are. -/
def showCandidates (types : List Constraint) : Pattern (List Ty) where
  template := .definition 14
  producers := [.ofConstructor [.specialize { types, isSequence := true } false] false
    fun _ args => .answer (.ok (args.flatMap fun
      | .sequence candidates => candidates
      | _ => []))]

/-- The resolver of some patterns over the base library. -/
def overBaseLibrary (patterns : List (Pattern (List Ty))) : Resolver (List Ty) where
  catalog := .baseLibrary
  patterns := patterns

/-- The pointers to `int`. -/
def intPointer : Ty := .pointer (.nominal 19)

/-- The lists of such pointers, which are stored in nominal form. -/
def intPointerList : Ty := .named 14 [intPointer.nominalForm]

/-- The list of pointers is well formed, with the stand-in of the pointer for its argument. -/
theorem canonical_intPointerList : baseLibrary.Canonical intPointerList := by
  have hpointer : baseLibrary.Canonical intPointer := (canonical_nominal rfl).pointer
  have hinstance : baseLibrary.instantiate 9 14 [intPointer] = some (.ok intPointerList) := rfl
  exact .intro (List.forall_mem_singleton.mpr hpointer) hinstance

/-- The two templates for lists of pointers agree on a directive that asks for `List<T>`. -/
theorem pointerLists_agree :
    baseLibrary.Canonical intPointerList ∧ intPointerList.head? = some 14 ∧
      intPointerList.headArgs.map Ty.reading = [intPointer] ∧
      ∀ᶠ fuel in atTop, ∀ nested place candidates,
        (overBaseLibrary []).tryPattern fuel nested place candidates
            ((showCandidates [.definition 14 [.named "T"]]).closedAt intPointerList) =
          (overBaseLibrary []).tryPattern fuel nested place [intPointer]
            ((showCandidates [.definition 14 [.named "T"]]).openAt 14 [{ name := "T" }]) := by
  have hnodup : ((baseLibrary.definition 14).params.map (·.name)).Nodup :=
    List.nodup_singleton "T"
  have hsheltered : ∀ S k, k ∈ (showCandidates [.definition 14 [.named "T"]]).directiveConstraints →
      k.Shelters S .whole := fun S =>
    List.forall_mem_singleton.mpr
      (.ordinary (fun ⟨_, hm, _⟩ => nomatch hm) (List.forall_mem_singleton.mpr .argument))
  obtain ⟨-, -, -, hsame⟩ :=
    Resolver.templates_agree (r := overBaseLibrary []) canonical_intPointerList rfl hnodup
  refine ⟨canonical_intPointerList, rfl, rfl, ?_⟩
  filter_upwards [hsame] with fuel hsame nested place candidates
  exact hsame _ nested place candidates (hsheltered _)

/-- **A directive that asks for a bare parameter tells the templates apart.** For lists of pointers,
the closed template has the stand-in of a pointer resolved again, and the open one the pointer. -/
theorem pointerTemplates_differ :
    baseLibrary.Canonical intPointerList ∧ intPointerList.head? = some 14 ∧
      intPointerList.headArgs.map Ty.reading = [intPointer] ∧
      Constraint.checkAll baseLibrary .directive [.named "T"] = .ok () ∧
      (overBaseLibrary [(showCandidates [.named "T"]).closedAt intPointerList]).allValues 9
          [intPointer] = some (.ok [[intPointer.nominalForm]]) ∧
      (overBaseLibrary [(showCandidates [.named "T"]).openAt 14 [{ name := "T" }]]).allValues 9
          [intPointer] = some (.ok [[intPointer]]) :=
  ⟨canonical_intPointerList, rfl, rfl, rfl, rfl, rfl⟩

end TypeResolution
