import Mathlib.Data.List.Basic
import TypeResolution.Proofs.Catalog.Forms

/-!
# Canonical types

A closed type is canonical if it can be generated from nothing by instantiating definitions. Such a
type is its own structural form (`Canonical.structuralForm`). Its arguments may be stored in nominal
form, but each of them reads as a canonical type again (`Canonical.exists_of_mem_headArgs`), and so
does whatever stands deeper inside (`hereditary_reads`): the structural reading of a canonical type
never leaves the canonical types.

The inductive definition says how a canonical type is built, which is what inductions go by. What a
type looks like is said by lemmas: `Canonical.shape` cuts it at the definition that it is an
instance of, and `hereditary_reads` at what stands inside of it.
-/

namespace TypeResolution

namespace Catalog

variable (c : Catalog)

/-! ## Stand-ins keep their signatures

Every catalog begins with the stand-ins, whatever is registered later. So their arities and
parameters are known without looking at the catalog, and this is the only thing known of the
definitions of an arbitrary one. -/

/-- A catalog starts with the stand-ins, whose signatures never change. -/
theorem signature_standIn {d : DefIndex} {s : Definition} (h : standIns[d]? = some s) :
    (c.definition d).signature = s.signature := by
  have hlt : d < standIns.length := (List.getElem?_eq_some_iff.mp h).1
  have hsignature := congrArg (fun l => l[d]?) c.standIns_first
  simp only [List.getElem?_map, List.getElem?_take, hlt, if_true, h, Option.map_some,
    Option.map_eq_some_iff] at hsignature
  obtain ⟨e, he, hsignature⟩ := hsignature
  rw [definition, List.getD_eq_getElem?_getD, he, Option.getD_some, hsignature]

/-- The definitions at the front take as many arguments in every catalog. -/
theorem arity_standIn {d : DefIndex} {arity : Nat}
    (h : (standIns[d]?).map Definition.arity = some arity) : c.arity d = arity := by
  obtain ⟨s, hs, rfl⟩ := Option.map_eq_some_iff.mp h
  have hsignature := c.signature_standIn hs
  simp only [Definition.signature, Prod.mk.injEq] at hsignature
  rw [arity, Definition.arity, hsignature.2.2, Definition.arity]

/-- The stand-in of a marker takes as many arguments in every catalog. -/
theorem arity_definition (m : Marker) : c.arity m.definition = m.arity :=
  c.arity_standIn (standIns_arity m)

/-- The encoding of rank zero takes no argument. -/
theorem arity_rankZero : c.arity rankZero = 0 := c.arity_standIn rfl

/-- The encoding of a successor takes one. -/
theorem arity_rankSucc : c.arity rankSucc = 1 := c.arity_standIn rfl

/-! ## Canonical types

A canonical type is an instance of some definition at canonical arguments. If the definition is
structural, then the type is an array, a pointer or a reference; otherwise it is a name with stored
arguments. -/

/-- A type that is generated from nothing by successful instantiations. -/
inductive Canonical : Ty → Prop where
  /-- an instance of a definition over canonical arguments -/
  | intro {fuel : Nat} {d : DefIndex} {args : List Ty} {t : Ty} (hargs : ∀ a ∈ args, Canonical a)
      (h : c.instantiate fuel d args = some (.ok t)) : Canonical t

variable {c}

/-- A canonical type is a structural type over canonical types, or a definition over stored
canonical types that is no structural stand-in. -/
theorem Canonical.shape {t : Ty} (h : c.Canonical t) :
    (∃ n elem, t = .array (n + 1) elem ∧ c.Canonical (rankEncoding (n + 1)) ∧ c.Canonical elem) ∨
      (∃ elem, t = .pointer elem ∧ c.Canonical elem) ∨
      (∃ elem, t = .byRef elem ∧ c.Canonical elem) ∨
      ∃ d args, t = .named d (args.map storedArg) ∧ (∀ a ∈ args, c.Canonical a) ∧
        Ty.structural? d args = none ∧ args.length = c.arity d := by
  obtain ⟨hargs, hinstance⟩ := h
  rcases (c.instantiate_ok hinstance).2 with hs | ⟨hs, rfl, -⟩
  · rcases Ty.structural?_ok hs with ⟨-, n, elem, rfl, rfl⟩ | ⟨-, elem, rfl, rfl⟩ |
      ⟨-, elem, rfl, rfl⟩
    · exact .inl ⟨n, elem, rfl, hargs _ (by simp), hargs _ (by simp)⟩
    · exact .inr (.inl ⟨elem, rfl, hargs _ (by simp)⟩)
    · exact .inr (.inr (.inl ⟨elem, rfl, hargs _ (by simp)⟩))
  · exact .inr (.inr (.inr ⟨_, _, rfl, hargs, hs, c.length_of_instantiate hinstance⟩))

/-- Storing a type does not open it. -/
theorem isClosed_storedArg (t : Ty) : (storedArg t).isClosed = t.isClosed := by
  cases t <;> simp [storedArg, Ty.nominalForm, Ty.isClosed, Ty.allClosed]

/-- Canonical types are closed: a parameter is never the result of an instantiation. -/
theorem Canonical.isClosed {t : Ty} (h : c.Canonical t) : t.isClosed = true := by
  induction h with
  | intro hargs hinstance ih =>
    rcases (c.instantiate_ok hinstance).2 with hs | ⟨-, rfl, -⟩
    · rcases Ty.structural?_ok hs with ⟨-, n, elem, rfl, rfl⟩ | ⟨-, elem, rfl, rfl⟩ |
        ⟨-, elem, rfl, rfl⟩
      all_goals exact ih elem (by simp)
    · rw [Ty.isClosed, Ty.allClosed_eq_all, List.all_eq_true]
      intro s hs
      obtain ⟨a, ha, rfl⟩ := List.mem_map.mp hs
      rw [isClosed_storedArg]
      exact ih a ha

/-- With as many arguments as it takes, a stand-in is read, unless it stands for a kind. -/
theorem isKind_of_structural? {d : DefIndex} {args : List Ty} (hlength : args.length = c.arity d)
    (hs : Ty.structural? d args = none) {m : Marker} (hm : Marker.ofDefinition? d = some m) :
    m.isKind = true := by
  obtain rfl := Marker.eq_definition hm
  rw [arity_definition] at hlength
  -- Each structural stand-in builds types of its own kind. Of arrays the rank has to be read first,
  -- which may fail.
  cases m with
  | array =>
    obtain ⟨rank, elem, rfl⟩ := List.length_eq_two.mp hlength
    rw [Ty.structural?, if_pos rfl] at hs
    split at hs <;> cases hs
  | pointer =>
    obtain ⟨elem, rfl⟩ := List.length_eq_one_iff.mp hlength
    cases hs
  | byRef =>
    obtain ⟨elem, rfl⟩ := List.length_eq_one_iff.mp hlength
    cases hs
  | valueType => rfl
  | referenceType => rfl

/-- A definition over as many arguments as it takes reads as itself, unless it is a structural
stand-in. -/
theorem structuralForm_named {d : DefIndex} {args : List Ty} (hlength : args.length = c.arity d)
    (hs : Ty.structural? d args = none) (ts : List Ty) :
    (Ty.named d ts).structuralForm = .ok (.named d ts) := by
  rw [Ty.structuralForm]
  split
  · next m hm => rw [if_pos (isKind_of_structural? hlength hs hm)]
  · rfl

/-- A canonical type is its own structural form. -/
theorem Canonical.structuralForm {t : Ty} (h : c.Canonical t) : t.structuralForm = .ok t := by
  rcases h.shape with ⟨n, elem, rfl, -⟩ | ⟨elem, rfl, -⟩ | ⟨elem, rfl, -⟩ |
    ⟨d, args, rfl, -, hs, hlength⟩
  · rfl
  · rfl
  · rfl
  · exact structuralForm_named hlength hs _

/-- A canonical type is an instance of a definition. -/
theorem Canonical.head?_ne_none {t : Ty} (h : c.Canonical t) : ∃ d, t.head? = some d := by
  obtain ⟨-, hinstance⟩ := h
  exact ⟨_, c.head?_of_instantiate hinstance⟩

/-! ## Stored arguments

An array or a pointer as an argument of a name is stored as the stand-in that encodes it. Reading
the stored type gives back the one that was stored, and this is how arguments are known from the
instance. -/

/-- A stand-in over closed arguments, of which it has as many as it takes, reads as the structural
type that it denotes. -/
theorem structuralForm_standIn {m : Marker} {args : List Ty} {t : Ty}
    (hs : Ty.structural? m.definition args = some (.ok t)) (hlength : args.length = m.arity)
    (hclosed : ∀ a ∈ args, a.isClosed = true) :
    (Ty.named m.definition args).structuralForm = .ok t := by
  rw [Ty.structuralForm, Marker.ofDefinition?_definition]
  dsimp only
  rw [checkArgs_eq_ok hlength hclosed, hs]
  cases m with
  | valueType => rcases args with _ | ⟨a, _ | ⟨b, _ | ⟨e, es⟩⟩⟩ <;> cases hs
  | referenceType => rcases args with _ | ⟨a, _ | ⟨b, _ | ⟨e, es⟩⟩⟩ <;> cases hs
  | _ => rfl

/-- A canonical type reads as itself from the form in which it is stored as an argument. -/
theorem Canonical.structuralForm_storedArg {t : Ty} (h : c.Canonical t) :
    (storedArg t).structuralForm = .ok t := by
  rcases h.shape with ⟨n, elem, rfl, -⟩ | ⟨elem, rfl, helem⟩ | ⟨elem, rfl, helem⟩ |
    ⟨d, args, rfl, -⟩
  · rfl
  · exact structuralForm_standIn (m := .pointer) rfl rfl (by simpa using helem.isClosed)
  · exact structuralForm_standIn (m := .byRef) rfl rfl (by simpa using helem.isClosed)
  · exact h.structuralForm

/-- The arguments of a canonical type read as canonical types. -/
theorem Canonical.exists_of_mem_headArgs {t : Ty} (h : c.Canonical t) {s : Ty}
    (hs : s ∈ t.headArgs) : ∃ a, c.Canonical a ∧ s.structuralForm = .ok a := by
  rcases h.shape with ⟨n, elem, rfl, hrank, helem⟩ | ⟨elem, rfl, helem⟩ | ⟨elem, rfl, helem⟩ |
    ⟨d, args, rfl, hargs, -⟩
  · rw [Ty.headArgs, List.mem_pair] at hs
    rcases hs with rfl | rfl
    · exact ⟨_, hrank, hrank.structuralForm⟩
    · exact ⟨_, helem, helem.structuralForm⟩
  · obtain rfl := List.mem_singleton.mp hs
    exact ⟨_, helem, helem.structuralForm⟩
  · obtain rfl := List.mem_singleton.mp hs
    exact ⟨_, helem, helem.structuralForm⟩
  · obtain ⟨a, ha, rfl⟩ := List.mem_map.mp hs
    exact ⟨a, hargs a ha, (hargs a ha).structuralForm_storedArg⟩

/-- The arguments that a type was instantiated from are read from those of its head. -/
theorem headArgs_of_instantiate {fuel : Nat} {d : DefIndex} {args : List Ty} {t : Ty}
    (hargs : ∀ a ∈ args, c.Canonical a) (h : c.instantiate fuel d args = some (.ok t)) :
    t.headArgs.map Ty.structuralForm = args.map .ok := by
  rcases (c.instantiate_ok h).2 with hs | ⟨-, rfl, -⟩
  · rw [Ty.headArgs_of_structural? hs]
    exact List.map_congr_left fun a ha => (hargs a ha).structuralForm
  · rw [Ty.headArgs, List.map_map]
    exact List.map_congr_left fun a ha => (hargs a ha).structuralForm_storedArg

/-! ## What is canonical

Instantiation checks the bounds of the definition, which takes fuel. Where there are no bounds, or
where the check is known to succeed, an instance of canonical arguments is canonical. -/

/-- A structural stand-in that is read needs no bounds. -/
theorem instantiate_of_structural? {m : Marker} {args : List Ty} {t : Ty}
    (hlength : args.length = m.arity) (hclosed : ∀ a ∈ args, a.isClosed = true)
    (h : Ty.structural? m.definition args = some (.ok t)) (fuel : Nat) :
    c.instantiate fuel m.definition args = some (.ok t) := by
  rw [instantiate, checkArgs_eq_ok (hlength.trans (c.arity_definition m).symm) hclosed]
  dsimp only
  rw [h]

/-- A pointer to a canonical type is canonical. -/
theorem Canonical.pointer {t : Ty} (h : c.Canonical t) : c.Canonical (.pointer t) :=
  .intro (List.forall_mem_singleton.mpr h)
    (instantiate_of_structural? (m := .pointer) rfl (by simpa using h.isClosed) rfl 0)

/-- Without bounds none is missed. -/
theorem firstMissed_of_bounds_eq_nil (fuel : Nat) {args : List Ty} {ps : List (TypeParam × Ty)}
    (h : ∀ p ∈ ps, p.1.bounds = []) : c.firstMissed fuel args ps = some none := by
  induction ps with
  | nil => rfl
  | cons p ps ih =>
    obtain ⟨hp, hps⟩ := List.forall_mem_cons.mp h
    rw [firstMissed, hp]
    exact ih hps

/-- A definition takes canonical arguments that meet its bounds, if it stands in for nothing. -/
theorem canonical_of_firstMissed {fuel : Nat} (d : DefIndex) {args : List Ty}
    (hargs : ∀ a ∈ args, c.Canonical a) (hlength : args.length = c.arity d)
    (hs : Ty.structural? d args = none)
    (hmissed : c.firstMissed fuel (args.map storedArg)
      ((c.definition d).params.zip (args.map storedArg)) = some none) :
    c.Canonical (.named d (args.map storedArg)) := by
  have hinstance : c.instantiate fuel d args = some (.ok (.named d (args.map storedArg))) := by
    rw [instantiate, checkArgs_eq_ok hlength fun a ha => (hargs a ha).isClosed]
    dsimp only
    rw [hs]
    dsimp only
    rw [hmissed]
  exact .intro hargs hinstance

/-- A definition without bounds takes whatever is canonical, if it stands in for nothing. -/
theorem canonical_named (d : DefIndex) {args : List Ty} (hargs : ∀ a ∈ args, c.Canonical a)
    (hlength : args.length = c.arity d) (hs : Ty.structural? d args = none)
    (hbounds : ∀ p ∈ (c.definition d).params, p.bounds = []) :
    c.Canonical (.named d (args.map storedArg)) :=
  canonical_of_firstMissed d hargs hlength hs <|
    firstMissed_of_bounds_eq_nil 0 fun p hp => hbounds p.1 (List.of_mem_zip hp).1

/-- A definition that takes no arguments is a canonical type. -/
theorem canonical_nominal {d : DefIndex} (h : c.arity d = 0) : c.Canonical (.nominal d) := by
  refine canonical_named d (List.forall_mem_nil _) h.symm rfl ?_
  rw [List.eq_nil_of_length_eq_zero h]
  exact List.forall_mem_nil _

/-- A definition of one parameter without bounds takes whatever is canonical. -/
theorem Canonical.generic {t : Ty} (h : c.Canonical t) (d : DefIndex)
    (hs : Ty.structural? d [t] = none)
    (hparams : (c.definition d).params.map TypeParam.bounds = [[]]) :
    c.Canonical (.named d [storedArg t]) := by
  have harity : c.arity d = 1 := by
    rw [arity, Definition.arity, ← List.length_map TypeParam.bounds, hparams, List.length_singleton]
  refine canonical_named d (List.forall_mem_singleton.mpr h) harity.symm hs fun p hp => ?_
  exact List.mem_singleton.mp (hparams ▸ List.mem_map_of_mem hp)

/-- Arrays are canonical over a canonical rank and a canonical element. -/
theorem Canonical.array {n : Nat} {t : Ty} (h : c.Canonical t)
    (hrank : c.Canonical (rankEncoding (n + 1))) : c.Canonical (.array (n + 1) t) := by
  have hargs : ∀ s ∈ [rankEncoding (n + 1), t], c.Canonical s := by simpa using ⟨hrank, h⟩
  refine .intro hargs (instantiate_of_structural? (m := .array) rfl ?_ ?_ 0)
  · simpa using ⟨hrank.isClosed, h.isClosed⟩
  · rw [Ty.structural?, if_pos rfl, readRank?_rankEncoding]

/-! ## Parts

The parts of a type are what its arguments are read as, and the parts of these. All of them are
canonical if the type is. So a property that canonical types have may be used wherever a recursion
over the structural reading arrives. -/

/-- The parts of a type, each in structural form: the type, the arguments of its head, the arguments
of these, and so on. -/
inductive Part (t : Ty) : Ty → Prop where
  /-- the type is a part of itself -/
  | self : Part t t
  /-- so is every argument of a part -/
  | arg {x s y : Ty} (hx : Part t x) (hs : s ∈ x.headArgs) (hy : s.structuralForm = .ok y) :
      Part t y

/-- Parts of parts are parts. -/
theorem Part.trans {t x y : Ty} (hx : Part t x) (hy : Part x y) : Part t y := by
  induction hy with
  | self => exact hx
  | arg _ hs hz ih => exact ih.arg hs hz

/-- The parts of a canonical type are canonical. -/
theorem Canonical.part {t x : Ty} (h : c.Canonical t) (hx : Part t x) : c.Canonical x := by
  induction hx with
  | self => exact h
  | arg _ hs hy ih =>
    obtain ⟨a, ha, hform⟩ := ih.exists_of_mem_headArgs hs
    rw [hform] at hy
    exact Except.ok.inj hy ▸ ha

/-- What stands inside a type that reads as a part of canonical types reads as a part of them. -/
theorem hereditary_reads {M : Ty → Prop} (hcanonical : ∀ x, M x → c.Canonical x)
    (hparts : ∀ x s y, M x → s ∈ x.headArgs → s.structuralForm = .ok y → M y) :
    Ty.Hereditary fun s => ∃ x, s.structuralForm = .ok x ∧ M x := by
  refine Ty.hereditary_of_headArgs ?_ fun s hs => ?_
  · rintro s t ⟨x, hx, hM⟩ ht y hy
    obtain rfl : x = t := Except.ok.inj (hx.symm.trans ht)
    obtain ⟨a, -, ha⟩ := (hcanonical x hM).exists_of_mem_headArgs hy
    exact ⟨a, ha, hparts x y a hM hy ha⟩
  · obtain ⟨x, hx, -⟩ := hs
    exact ⟨x, hx⟩

end Catalog

end TypeResolution
