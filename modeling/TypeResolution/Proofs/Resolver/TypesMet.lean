import TypeResolution.Proofs.Resolver.Contribution
import TypeResolution.Proofs.Resolver.Windows
import TypeResolution.Proofs.Unification.TypesMet

/-!
# The types that a resolution meets

A resolution matches its candidates, closes templates over what the slots bound, and resolves again
the types that directives build. So it goes on meeting types that matching meets
(`TypeResolution.Proofs.Unification.TypesMet`), but starting again from new candidates at every
level: `Met` is the least set with the candidates in it that a resolver does not leave, and with a
directive such as `List<T>` it is infinite.

What patterns name, and what producers are handed, is inside of every set that matching does not
leave (`KeepsTo.openTemplate`, `KeepsTo.candidates`). The sequences among the arguments of a call
are built by directives and resolved in the windows of these (`sequence_of_mem_argumentLists`).

Two kinds of facts are kept apart here. What a pattern *names* is finite and known before any
resolution: the definitions of its template and of its constraints, the types that stand in them.
What a resolution *meets* depends on candidates, and it is described by closure only. A property of
types that is to hold throughout a resolution has to survive both, and `KeepsTo` and `MatchClosed`
say what that takes.
-/

namespace TypeResolution

/-! ## What a pattern names -/

/-- The definition that a template applies. -/
def Template.definition? : Template → Option DefIndex
  | .definition d => some d
  | .closed t => t.head?

/-- The types that a template binds names to from the start. -/
def Template.args : Template → List Ty
  | .definition _ => []
  | .closed t => t.headArgs

namespace Pattern

variable {V : Type}

/-- The definitions that a pattern names: in its template, its slots and its directives. -/
def targets (p : Pattern V) : List DefIndex :=
  p.template.definition?.toList ++ Constraint.targetsAll p.slotConstraints
    ++ Constraint.targetsAll p.directiveConstraints

/-- The pattern names definitions from `D` and types of `M`. -/
structure KeepsTo (D : DefIndex → Prop) (M : Ty → Prop) (p : Pattern V) : Prop where
  /-- the template applies such a definition -/
  target : ∀ d, p.template.definition? = some d → D d
  /-- to such types, if it is closed -/
  args : ∀ t ∈ p.template.args, M t
  /-- so do the slots -/
  slots : ∀ s ∈ p.slots, ∀ k ∈ s.constraints, k.Over D
  /-- and the directives -/
  directives : ∀ d ∈ p.directives, ∀ k ∈ d.types, k.Over D

end Pattern

/-- An environment stays inside of a set when types of the set are bound. -/
theorem Bindings.In.bindAll {M : Ty → Prop} {b : Bindings} (hb : b.In M) (names : List String)
    {ts : List Ty} (hts : ∀ t ∈ ts, M t) : (b.bindAll names ts).In M := by
  induction names generalizing b ts with
  | nil => exact hb
  | cons name names ih =>
    cases ts with
    | nil => exact hb
    | cons t ts =>
      obtain ⟨ht, hts⟩ := List.forall_mem_cons.mp hts
      exact ih (hb.bind name ht) hts

namespace Resolver

variable {V : Type} (r : Resolver V)

/-- The patterns of a resolver, the fallback included. -/
def allPatterns : List (Pattern V) := r.patterns ++ r.fallback.toList

/-- The directives of a resolver's patterns. -/
def directives : List Directive := r.allPatterns.flatMap Pattern.directives

/-- Some pattern of the resolver names the definition. -/
def Uses (d : DefIndex) : Prop := ∃ p ∈ r.allPatterns, d ∈ p.targets

/-- The types that a resolution of candidates meets. -/
inductive Met (candidates : List Ty) : Ty → Prop where
  /-- a candidate -/
  | candidate {t} : t ∈ candidates → Met candidates t
  /-- what a closed template is written over -/
  | template {p t} : p ∈ r.allPatterns → t ∈ p.template.args → Met candidates t
  /-- what a type is read as -/
  | reading {t u} : Met candidates t → t.structuralForm = .ok u → Met candidates u
  /-- what a type is an instance over -/
  | headArg {t x} : Met candidates t → x ∈ t.headArgs → Met candidates x
  /-- an ancestor -/
  | ancestor {t a} : Met candidates t → r.catalog.Inherits t a → Met candidates a
  /-- an instance that is built of types met -/
  | built {d args t} : r.Uses d → (∀ a ∈ args, Met candidates a) →
      r.catalog.HasInstance d args t → Met candidates t

/-- Matching does not leave the types that a resolution meets, by the way these are defined. -/
theorem matchClosed_met (candidates : List Ty) :
    r.catalog.MatchClosed r.Uses (r.Met candidates) where
  reading _ _ ht hread := ht.reading hread
  headArgs _ ht _ hx := ht.headArg hx
  inherited _ _ ht ha := ht.ancestor ha
  built _ _ _ hd hargs ht := .built hd hargs ht

variable {r}

/-- The patterns of a resolver name what it uses, and types that are met. -/
theorem keepsTo_met (candidates : List Ty) {p : Pattern V} (hp : p ∈ r.allPatterns) :
    p.KeepsTo r.Uses (r.Met candidates) where
  target d hd := ⟨p, hp, by simp [Pattern.targets, hd]⟩
  args _ ht := .template hp ht
  slots s hs k hk d hd := by
    refine ⟨p, hp, List.mem_append_left _ (List.mem_append_right _ ?_)⟩
    rw [Constraint.targetsAll_eq_flatMap]
    exact List.mem_flatMap.mpr ⟨k, List.mem_flatMap.mpr ⟨s, hs, hk⟩, hd⟩
  directives s hs k hk d hd := by
    refine ⟨p, hp, List.mem_append_right _ ?_⟩
    rw [Constraint.targetsAll_eq_flatMap]
    exact List.mem_flatMap.mpr ⟨k, List.mem_flatMap.mpr ⟨s, hs, hk⟩, hd⟩

/-- A pattern in a window is one of the resolver's. -/
theorem mem_allPatterns_of_mem_select {w : Window} {q : Pattern V × Nat}
    (h : q ∈ w.select r.patterns) : q.1 ∈ r.allPatterns :=
  List.mem_append_left _ (List.mem_of_getElem? (Window.mem_select_iff.mp h).1)

/-- So is the fallback. -/
theorem mem_allPatterns_of_fallback {p : Pattern V} (h : r.fallback = some p) :
    p ∈ r.allPatterns :=
  List.mem_append_right _ (by rw [h]; exact List.mem_singleton_self p)

/-- The directives of a pattern are among those of the resolver. -/
theorem mem_directives {p : Pattern V} (hp : p ∈ r.allPatterns) {d : Directive}
    (hd : d ∈ p.directives) : d ∈ r.directives :=
  List.mem_flatMap.mpr ⟨p, hp, hd⟩

/-! ## Templates

A template opens to a definition and a first environment. A definition on its own binds nothing, so
everything is left to the slots; a closed type binds all parameters to the arguments it stores, and
leaves nothing to them. -/

/-- What is known of a template that can be used. -/
theorem openTemplate_eq_ok {template : Template} {d : DefIndex} {b : Bindings}
    (h : r.openTemplate template = .ok (d, b)) :
    template.definition? = some d ∧
      b = Bindings.bindAll [] ((r.catalog.definition d).params.map (·.name)) template.args := by
  cases template with
  | definition e =>
    obtain ⟨rfl, rfl⟩ := Prod.mk.inj (Except.ok.inj h)
    exact ⟨rfl, by simp [Template.args, Bindings.bindAll]⟩
  | closed t =>
    rw [openTemplate] at h
    -- A closed template may have a type for which there is no definition, which opens to an error.
    cases hhead : t.head? with
    | none =>
      rw [hhead] at h
      cases h
    | some e =>
      rw [hhead] at h
      dsimp only at h
      split at h
      · obtain ⟨rfl, rfl⟩ := Prod.mk.inj (Except.ok.inj h)
        exact ⟨hhead, rfl⟩
      · cases h

/-- The arguments that close a template are types that names are bound to. -/
theorem get?_of_boundArgs? {b : Bindings} {params : List TypeParam} {args : List Ty}
    (h : boundArgs? b params = some args) :
    List.Forall₂ (fun param t => b.get? param.name = some t) params args :=
  mapM_eq_some_iff.mp h

variable {D : DefIndex → Prop} {M : Ty → Prop}

/-- The arguments that parameters are bound to belong to every set that the environment is inside
of. -/
theorem mem_boundArgs? {b : Bindings} (hb : b.In M) {params : List TypeParam} {args : List Ty}
    (h : boundArgs? b params = some args) : ∀ t ∈ args, M t := by
  intro t ht
  obtain ⟨i, hi, rfl⟩ := List.mem_iff_getElem.mp ht
  have hpairs := get?_of_boundArgs? h
  exact hb _ _ (hpairs.get (hpairs.length_eq ▸ hi) hi)

end Resolver

namespace Pattern.KeepsTo

variable {V : Type} {r : Resolver V} {D : DefIndex → Prop} {M : Ty → Prop} {p : Pattern V}

/-- Matching starts inside. -/
theorem openTemplate (hp : p.KeepsTo D M) {d : DefIndex} {b : Bindings}
    (h : r.openTemplate p.template = .ok (d, b)) : D d ∧ b.In M := by
  obtain ⟨hd, rfl⟩ := Resolver.openTemplate_eq_ok h
  exact ⟨hp.target d hd, (Bindings.in_nil M).bindAll _ hp.args⟩

/-- Nested resolutions start inside. -/
theorem candidates (hp : p.KeepsTo D M) {c : Catalog} (hM : c.MatchClosed D M) {b : Bindings}
    (hb : b.In M) {fuel : Nat} {d : Directive} (hd : d ∈ p.directives) {ts : List Ty}
    (h : Constraint.requireTypes c fuel b d.types = some (.ok ts)) : ∀ t ∈ ts, M t :=
  hM.mem_requireTypes hb d.types (hp.directives d hd) h

end Pattern.KeepsTo

namespace Resolver

variable {V : Type} {r : Resolver V}

/-! ## Sequences

An argument list holds a sequence for each parameter with a directive that asks for all instances,
and nothing else in it is one. So every sequence goes back to a directive of the producer: the
directive's candidates were built before, and the sequence keeps them together with the window that
the directive has at this place. -/

/-- A nested resolution fills in no sequence. -/
theorem not_sequence_of_mem_parameterFillings {nested : NestedListing V} {candidates : List Ty}
    {window : Window} {hasDefault : Bool} {arg : Filled V}
    (h : arg ∈ (parameterFillings nested candidates window hasDefault).items)
    (candidates' : List Ty) (window' : Window) : arg ≠ .sequence candidates' window' := by
  obtain ⟨l, hl, harg⟩ := Listing.mem_concat h
  rcases List.mem_cons.mp hl with rfl | hl
  · obtain ⟨v, -, rfl⟩ := List.mem_map.mp harg
    exact nofun
  · obtain rfl := List.mem_singleton.mp hl
    cases hasDefault with
    | true => exact List.mem_singleton.mp harg ▸ nofun
    | false => exact absurd harg List.not_mem_nil

/-- **A sequence is built by a directive**, and it is resolved in the window that the directive
derives. -/
theorem sequence_of_mem_argumentLists {fuel : Nat} {nested : NestedListing V} {place : Place}
    {b : Bindings} {params : List Parameter} {args : List (Filled V)}
    (h : args ∈ (r.argumentLists fuel nested place b params).items) {candidates : List Ty}
    {window : Window} (hmem : .sequence candidates window ∈ args) :
    ∃ d ∈ params.filterMap Parameter.directive?,
      Constraint.requireTypes r.catalog fuel b d.types = some (.ok candidates) ∧
        window = place.window.directed place.index d := by
  induction params generalizing args with
  | nil =>
    rw [List.mem_singleton.mp h] at hmem
    exact absurd hmem List.not_mem_nil
  | cons param params ih =>
    -- Only a parameter that specializes contributes anything to drive. What the others contribute
    -- are values and gaps, and the sequence is found among the rest.
    cases param with
    | required => exact absurd h List.not_mem_nil
    | optional =>
      obtain ⟨rest, hrest, rfl⟩ := List.mem_map.mp h
      exact ih hrest ((List.mem_cons.mp hmem).resolve_left nofun)
    | specialize d hasDefault =>
      have hlater : ∀ rest ∈ (r.argumentLists fuel nested place b params).items,
          .sequence candidates window ∈ rest → ∃ d' ∈ d :: params.filterMap Parameter.directive?,
            Constraint.requireTypes r.catalog fuel b d'.types = some (.ok candidates) ∧
              window = place.window.directed place.index d' := by
        intro rest hrest hmem
        obtain ⟨d', hd', h⟩ := ih hrest hmem
        exact ⟨d', List.mem_cons_of_mem d hd', h⟩
      rw [argumentLists] at h
      obtain ⟨result, hresult, h⟩ := Listing.mem_ofFueled h
      cases result with
      | error e => exact absurd h List.not_mem_nil
      | ok ts =>
        dsimp only at h
        split at h
        · obtain ⟨rest, hrest, rfl⟩ := List.mem_map.mp h
          rcases List.mem_cons.mp hmem with heq | hmem
          · obtain ⟨rfl, rfl⟩ := Filled.sequence.inj heq
            exact ⟨d, List.mem_cons_self, hresult, rfl⟩
          · exact hlater rest hrest hmem
        · obtain ⟨arg, harg, h⟩ := Listing.mem_each h
          obtain ⟨rest, hrest, rfl⟩ := List.mem_map.mp h
          rcases List.mem_cons.mp hmem with heq | hmem
          · exact absurd heq.symm (not_sequence_of_mem_parameterFillings harg candidates window)
          · exact hlater rest hrest hmem

end Resolver

end TypeResolution
