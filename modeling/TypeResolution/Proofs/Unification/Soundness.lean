import TypeResolution.Catalog.BaseLibrary
import TypeResolution.Proofs.Catalog.Forms
import TypeResolution.Proofs.Unification.Solutions

/-!
# Unification is sound

Every set of bindings that matching finds is a solution: under it, each plain constraint of a slot
denotes an instance of its target, and this instance is a relative of the slot's candidate in the
direction of the constraint's own variance.

Two facts carry the induction over the constraint.

* Bindings only grow (`extends_argSolutions`), so what a sub-constraint denotes under the bindings
  of its own solution it still denotes under those of the whole.
* What unification hands upwards is what the constraint denotes (`denoted_argSolutions`): a bound
  parameter hands up the type it is bound to, an instance hands up what was rebuilt from its
  arguments.

A constraint is plain if it has neither wildcards nor negations nor kind markers, for only these
stand for no type under given bindings. Nothing is asked of the other constraints of a slot: they
may bind what they like, as long as it is there in the end.
-/

namespace TypeResolution

/-! ## Growing bindings

Names are bound and never bound anew. So what a solution binds is what was bound before and more. -/

namespace Bindings

/-- Whatever `b` binds, `e` binds to the same type. -/
def Extends (e b : Bindings) : Prop := ∀ name t, b.get? name = some t → e.get? name = some t

/-- Bindings extend themselves. -/
theorem Extends.refl (b : Bindings) : b.Extends b := fun _ _ h => h

/-- An extension of an extension is one. -/
theorem Extends.trans {e f b : Bindings} (he : e.Extends f) (hf : f.Extends b) : e.Extends b :=
  fun name t h => he name t (hf name t h)

/-- Binding a name that is not bound yet changes nothing for the others. -/
theorem extends_bind {b : Bindings} {name : String} (h : b.get? name = none) (t : Ty) :
    (b.bind name t).Extends b := by
  intro other u hu
  by_cases hname : other = name
  · rw [hname, h] at hu
    cases hu
  · rw [get?_bind_of_ne b t hname]
    exact hu

end Bindings

/-! ## What a constraint denotes

Under bindings for its names a plain constraint denotes a type, by recursion: a parameter what it is
bound to, an instance what its definition makes of what the arguments denote. Lack of fuel and
failure are kept apart, as everywhere. -/

namespace Constraint

mutual
/-- Whether a constraint is built from parameters and instances alone, without the kind markers. -/
def isPlain : Constraint → Bool
  | .wildcard => false
  | .param .. => true
  | .instanceOf target _ args => !isKindMarker target && allPlain args
  | .negation _ => false

/-- Whether all constraints of a list are plain. -/
def allPlain : List Constraint → Bool
  | [] => true
  | k :: ks => k.isPlain && allPlain ks
end

mutual
/-- The type that a plain constraint denotes under some bindings: every parameter is replaced by the
structural form of the type that it is bound to, and the definitions are instantiated from the
inside out. There is none if a parameter is not bound, or bound to a type without a structural form,
or if an instantiation fails. -/
def denoted (c : Catalog) (fuel : Nat) (b : Bindings) : Constraint → Fueled (Option Ty)
  | .wildcard => some none
  | .negation _ => some none
  | .param name _ => some ((b.get? name).bind fun t => t.structuralForm.toOption)
  | .instanceOf target _ args =>
    match denotedArgs c fuel b args with
    | none => none
    | some none => some none
    | some (some ts) => (c.instantiate fuel target ts).map Except.toOption

/-- The types that plain constraints denote, if each denotes one. -/
def denotedArgs (c : Catalog) (fuel : Nat) (b : Bindings) :
    List Constraint → Fueled (Option (List Ty))
  | [] => some (some [])
  | k :: ks =>
    match denoted c fuel b k with
    | none => none
    | some none => some none
    | some (some t) => (denotedArgs c fuel b ks).map (Option.map (t :: ·))
end

variable (c : Catalog) (fuel : Nat)

/-- A parameter denotes the reading of what it is bound to. -/
theorem denoted_param {b : Bindings} {name : String} {v : Variance} {bound t : Ty}
    (hb : b.get? name = some bound) (ht : bound.structuralForm = .ok t) :
    denoted c fuel b (.param name v) = some (some t) := by
  rw [denoted, hb, Option.bind_some, ht]
  rfl

/-- An instance denotes what its definition makes of its arguments. -/
theorem denoted_instanceOf {b : Bindings} {target : DefIndex} {v : Variance}
    {args : List Constraint} {ts : List Ty} {t : Ty}
    (hargs : denotedArgs c fuel b args = some (some ts))
    (ht : c.instantiate fuel target ts = some (.ok t)) :
    denoted c fuel b (.instanceOf target v args) = some (some t) := by
  rw [denoted, hargs]
  dsimp only
  rw [ht]
  rfl

/-- A list denotes one by one. -/
theorem denotedArgs_cons {b : Bindings} {k : Constraint} {ks : List Constraint} {t : Ty}
    {ts : List Ty} (hk : denoted c fuel b k = some (some t))
    (hks : denotedArgs c fuel b ks = some (some ts)) :
    denotedArgs c fuel b (k :: ks) = some (some (t :: ts)) := by
  rw [denotedArgs, hk]
  dsimp only
  rw [hks]
  rfl

end Constraint

variable (c : Catalog) (fuel : Nat)

/-! ## Members of solution lists

What stands in a list of solutions got there by one of few ways, and each lemma here takes one step
back. -/

/-- An item behind a guard passed the test. -/
theorem mem_guard {ε α : Type} {test : Fueled Bool} {a z : α}
    (h : z ∈ (Listing.guard test a : Listing ε α).items) : test = some true ∧ z = a := by
  obtain ⟨passes, rfl, hz⟩ := Listing.mem_ofFueled h
  cases passes with
  | false => exact absurd hz List.not_mem_nil
  | true => exact ⟨rfl, List.mem_singleton.mp hz⟩

/-- An item behind a reading was found for what was read. -/
theorem mem_structuralSolutions {α : Type} {t : Ty} {f : Ty → Listing ResolutionError α} {z : α}
    (h : z ∈ (structuralSolutions t f).items) :
    ∃ u, t.structuralForm = .ok u ∧ z ∈ (f u).items := by
  rw [structuralSolutions] at h
  split at h
  · exact absurd h List.not_mem_nil
  · next u hu => exact ⟨u, hu, h⟩

/-- A later occurrence of a parameter hands up the structural form of the type it is bound to. -/
theorem mem_boundSolutions {v : Variance} {candidate bound t : Ty}
    (h : t ∈ (boundSolutions c fuel v candidate bound).items) : bound.structuralForm = .ok t := by
  obtain ⟨candidate', -, h⟩ := mem_structuralSolutions h
  obtain ⟨bound', hbound, h⟩ := mem_structuralSolutions h
  obtain ⟨-, rfl⟩ := mem_guard h
  exact hbound

/-- A rebuilt type is an instance and a relative of the candidate. -/
theorem mem_rebuiltSolutions {v : Variance} {target : DefIndex} {candidate : Ty} {args : List Ty}
    {t : Ty} (h : t ∈ (rebuiltSolutions c fuel v target candidate args).items) :
    c.instantiate fuel target args = some (.ok t) ∧
      isRelative c fuel v t candidate = some true := by
  obtain ⟨result, hresult, h⟩ := Listing.mem_ofFueled h
  cases result with
  | error e => exact absurd h List.not_mem_nil
  | ok result =>
    obtain ⟨hrelative, rfl⟩ := mem_guard h
    exact ⟨hresult, hrelative⟩

/-- **What an instance constraint finds**: a kind marker finds the candidate; any other target finds
an instance that was rebuilt from a solution of its sub-constraints at one of its sites, and that is
a relative of the candidate. -/
theorem exists_site_of_mem_instanceSolutions {outer v : Variance} {target : DefIndex}
    {args : List Constraint}
    {solve : Variance → Site → Listing ResolutionError (Bindings × List Ty)} {b : Bindings}
    {candidate : Ty} {p : Bindings × Ty}
    (h : p ∈ (instanceSolutions c fuel outer v target args solve b candidate).items) :
    ∃ u, candidate.structuralForm = .ok u ∧
      ((Constraint.isKindMarker target = true ∧ p = (b, u)) ∨
        c.arity target = args.length ∧ ∃ found site ts,
          sites c fuel u target (outer.nest v) args b = some found ∧ site ∈ found ∧
            (p.1, ts) ∈ (solve (outer.nest v) site).items ∧
            c.instantiate fuel target ts = some (.ok p.2) ∧
            isRelative c fuel (outer.nest v) p.2 u = some true) := by
  obtain ⟨u, hu, h⟩ := mem_structuralSolutions h
  refine ⟨u, hu, ?_⟩
  -- The first two cases are kind markers, which hand up the candidate. In the others the number of
  -- arguments is right and there is a site.
  split at h
  · next hm =>
    split at h
    · exact .inl ⟨by rw [Constraint.isKindMarker, hm]; rfl, List.mem_singleton.mp h⟩
    · exact absurd h List.not_mem_nil
  · next hm =>
    split at h
    · exact .inl ⟨by rw [Constraint.isKindMarker, hm]; rfl, List.mem_singleton.mp h⟩
    · exact absurd h List.not_mem_nil
  · split at h
    · exact absurd h List.not_mem_nil
    · next hcount =>
      obtain ⟨found, hfound, h⟩ := Listing.mem_ofFueled h
      obtain ⟨l, hl, h⟩ := Listing.mem_concat h
      obtain ⟨site, hsite, rfl⟩ := List.mem_map.mp hl
      obtain ⟨q, hq, h⟩ := Listing.mem_each h
      obtain ⟨result, hresult, rfl⟩ := List.mem_map.mp h
      obtain ⟨hinstance, hrelative⟩ := mem_rebuiltSolutions c fuel hresult
      refine .inr ⟨?_, found, site, q.2, hfound, hsite, hq, hinstance, hrelative⟩
      rw [checkArgCount] at hcount
      split at hcount
      · assumption
      · cases hcount

/-- The same, whichever the site is. -/
theorem mem_instanceSolutions {outer v : Variance} {target : DefIndex} {args : List Constraint}
    {solve : Variance → Site → Listing ResolutionError (Bindings × List Ty)} {b : Bindings}
    {candidate : Ty} {p : Bindings × Ty}
    (h : p ∈ (instanceSolutions c fuel outer v target args solve b candidate).items) :
    ∃ u, candidate.structuralForm = .ok u ∧
      ((Constraint.isKindMarker target = true ∧ p = (b, u)) ∨
        c.arity target = args.length ∧ ∃ site ts,
          (p.1, ts) ∈ (solve (outer.nest v) site).items ∧
            c.instantiate fuel target ts = some (.ok p.2) ∧
            isRelative c fuel (outer.nest v) p.2 u = some true) := by
  obtain ⟨u, hu, hkind | ⟨hcount, -, site, ts, -, -, hrest⟩⟩ :=
    exists_site_of_mem_instanceSolutions c fuel h
  · exact ⟨u, hu, .inl hkind⟩
  · exact ⟨u, hu, .inr ⟨hcount, site, ts, hrest⟩⟩

/-! ## Bindings only grow

By recursion along constraints, sites and slots. Only a parameter that is not yet bound changes
anything, and it adds one name. -/

mutual
/-- A solution of a sub-constraint extends the bindings before it. -/
theorem extends_argSolutions {outer : Variance} {arg : Ty} {b : Bindings} {p : Bindings × Ty} :
    (k : Constraint) → p ∈ (argSolutions c fuel outer arg b k).items → p.1.Extends b
  | .wildcard, h => by
    rw [argSolutions] at h
    rw [List.mem_singleton.mp h]
    exact .refl b
  | .param name v, h => by
    rw [argSolutions] at h
    split at h
    · next hb =>
      rw [List.mem_singleton.mp h]
      exact Bindings.extends_bind hb arg
    · obtain ⟨t, -, rfl⟩ := List.mem_map.mp h
      exact .refl b
  | .instanceOf target v args, h => by
    rw [argSolutions] at h
    -- A kind marker leaves the bindings as they are. Otherwise they are those of the site.
    obtain ⟨u, -, ⟨-, rfl⟩ | ⟨-, site, ts, hts, -, -⟩⟩ := mem_instanceSolutions c fuel h
    · exact .refl b
    · exact extends_siteSolutions args hts
  | .negation inner, h => absurd h List.not_mem_nil

/-- So does a solution along a site. -/
theorem extends_siteSolutions {outer : Variance} {site : Site} {b : Bindings}
    {q : Bindings × List Ty} :
    (ks : List Constraint) → q ∈ (siteSolutions c fuel outer site b ks).items → q.1.Extends b
  | [], h => by
    rw [siteSolutions] at h
    rw [List.mem_singleton.mp h]
    exact .refl b
  | k :: ks, h => by
    cases site with
    | nil =>
      rw [siteSolutions] at h
      rw [List.mem_singleton.mp h]
      exact .refl b
    | cons arg rest =>
      rw [siteSolutions] at h
      obtain ⟨u, -, h⟩ := mem_structuralSolutions h
      obtain ⟨p, hp, h⟩ := Listing.mem_each h
      obtain ⟨q, hq, rfl⟩ := List.mem_map.mp h
      exact (extends_siteSolutions ks hq).trans (extends_argSolutions k hp)
end

mutual
/-- A solution of a constraint that stands in a slot extends them too. -/
theorem extends_constraintSolutions {outer : Variance} {candidate : Ty} {b e : Bindings} :
    (k : Constraint) → e ∈ (constraintSolutions c fuel outer candidate b k).items → e.Extends b
  | .wildcard, h => by
    rw [constraintSolutions] at h
    rw [List.mem_singleton.mp h]
    exact .refl b
  | .param name v, h => by
    rw [constraintSolutions] at h
    split at h
    · next hb =>
      rw [List.mem_singleton.mp h]
      exact Bindings.extends_bind hb candidate
    · obtain ⟨t, -, rfl⟩ := List.mem_map.mp h
      exact .refl b
  | .instanceOf target v args, h => by
    rw [constraintSolutions] at h
    obtain ⟨p, hp, rfl⟩ := List.mem_map.mp h
    rw [← argSolutions] at hp
    exact extends_argSolutions c fuel _ hp
  | .negation inner, h => by
    rw [constraintSolutions] at h
    rw [List.mem_singleton.mp (Listing.mem_ifNone h)]
    exact .refl b

/-- A solution of all constraints of a slot extends the bindings. -/
theorem extends_conjunctionSolutions {outer : Variance} {candidate : Ty} {b e : Bindings} :
    (ks : List Constraint) → e ∈ (conjunctionSolutions c fuel outer candidate b ks).items →
      e.Extends b
  | [], h => by
    rw [conjunctionSolutions] at h
    rw [List.mem_singleton.mp h]
    exact .refl b
  | k :: ks, h => by
    rw [conjunctionSolutions] at h
    obtain ⟨b', hb', h⟩ := Listing.mem_each h
    exact (extends_conjunctionSolutions ks h).trans (extends_constraintSolutions k hb')
end

/-- A solution of all slots does. -/
theorem extends_slotSolutions {slots : List Slot} {candidates : List Ty} {b e : Bindings}
    (h : e ∈ (slotSolutions c fuel slots candidates b).items) : e.Extends b := by
  induction slots generalizing candidates b with
  | nil =>
    rw [slotSolutions] at h
    rw [List.mem_singleton.mp h]
    exact .refl b
  | cons slot slots ih =>
    cases candidates with
    | nil => exact absurd h List.not_mem_nil
    | cons candidate rest =>
      obtain ⟨b', hb', h⟩ := Listing.mem_each h
      exact (ih h).trans (extends_conjunctionSolutions c fuel _ hb')

/-! ## Soundness

The bindings in question are always those at the end, `e`, and they extend those in the middle. So
the statement for a part is about any extension of its own bindings. -/

mutual
/-- What a plain constraint hands upwards is what it denotes, under the bindings of its solution and
under all that extend them. -/
theorem denoted_argSolutions {outer : Variance} {arg : Ty} {b e : Bindings} {p : Bindings × Ty}
    (harg : arg.structuralForm = .ok arg) :
    (k : Constraint) → k.isPlain = true → p ∈ (argSolutions c fuel outer arg b k).items →
      e.Extends p.1 → k.denoted c fuel e = some (some p.2)
  | .param name v, _, h, he => by
    rw [argSolutions] at h
    split at h
    · -- the first occurrence binds the argument, which is in structural form
      rw [List.mem_singleton.mp h] at he ⊢
      exact Constraint.denoted_param c fuel (he name arg (b.get?_bind_self name arg)) harg
    · next bound hb =>
      obtain ⟨t, ht, rfl⟩ := List.mem_map.mp h
      exact Constraint.denoted_param c fuel (he name bound hb) (mem_boundSolutions c fuel ht)
  | .instanceOf target v args, hplain, h, he => by
    rw [Constraint.isPlain, Bool.and_eq_true, Bool.not_eq_true'] at hplain
    obtain ⟨hkind, hargs⟩ := hplain
    rw [argSolutions] at h
    obtain ⟨u, -, ⟨hm, -⟩ | ⟨hcount, site, ts, hts, hinstance, -⟩⟩ :=
      mem_instanceSolutions c fuel h
    · rw [hkind] at hm
      cases hm
    · -- no sub-constraint was left out, or the instance would lack arguments
      have hlength : ts.length = args.length :=
        (c.length_of_instantiate hinstance).trans hcount
      exact Constraint.denoted_instanceOf c fuel
        (denotedArgs_siteSolutions args hargs hts hlength he) hinstance
  | .wildcard, hplain, _, _ => absurd hplain Bool.false_ne_true
  | .negation _, hplain, _, _ => absurd hplain Bool.false_ne_true

/-- What is found along a site is denoted by the sub-constraints, if the site was long enough. -/
theorem denotedArgs_siteSolutions {outer : Variance} {site : Site} {b e : Bindings}
    {q : Bindings × List Ty} :
    (ks : List Constraint) → Constraint.allPlain ks = true →
      q ∈ (siteSolutions c fuel outer site b ks).items → q.2.length = ks.length →
      e.Extends q.1 → Constraint.denotedArgs c fuel e ks = some (some q.2)
  | [], _, h, _, _ => by
    rw [siteSolutions] at h
    rw [List.mem_singleton.mp h]
    rfl
  | k :: ks, hplain, h, hlength, he => by
    rw [Constraint.allPlain, Bool.and_eq_true] at hplain
    obtain ⟨hk, hks⟩ := hplain
    cases site with
    | nil =>
      rw [siteSolutions] at h
      rw [List.mem_singleton.mp h] at hlength
      cases hlength
    | cons arg rest =>
      rw [siteSolutions] at h
      obtain ⟨u, hu, h⟩ := mem_structuralSolutions h
      obtain ⟨p, hp, h⟩ := Listing.mem_each h
      obtain ⟨q, hq, rfl⟩ := List.mem_map.mp h
      -- the bindings of the whole extend those that the first argument was solved with
      have hrest : q.1.Extends p.1 := extends_siteSolutions c fuel ks hq
      have hep : e.Extends p.1 := Bindings.Extends.trans he hrest
      have hfirst := denoted_argSolutions (Ty.structuralForm_idem hu) k hk hp hep
      have hothers := denotedArgs_siteSolutions ks hks hq (Nat.succ.inj hlength) he
      exact Constraint.denotedArgs_cons c fuel hfirst hothers
end

/-- Every constraint of a conjunction was solved on the way to a solution of the whole. -/
theorem solved_of_mem_conjunctionSolutions {outer : Variance} {candidate : Ty} {b e : Bindings}
    {k : Constraint} {ks : List Constraint} (hk : k ∈ ks)
    (h : e ∈ (conjunctionSolutions c fuel outer candidate b ks).items) :
    ∃ before after, after ∈ (constraintSolutions c fuel outer candidate before k).items ∧
      e.Extends after := by
  induction ks generalizing b with
  | nil => exact absurd hk List.not_mem_nil
  | cons k' ks ih =>
    rw [conjunctionSolutions] at h
    obtain ⟨b', hb', hrest⟩ := Listing.mem_each h
    rcases List.mem_cons.mp hk with rfl | hk
    · exact ⟨b, b', hb', extends_conjunctionSolutions c fuel ks hrest⟩
    · exact ih hk hrest

/-- Every slot was solved on the way to a solution of the row, on the candidate at its position. -/
theorem solved_of_mem_slotSolutions {slots : List Slot} {candidates : List Ty} {b e : Bindings}
    (h : e ∈ (slotSolutions c fuel slots candidates b).items) {i : Nat} {slot : Slot}
    (hslot : slots[i]? = some slot) :
    ∃ candidate before after, candidates[i]? = some candidate ∧
      after ∈ (conjunctionSolutions c fuel .ambivariant candidate before slot.constraints).items ∧
      e.Extends after := by
  induction slots generalizing candidates b i with
  | nil => cases hslot
  | cons first slots ih =>
    cases candidates with
    | nil => exact absurd h List.not_mem_nil
    | cons candidate rest =>
      obtain ⟨b', hb', h⟩ := Listing.mem_each h
      cases i with
      | zero =>
        obtain rfl : first = slot := Option.some.inj hslot
        exact ⟨candidate, b, b', rfl, hb', extends_slotSolutions c fuel h⟩
      | succ i =>
        obtain ⟨other, before, after, hother, hafter, he⟩ := ih h hslot
        exact ⟨other, before, after, hother, hafter, he⟩

/-- Below an ambivariant place a variance is what it is. -/
theorem nest_ambivariant (v : Variance) : Variance.ambivariant.nest v = v := by
  cases v <;> rfl

/-- The instance that a constraint of some variance denotes may stand for the candidate: it is the
candidate, a type the candidate is assignable to, one assignable to the candidate, or one of these
two. -/
def Accepts (v : Variance) (result candidate : Ty) : Prop :=
  match v with
  | .invariant => result = candidate
  | .covariant => c.isAssignable fuel result candidate = some true
  | .contravariant => c.isAssignable fuel candidate result = some true
  | .ambivariant =>
    c.isAssignable fuel result candidate = some true ∨
      c.isAssignable fuel candidate result = some true

/-- What passes the test of relatives is accepted. -/
theorem accepts_of_isRelative {v : Variance} {result candidate : Ty}
    (h : isRelative c fuel v result candidate = some true) : Accepts c fuel v result candidate := by
  cases v with
  | invariant =>
    have hsame : result = candidate := by simpa [isRelative] using h
    exact hsame
  | covariant => exact h
  | contravariant => exact h
  | ambivariant =>
    rw [isRelative] at h
    rcases hforward : c.isAssignable fuel result candidate with _ | _ | _
    · rw [hforward] at h
      cases h
    · rw [hforward] at h
      exact .inr h
    · exact .inl hforward

/-- **Unification is sound.** Whatever bindings matching hands to its consumer, from whatever
bindings it started: every plain instance constraint of every slot denotes a type under them, this
type is an instance of the constraint's target, and it is the candidate of the slot or its relative
in the direction of the constraint's variance. -/
theorem slotBindings_sound {ν : Type} {slots : List Slot} {candidates : List Ty} {b e : Bindings}
    {stop : List Bindings → Bool}
    (he : e ∈ ((slotBindings c fuel slots candidates b : Search ν _ _).run stop).items)
    {i : Nat} {slot : Slot} (hslot : slots[i]? = some slot)
    {target : DefIndex} {v : Variance} {args : List Constraint}
    (hk : .instanceOf target v args ∈ slot.constraints)
    (hplain : (Constraint.instanceOf target v args).isPlain = true) :
    ∃ candidate u result, candidates[i]? = some candidate ∧ candidate.structuralForm = .ok u ∧
      (Constraint.instanceOf target v args).denoted c fuel e = some (some result) ∧
      result.head? = some target ∧ Accepts c fuel v result u := by
  have hmem := (Search.runFrom_items_prefix stop [] _).subset he
  rw [listing_slotBindings] at hmem
  obtain ⟨candidate, before, after, hcandidate, hafter, hext⟩ :=
    solved_of_mem_slotSolutions c fuel hmem hslot
  obtain ⟨before', after', hafter', hext'⟩ := solved_of_mem_conjunctionSolutions c fuel hk hafter
  rw [constraintSolutions] at hafter'
  obtain ⟨p, hp, rfl⟩ := List.mem_map.mp hafter'
  obtain ⟨u, hu, ⟨hm, -⟩ | ⟨hcount, site, ts, hts, hinstance, hrelative⟩⟩ :=
    mem_instanceSolutions c fuel hp
  · simp [Constraint.isPlain, hm] at hplain
  · -- a slot sets no variance of its own, so the constraint's is in force
    rw [nest_ambivariant] at hrelative
    rw [Constraint.isPlain, Bool.and_eq_true] at hplain
    have hlength : ts.length = args.length := (c.length_of_instantiate hinstance).trans hcount
    have hargs := denotedArgs_siteSolutions c fuel args hplain.2 hts hlength (hext.trans hext')
    exact ⟨candidate, u, p.2, hcandidate, hu,
      Constraint.denoted_instanceOf c fuel hargs hinstance, c.head?_of_instantiate hinstance,
      accepts_of_isRelative c fuel hrelative⟩

open Catalog in
/-- A covariant `IEnumerable<T>` accepts a list of strings with `T` bound to strings: under this
binding it denotes sequences of strings, which lists of strings are assignable to. -/
theorem slotBindings_sound_enumerable :
    ∃ candidate u result,
      [Ty.named 14 [.nominal 18]][0]? = some candidate ∧ candidate.structuralForm = .ok u ∧
      (Constraint.instanceOf 11 .covariant [.named "T"]).denoted baseLibrary 9
        [("T", .nominal 18)] = some (some result) ∧
      result.head? = some 11 ∧ Accepts baseLibrary 9 .covariant result u := by
  have he : [("T", Ty.nominal 18)] ∈
      ((slotBindings baseLibrary 9 [⟨[.instanceOf 11 .covariant [.named "T"]], false⟩]
        [.named 14 [.nominal 18]] [] : Search Empty _ _).run Search.takeAll).items := by
    decide +kernel
  exact slotBindings_sound baseLibrary 9 he (i := 0) rfl List.mem_cons_self rfl

end TypeResolution
