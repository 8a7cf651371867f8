import TypeResolution.Proofs.Catalog.FiniteAncestry
import TypeResolution.Proofs.Unification.Pruning
import TypeResolution.Proofs.Unification.Readings
import TypeResolution.Proofs.Unification.Validity

/-!
# Bindings that are found once

The matcher hands every complete set of bindings to its consumer, and the consumer would like to be
handed each of them once. The sites that a constraint goes through are all different, but that is
not enough: the bindings of a solution need not tell at which site it was found. A wildcard binds
nothing, so a row that is a sequence of integers and of strings is a sequence of anything twice,
with the same bindings (`anySequence_found_twice`). Kind markers forget their argument as well, and
so does everything that accepts relatives of it.

Slots whose constraints all tell their sites (`Constraint.tellsSite`) find no two sets of bindings
that agree (`slotBindings_clash`). A constraint tells its site in one of two ways. An invariant one
finds the candidate and nothing else, so the site are the candidate's own arguments. Any other has
to be built from parameters and instances that take their arguments as they are, for then it denotes
these arguments under its bindings, and bindings that agree denote the same (`agree_or_clash`).
Pointers are excluded, because a pointer and its stand-in are two arguments that are read alike.

Two sets of bindings *clash* if they give different types to some name. Clashing is stronger than
being different, and it is what survives: whatever is bound later, bindings that clash still do. So
the solutions of a slot clash pairwise as soon as those of its constraints do, and the same goes for
the slots one after another.
-/

namespace TypeResolution

/-! ## Types without pointers

Inheriting, reading and instantiating do not bring pointers in, if no declaration mentions one and
no definition builds one. Without pointers nothing is stored in another form than it has, so every
type is its own reading. -/

namespace Ty

mutual
/-- Whether a type is written without pointers and by-reference types, and without stand-ins for
structural types. -/
def pointerFree : Ty → Bool
  | .param _ => true
  | .named d ts => (Marker.ofDefinition? d).all Marker.isKind && allPointerFree ts
  | .array _ t => t.pointerFree
  | .pointer _ => false
  | .byRef _ => false

/-- Whether all types of a list are written like this. -/
def allPointerFree : List Ty → Bool
  | [] => true
  | t :: ts => t.pointerFree && allPointerFree ts
end

/-- A list is without pointers if all members are. -/
theorem allPointerFree_eq_all (ts : List Ty) : allPointerFree ts = ts.all pointerFree := by
  induction ts with
  | nil => rfl
  | cons t ts ih => rw [allPointerFree, ih, List.all_cons]

variable {t : Ty}

/-- A name is without pointers if its definition is no stand-in for one and its arguments are
without. -/
theorem pointerFree_named {d : DefIndex} {ts : List Ty} :
    (named d ts).pointerFree = true ↔
      (Marker.ofDefinition? d).all Marker.isKind = true ∧ ∀ t ∈ ts, t.pointerFree = true := by
  rw [pointerFree, Bool.and_eq_true, allPointerFree_eq_all, List.all_eq_true]

/-- There is nothing to read in such a type. -/
theorem structuralForm_of_pointerFree (h : t.pointerFree = true) : t.structuralForm = .ok t := by
  cases t with
  | named d ts =>
    rw [structuralForm]
    split
    · next m hm =>
      have hkind := (pointerFree_named.mp h).1
      rw [hm] at hkind
      exact if_pos hkind
    · rfl
  | _ => rfl

/-- Such a type is stored as it is. -/
theorem storedArg_of_pointerFree (h : t.pointerFree = true) : Catalog.storedArg t = t := by
  cases t with
  | pointer elem => cases h
  | byRef elem => cases h
  | _ => rfl

/-- Filling parameters with types without pointers gives one. -/
theorem pointerFree_subst {s : Ty} (h : s.pointerFree = true) {σ : List Ty}
    (hσ : ∀ a ∈ σ, a.pointerFree = true) : (s.subst σ).pointerFree = true := by
  induction s with
  | param i =>
    rw [subst, List.getD_eq_getElem?_getD]
    cases hi : σ[i]? with
    | none => rfl
    | some a => exact hσ a (List.mem_of_getElem? hi)
  | named d ts ih =>
    rw [pointerFree_named] at h
    rw [subst, substAll_eq_map, pointerFree_named]
    refine ⟨h.1, fun t ht => ?_⟩
    obtain ⟨s, hs, rfl⟩ := List.mem_map.mp ht
    exact ih s hs (h.2 s hs)
  | array rank elem ih => exact ih h
  | pointer elem ih => cases h
  | byRef elem ih => cases h

/-- Ranks are encoded without pointers. -/
theorem pointerFree_rankEncoding (n : Nat) : (rankEncoding n).pointerFree = true := by
  induction n with
  | zero => rfl
  | succ n ih => exact pointerFree_named.mpr ⟨rfl, List.forall_mem_singleton.mpr ih⟩

/-- The arguments of a type without pointers are without. -/
theorem pointerFree_headArgs (h : t.pointerFree = true) :
    ∀ s ∈ t.headArgs, s.pointerFree = true := by
  cases t with
  | param i => exact fun s hs => absurd hs List.not_mem_nil
  | named d ts => exact (pointerFree_named.mp h).2
  | array rank elem =>
    exact List.forall_mem_cons.mpr
      ⟨pointerFree_rankEncoding rank, List.forall_mem_singleton.mpr h⟩
  | pointer elem => cases h
  | byRef elem => cases h

end Ty

namespace Catalog

variable {c : Catalog}

/-- An instance over types without pointers has them for its arguments. -/
theorem headArgs_of_instantiate_pointerFree {fuel : Nat} {d : DefIndex} {args : List Ty} {t : Ty}
    (hargs : ∀ a ∈ args, a.pointerFree = true) (h : c.instantiate fuel d args = some (.ok t)) :
    t.headArgs = args := by
  rcases (c.instantiate_ok h).2 with hs | ⟨-, rfl, -⟩
  · exact Ty.headArgs_of_structural? hs
  · have hstored := List.map_congr_left fun a ha => Ty.storedArg_of_pointerFree (hargs a ha)
    exact hstored.trans (List.map_id' args)

/-- What is inherited is without pointers, if the type and all declarations are. -/
theorem pointerFree_of_inherits (hfree : ∀ s ∈ c.allDeclared, s.pointerFree = true) {t a : Ty}
    (ht : t.pointerFree = true) (h : c.Inherits t a) : a.pointerFree = true := by
  have hstep : ∀ s b, s.pointerFree = true → c.HasBase s b ∨ c.Declares s b →
      b.pointerFree = true := by
    intro s b hs hb
    rcases step_cases hb with ⟨d, ts, r, rfl, hr, rfl⟩ | ⟨n, elem, rfl, hbase | ⟨-, r, hr, rfl⟩⟩
    · exact Ty.pointerFree_subst (hfree r (mem_allDeclared hr)) (Ty.pointerFree_named.mp hs).2
    · have hmem : b ∈ c.arrayBase.toList := Option.mem_toList.mpr hbase
      exact hfree b (List.mem_append_right _ (List.mem_append_left _ hmem))
    · have hmem : r ∈ c.allDeclared := List.mem_append_right _ (List.mem_append_right _ hr)
      exact Ty.pointerFree_subst (hfree r hmem) (List.forall_mem_singleton.mpr hs)
  exact h.induction ht (fun s b hs hb => hstep s b hs (.inl hb))
    fun s i hs hi => hstep s i hs (.inr hi)

variable (c) in
/-- A closed type that applies definitions at their arity and is written without pointers. -/
structure PointerFree (t : Ty) : Prop where
  /-- the type is closed and at its arity -/
  atArity : c.AtArity 0 t
  /-- there are no pointers in it -/
  pointerFree : t.pointerFree = true

/-- The definition does not stand in for pointers or by-reference types. -/
def BuildsNoPointer (d : DefIndex) : Prop :=
  d ≠ Marker.pointer.definition ∧ d ≠ Marker.byRef.definition

instance : DecidablePred BuildsNoPointer := fun d =>
  inferInstanceAs (Decidable (d ≠ Marker.pointer.definition ∧ d ≠ Marker.byRef.definition))

/-- Matching does not come to pointers by itself. -/
theorem DeclaredAtArity.matchClosed_pointerFree (hc : c.DeclaredAtArity)
    (hfree : ∀ s ∈ c.allDeclared, s.pointerFree = true) :
    c.MatchClosed BuildsNoPointer c.PointerFree where
  reading t u ht hread := by
    rw [Ty.structuralForm_of_pointerFree ht.pointerFree] at hread
    exact Except.ok.inj hread ▸ ht
  headArgs t ht x hx := ⟨ht.atArity.headArgs x hx, Ty.pointerFree_headArgs ht.pointerFree x hx⟩
  inherited t a ht ha :=
    ⟨ht.atArity.of_inherits hc ha, pointerFree_of_inherits hfree ht.pointerFree ha⟩
  built d args t hd hargs ht := by
    refine ⟨.of_instance (fun a ha => (hargs a ha).atArity) ht, ?_⟩
    obtain ⟨fuel, h⟩ := ht
    rcases (c.instantiate_ok h).2 with hs | ⟨hs, rfl, -⟩
    -- The only structural definition that may be built over is that of arrays.
    · rcases Ty.structural?_ok hs with ⟨-, n, elem, rfl, rfl⟩ | ⟨rfl, -⟩ | ⟨rfl, -⟩
      · exact (hargs elem (by simp)).pointerFree
      · exact absurd rfl hd.1
      · exact absurd rfl hd.2
    · refine Ty.pointerFree_named.mpr ⟨?_, fun s hs => ?_⟩
      · cases hm : Marker.ofDefinition? d with
        | none => rfl
        | some m => exact isKind_of_structural? (c.length_of_instantiate h) hs hm
      · obtain ⟨a, ha, rfl⟩ := List.mem_map.mp hs
        rw [Ty.storedArg_of_pointerFree (hargs a ha).pointerFree]
        exact (hargs a ha).pointerFree

end Catalog

/-! ## Bindings that clash

A constraint without wildcards and without variance denotes a type, under bindings for its names.
Two sets of bindings under which it denotes different types have to give different types to one of
the names. -/

/-- Some name is bound by both, and to different types. -/
def Bindings.Clash (e e' : Bindings) : Prop :=
  ∃ name t t', e.get? name = some t ∧ e'.get? name = some t' ∧ t ≠ t'

/-- Bindings that clash still do when they have grown. -/
theorem Bindings.Clash.extends {b b' e e' : Bindings} (h : b.Clash b') (he : e.Extends b)
    (he' : e'.Extends b') : e.Clash e' := by
  obtain ⟨name, t, t', ht, ht', hne⟩ := h
  exact ⟨name, t, t', he name t ht, he' name t' ht', hne⟩

section Denotation

variable {c : Catalog} {fuel : Nat} {e e' : Bindings}

/-- An instance is denoted by denoting its arguments. -/
theorem Constraint.exists_of_denoted_instanceOf {target : DefIndex} {v : Variance}
    {args : List Constraint} {t : Ty}
    (h : denoted c fuel e (.instanceOf target v args) = some (some t)) :
    ∃ ts, denotedArgs c fuel e args = some (some ts) ∧
      c.instantiate fuel target ts = some (.ok t) := by
  rw [denoted] at h
  split at h
  · cases h
  · cases h
  · next ts hts =>
    obtain ⟨result, hresult, hok⟩ := Option.map_eq_some_iff.mp h
    cases result with
    | error err => cases hok
    | ok u => exact ⟨ts, hts, Option.some.inj hok ▸ hresult⟩

/-- A list of arguments is denoted one by one. -/
theorem Constraint.exists_of_denotedArgs_cons {k : Constraint} {ks : List Constraint} {ts : List Ty}
    (h : denotedArgs c fuel e (k :: ks) = some (some ts)) :
    ∃ t rest, denoted c fuel e k = some (some t) ∧ denotedArgs c fuel e ks = some (some rest) ∧
      ts = t :: rest := by
  rw [denotedArgs] at h
  split at h
  · cases h
  · cases h
  · next t ht =>
    obtain ⟨result, hresult, h⟩ := Option.map_eq_some_iff.mp h
    obtain ⟨rest, rfl, rfl⟩ := Option.map_eq_some_iff.mp h
    exact ⟨t, rest, ht, hresult, rfl⟩

mutual
/-- What a constraint denotes under two sets of bindings is the same, or the bindings clash. -/
theorem agree_or_clash : (k : Constraint) → {t t' : Ty} →
    k.denoted c fuel e = some (some t) → k.denoted c fuel e' = some (some t') →
    t = t' ∨ e.Clash e'
  | .wildcard, _, _, h, _ => by cases h
  | .negation _, _, _, h, _ => by cases h
  | .param name v, t, t', h, h' => by
    rw [Constraint.denoted, Option.some.injEq, Option.bind_eq_some_iff] at h h'
    obtain ⟨s, hs, ht⟩ := h
    obtain ⟨s', hs', ht'⟩ := h'
    -- A parameter denotes what it is bound to, so here the bindings agree or clash right away.
    by_cases hsame : s = s'
    · subst hsame
      exact .inl (Option.some.inj (ht.symm.trans ht'))
    · exact .inr ⟨name, s, s', hs, hs', hsame⟩
  | .instanceOf target v args, t, t', h, h' => by
    obtain ⟨ts, hts, hinstance⟩ := Constraint.exists_of_denoted_instanceOf h
    obtain ⟨ts', hts', hinstance'⟩ := Constraint.exists_of_denoted_instanceOf h'
    rcases agree_or_clash_args args hts hts' with rfl | hclash
    · exact .inl (Except.ok.inj (Option.some.inj (hinstance.symm.trans hinstance')))
    · exact .inr hclash

/-- The same for lists of arguments. -/
theorem agree_or_clash_args : (ks : List Constraint) → {ts ts' : List Ty} →
    Constraint.denotedArgs c fuel e ks = some (some ts) →
    Constraint.denotedArgs c fuel e' ks = some (some ts') → ts = ts' ∨ e.Clash e'
  | [], _, _, h, h' => by
    obtain rfl := Option.some.inj (Option.some.inj h)
    obtain rfl := Option.some.inj (Option.some.inj h')
    exact .inl rfl
  | k :: ks, _, _, h, h' => by
    obtain ⟨t, rest, ht, hrest, rfl⟩ := Constraint.exists_of_denotedArgs_cons h
    obtain ⟨t', rest', ht', hrest', rfl⟩ := Constraint.exists_of_denotedArgs_cons h'
    rcases agree_or_clash k ht ht' with rfl | hclash
    · rcases agree_or_clash_args ks hrest hrest' with rfl | hclash
      · exact .inl rfl
      · exact .inr hclash
    · exact .inr hclash
end

end Denotation

/-! ## Pairs of items of a listing

To compare items of a row pairwise, they are compared within each part and across parts. A part with
at most one item has nothing to compare within. -/

namespace Listing

variable {ε α β : Type}

/-- A cut leaves a sublist of the items of both. -/
theorem items_andThen_sublist (definitive : Bool) (l m : Listing ε α) :
    (l.andThen definitive m).items.Sublist (l.items ++ m.items) := by
  rw [andThen]
  split
  · exact List.sublist_append_left _ _
  · rcases l with ⟨as, _ | i⟩
    · exact List.Sublist.refl _
    · exact List.sublist_append_left _ _

/-- The cuts in a row leave a sublist of all items. -/
theorem items_concat_sublist (ls : List (Bool × Listing ε α)) :
    (concat ls).items.Sublist (ls.flatMap fun p => p.2.items) := by
  induction ls with
  | nil => exact List.Sublist.refl _
  | cons p ls ih =>
    refine (items_andThen_sublist p.1 p.2 (concat ls)).trans ?_
    rw [List.flatMap_cons]
    exact (List.Sublist.refl _).append ih

/-- Two items behind different alternatives are related if the alternatives are. -/
theorem pairwise_each {S : α → α → Prop} {R : β → β → Prop} (definitive : Bool) {l : Listing ε α}
    (hl : l.items.Pairwise S) {f : α → Listing ε β} (hf : ∀ a ∈ l.items, (f a).items.Pairwise R)
    (hS : ∀ a ∈ l.items, ∀ a' ∈ l.items, S a a' → ∀ x ∈ (f a).items, ∀ y ∈ (f a').items, R x y) :
    (l.each definitive f).items.Pairwise R := by
  refine List.Pairwise.sublist (items_concat_sublist _) ?_
  rw [List.flatMap_append, List.flatMap_map, List.flatMap_singleton, List.append_nil,
    List.pairwise_flatMap]
  exact ⟨hf, hl.imp_of_mem fun ha ha' h => hS _ ha _ ha' h⟩

/-- Two items would be one too many. -/
def AtMostOne (l : Listing ε α) : Prop := l.items.Pairwise fun _ _ => False

/-- With at most one item there are no pairs to compare. -/
theorem AtMostOne.pairwise {l : Listing ε α} (h : l.AtMostOne) (R : α → α → Prop) :
    l.items.Pairwise R := h.imp False.elim

theorem atMostOne_one (a : α) : (one a : Listing ε α).AtMostOne := List.pairwise_singleton _ a

theorem atMostOne_nothing : (nothing : Listing ε α).AtMostOne := .nil

theorem AtMostOne.map {l : Listing ε α} (h : l.AtMostOne) (f : α → β) : (l.map f).AtMostOne :=
  List.pairwise_map.mpr h

/-- At most one item leads to at most one, if each leads to at most one. -/
theorem AtMostOne.each (definitive : Bool) {l : Listing ε α} (hl : l.AtMostOne)
    {f : α → Listing ε β} (hf : ∀ a ∈ l.items, (f a).AtMostOne) : (l.each definitive f).AtMostOne :=
  pairwise_each definitive hl hf fun _ _ _ _ h => h.elim

theorem atMostOne_ofFueled {x : Fueled α} {f : α → Listing ε β}
    (h : ∀ a, x = some a → (f a).AtMostOne) : (ofFueled x f).AtMostOne := by
  cases x with
  | none => exact .nil
  | some a => exact h a rfl

theorem atMostOne_guard (test : Fueled Bool) (a : α) :
    (Listing.guard test a : Listing ε α).AtMostOne := by
  refine atMostOne_ofFueled fun passes _ => ?_
  cases passes with
  | true => exact atMostOne_one a
  | false => exact atMostOne_nothing

theorem AtMostOne.ifNone {m : Listing ε β} (hm : m.AtMostOne) (l : Listing ε α) :
    (l.ifNone m).AtMostOne := by
  rcases l with ⟨_ | ⟨a, as⟩, _ | i⟩
  · exact hm
  · exact .nil
  · exact .nil
  · exact .nil

/-- The listing comes to one result at most, and there to `a`. -/
structure FindsOnce (l : Listing ε (Bindings × α)) (a : α) : Prop where
  /-- there is at most one item -/
  atMostOne : l.AtMostOne
  /-- the item is a result for `a` -/
  eq_of_mem : ∀ p ∈ l.items, p.2 = a

theorem findsOnce_one (b : Bindings) (a : α) : (one (b, a) : Listing ε _).FindsOnce a :=
  ⟨atMostOne_one _, fun p hp => by rw [List.mem_singleton.mp hp]⟩

theorem findsOnce_nothing (a : α) : (nothing : Listing ε (Bindings × α)).FindsOnce a :=
  ⟨atMostOne_nothing, fun _ hp => absurd hp List.not_mem_nil⟩

end Listing

/-! ## Constraints that tell their sites

Below a given variance a constraint is exact if it takes its argument as it is: a wildcard does, and
so does anything compared invariantly. A kind marker accepts the argument without changing it. -/

namespace Constraint

/-- Whether a constraint takes its argument as it is, below a place of some variance: a parameter is
compared with the argument, and the instance that is rebuilt is the argument. -/
def isExactIn (outer : Variance) : Constraint → Bool
  | .wildcard => true
  | .param _ v => outer.nest v = .invariant
  | .instanceOf target v _ => isKindMarker target || outer.nest v = .invariant
  | .negation _ => true

/-- Below an invariant place all constraints are exact. -/
theorem isExactIn_invariant (k : Constraint) : k.isExactIn .invariant = true := by
  cases k <;> simp [isExactIn, Variance.nest]

/-- Whether the bindings of a solution of a slot's constraint determine where it was found. Kind
markers do not look at sites. An invariant constraint finds the candidate only, and any other
denotes the arguments of the site if these are taken as they are. -/
def tellsSite : Constraint → Bool
  | .instanceOf target v args =>
    isKindMarker target || v = .invariant || allPlain args && args.all (isExactIn v)
  | _ => true

end Constraint

section Sites

variable {c : Catalog} {fuel : Nat}

/-- A bound name finds one type at most, the one that it is bound to. -/
theorem atMostOne_boundSolutions (v : Variance) (candidate bound : Ty) :
    (boundSolutions c fuel v candidate bound).AtMostOne := by
  rw [boundSolutions, structuralSolutions]
  split
  · exact .nil
  · rw [structuralSolutions]
    split
    · exact .nil
    · exact Listing.atMostOne_guard _ _

/-- A parameter in an invariant place finds the candidate. -/
theorem structuralForm_of_mem_boundSolutions {candidate bound t : Ty}
    (h : t ∈ (boundSolutions c fuel .invariant candidate bound).items) :
    candidate.structuralForm = .ok t := by
  obtain ⟨candidate', hcandidate, h⟩ := mem_structuralSolutions h
  obtain ⟨bound', -, h⟩ := mem_structuralSolutions h
  obtain ⟨hrelated, rfl⟩ := mem_guard h
  obtain rfl : candidate' = t := by simpa [related] using hrelated
  exact hcandidate

/-- An instance is rebuilt once at most. -/
theorem atMostOne_rebuiltSolutions (v : Variance) (target : DefIndex) (candidate : Ty)
    (args : List Ty) : (rebuiltSolutions c fuel v target candidate args).AtMostOne := by
  refine Listing.atMostOne_ofFueled fun result _ => ?_
  cases result with
  | error e => exact Listing.atMostOne_nothing
  | ok result => exact Listing.atMostOne_guard _ _

/-- What is found at a site was put together from what the arguments of the site led to. -/
theorem mem_siteInstances {v : Variance} {u : Ty} {d : DefIndex} {ks : List Constraint}
    {b : Bindings} {site : Site} {p : Bindings × Ty}
    (h : p ∈ (siteInstances c fuel v u d ks b site).items) :
    ∃ ts, (p.1, ts) ∈ (siteSolutions c fuel v site b ks).items ∧
      c.instantiate fuel d ts = some (.ok p.2) ∧ isRelative c fuel v p.2 u = some true := by
  obtain ⟨q, hq, h⟩ := Listing.mem_each h
  obtain ⟨result, hresult, rfl⟩ := List.mem_map.mp h
  obtain ⟨hinstance, hrelative⟩ := mem_rebuiltSolutions c fuel hresult
  exact ⟨q.2, hq, hinstance, hrelative⟩

/-- A kind marker finds the candidate or nothing. -/
theorem argSolutions_of_kindMarker {outer v : Variance} {u : Ty} (hu : u.structuralForm = .ok u)
    {b : Bindings} {d : DefIndex} {ks : List Constraint}
    (hkind : Constraint.isKindMarker d = true) :
    argSolutions c fuel outer u b (.instanceOf d v ks) = .one (b, u) ∨
      argSolutions c fuel outer u b (.instanceOf d v ks) = .nothing := by
  rw [argSolutions, instanceSolutions, structuralSolutions, hu]
  rw [Constraint.isKindMarker] at hkind
  -- A kind marker tests the candidate, and finds it if the test succeeds. There is one case for
  -- each of the two.
  split at hkind
  · next m hm =>
    rw [hm]
    cases m with
    | valueType =>
      dsimp only
      split
      · exact .inl rfl
      · exact .inr rfl
    | referenceType =>
      dsimp only
      split
      · exact .inl rfl
      · exact .inr rfl
    | _ => cases hkind
  · cases hkind

/-- A site over types without pointers that has one argument for each sub-constraint. -/
structure FullSite (c : Catalog) (ks : List Constraint) (site : Site) : Prop where
  /-- there are no pointers in the arguments -/
  pointerFree : ∀ x ∈ site, c.PointerFree x
  /-- there are as many arguments as sub-constraints -/
  length_eq : site.length = ks.length

/-- A full site has no arguments beyond those of the constraint. -/
theorem FullSite.take_eq {ks : List Constraint} {site : Site} (h : FullSite c ks site) :
    site.take ks.length = site :=
  List.take_of_length_le (Nat.le_of_eq h.length_eq)

variable (hc : c.DeclaredAtArity) (hfree : ∀ s ∈ c.allDeclared, s.pointerFree = true)

include hc hfree

/-- All sites of a target that is given as many arguments as it takes are full. -/
theorem fullSite_of_mem_sites {u : Ty} (hu : c.PointerFree u) {b : Bindings}
    (hb : b.In c.PointerFree) {d : DefIndex} {v : Variance} {ks : List Constraint}
    (hks : ∀ k ∈ ks, k.Over Catalog.BuildsNoPointer) (hcount : c.arity d = ks.length)
    {found : List Site} (h : sites c fuel u d v ks b = some found) :
    ∀ site ∈ found, FullSite c ks site := by
  intro site hsite
  obtain ⟨hall, hlength | ⟨a, ha, hhead, rfl⟩⟩ :=
    (hc.matchClosed_pointerFree hfree).mem_sites hb hu hks h site hsite
  · exact ⟨hall, hlength⟩
  · exact ⟨hall, ((hu.atArity.of_inherits hc ha).length_headArgs hhead).trans hcount⟩

/-- Of what an instance constraint finds, two things are related if they are whenever they come from
different sites, and if nothing is found twice at one site. -/
theorem pairwise_instances {ρ : Bindings → Bindings → Prop} {outer v : Variance} {u : Ty}
    (hu : c.PointerFree u) {b : Bindings} (hb : b.In c.PointerFree) {d : DefIndex}
    {ks : List Constraint} (hks : ∀ k ∈ ks, k.Over Catalog.BuildsNoPointer)
    (hkind : Constraint.isKindMarker d = false)
    (hsite : ∀ site, FullSite c ks site →
      (siteSolutions c fuel (outer.nest v) site b ks).AtMostOne)
    (hapart : ∀ site site', FullSite c ks site → FullSite c ks site' → site ≠ site' →
      ∀ p ∈ (siteInstances c fuel (outer.nest v) u d ks b site).items,
      ∀ p' ∈ (siteInstances c fuel (outer.nest v) u d ks b site').items, ρ p.1 p'.1) :
    (argSolutions c fuel outer u b (.instanceOf d v ks)).items.Pairwise
      fun p p' => ρ p.1 p'.1 := by
  have hread := Ty.structuralForm_of_pointerFree hu.pointerFree
  -- Without a solution there is nothing to compare. With one, the sites are known, all of them are
  -- full, and two of them differ somewhere.
  by_cases hnone : (argSolutions c fuel outer u b (.instanceOf d v ks)).items = []
  · rw [hnone]
    exact .nil
  · -- something is found, so the sites are found and the number of arguments is right
    obtain ⟨p, hp⟩ := List.exists_mem_of_ne_nil _ hnone
    have hp' := hp
    rw [argSolutions] at hp'
    obtain ⟨u', hu', ⟨hmarker, -⟩ | ⟨hcount, found, -, -, hfound, -⟩⟩ :=
      exists_site_of_mem_instanceSolutions c fuel hp'
    · exact absurd hmarker (by rw [hkind]; exact Bool.false_ne_true)
    · obtain rfl : u = u' := Except.ok.inj (hread.symm.trans hu')
      have hfull := fullSite_of_mem_sites hc hfree hu hb hks hcount hfound
      have hnodup : found.Nodup := by
        rw [sites.eq_def] at hfound
        obtain ⟨all, -, rfl⟩ := Option.map_eq_some_iff.mp hfound
        exact nodup_distinctSites all
      rw [argSolutions_of_sites hkind hcount hread hfound]
      refine List.Pairwise.sublist (Listing.items_concat_sublist _) ?_
      rw [List.flatMap_map, List.pairwise_flatMap]
      refine ⟨fun site hmem => ?_, hnodup.imp_of_mem fun hmem hmem' hne => ?_⟩
      · exact Listing.AtMostOne.pairwise ((hsite site (hfull site hmem)).each false fun _ _ =>
          (atMostOne_rebuiltSolutions _ _ _ _).map _) _
      · exact hapart _ _ (hfull _ hmem) (hfull _ hmem') hne

mutual
/-- An exact constraint finds its argument, and finds it once. -/
theorem argSolutions_exact {outer : Variance} {arg : Ty} (harg : c.PointerFree arg) {b : Bindings}
    (hb : b.In c.PointerFree) : (k : Constraint) → k.Over Catalog.BuildsNoPointer →
    k.isExactIn outer = true → (argSolutions c fuel outer arg b k).FindsOnce arg
  | .wildcard, _, _ => by
    rw [argSolutions]
    exact Listing.findsOnce_one b arg
  | .param name v, _, hexact => by
    have hinvariant : outer.nest v = .invariant := of_decide_eq_true hexact
    rw [argSolutions]
    split
    · exact Listing.findsOnce_one _ arg
    · next bound hbound =>
      refine ⟨(atMostOne_boundSolutions _ _ _).map _, fun p hp => ?_⟩
      obtain ⟨t, ht, rfl⟩ := List.mem_map.mp hp
      rw [hinvariant] at ht
      have hread := structuralForm_of_mem_boundSolutions ht
      rw [Ty.structuralForm_of_pointerFree harg.pointerFree] at hread
      exact (Except.ok.inj hread).symm
  | .instanceOf target v args, hk, hexact => by
    have hread := Ty.structuralForm_of_pointerFree harg.pointerFree
    rw [Constraint.isExactIn, Bool.or_eq_true, decide_eq_true_eq] at hexact
    by_cases hkind : Constraint.isKindMarker target = true
    · rcases argSolutions_of_kindMarker (c := c) hread hkind with hone | hnothing
      · rw [hone]
        exact Listing.findsOnce_one b arg
      · rw [hnothing]
        exact Listing.findsOnce_nothing arg
    · have hinvariant := hexact.resolve_left hkind
      rw [Bool.not_eq_true] at hkind
      have hsites : ∀ site, FullSite c args site →
          (siteSolutions c fuel .invariant site b args).FindsOnce site := by
        intro site hsite
        have hfinds := siteSolutions_exact hb args hsite.pointerFree hk.args
          fun k _ => k.isExactIn_invariant
        rwa [hsite.take_eq] at hfinds
      -- an invariant instance is found at the candidate's own arguments only
      have hown : ∀ site, FullSite c args site →
          ∀ p ∈ (siteInstances c fuel (outer.nest v) arg target args b site).items,
            arg.headArgs = site := by
        intro site hsite p hp
        obtain ⟨ts, hts, hinstance, hrelative⟩ := mem_siteInstances hp
        rw [hinvariant] at hts hrelative
        obtain rfl : ts = site := (hsites site hsite).eq_of_mem _ hts
        obtain rfl : p.2 = arg := of_decide_eq_true (Option.some.inj hrelative)
        exact Catalog.headArgs_of_instantiate_pointerFree
          (fun a ha => (hsite.pointerFree a ha).pointerFree) hinstance
      refine ⟨pairwise_instances (ρ := fun _ _ => False) hc hfree harg hb hk.args hkind ?_ ?_, ?_⟩
      · intro site hsite
        rw [hinvariant]
        exact (hsites site hsite).atMostOne
      · intro site site' hsite hsite' hne p hp p' hp'
        exact hne ((hown site hsite p hp).symm.trans (hown site' hsite' p' hp'))
      · intro p hp
        rw [argSolutions] at hp
        obtain ⟨u, hu, ⟨hmarker, -⟩ | ⟨-, -, site, ts, -, -, -, -, hrelative⟩⟩ :=
          exists_site_of_mem_instanceSolutions c fuel hp
        · exact absurd hmarker (by rw [hkind]; exact Bool.false_ne_true)
        · rw [hinvariant] at hrelative
          obtain rfl : arg = u := Except.ok.inj (hread.symm.trans hu)
          exact of_decide_eq_true (Option.some.inj hrelative)
  | .negation inner, _, _ => ⟨.nil, fun p hp => absurd hp List.not_mem_nil⟩

/-- Exact constraints find the arguments of a site, as far as they reach, and find them once. -/
theorem siteSolutions_exact {outer : Variance} {b : Bindings} (hb : b.In c.PointerFree) :
    (ks : List Constraint) → {site : Site} → (∀ x ∈ site, c.PointerFree x) →
    (∀ k ∈ ks, k.Over Catalog.BuildsNoPointer) → (∀ k ∈ ks, k.isExactIn outer = true) →
    (siteSolutions c fuel outer site b ks).FindsOnce (site.take ks.length)
  | [], site, _, _, _ => by
    rw [siteSolutions]
    exact Listing.findsOnce_one b []
  | k :: ks, [], _, _, _ => by
    rw [siteSolutions]
    exact Listing.findsOnce_one b []
  | k :: ks, arg :: rest, hsite, hks, hexact => by
    obtain ⟨harg, hrest⟩ := List.forall_mem_cons.mp hsite
    obtain ⟨hk, hks⟩ := List.forall_mem_cons.mp hks
    obtain ⟨hkexact, hexact⟩ := List.forall_mem_cons.mp hexact
    -- The first argument is found as it is, once for each set of bindings. Behind each of these the
    -- rest of the site is found as it is.
    have hfirst := argSolutions_exact harg hb k hk hkexact
    have hthen : ∀ p ∈ (argSolutions c fuel outer arg b k).items, _ := fun p hp =>
      siteSolutions_exact ((hc.matchClosed_pointerFree hfree).in_argSolutions harg hb k hk hp).1 ks
        hrest hks hexact
    rw [siteSolutions, structuralSolutions, Ty.structuralForm_of_pointerFree harg.pointerFree]
    refine ⟨hfirst.atMostOne.each false fun p hp => (hthen p hp).atMostOne.map _, fun q hq => ?_⟩
    obtain ⟨p, hp, hq⟩ := Listing.mem_each hq
    obtain ⟨r, hr, rfl⟩ := List.mem_map.mp hq
    rw [List.length_cons, List.take_succ_cons, ← hfirst.eq_of_mem p hp,
      ← (hthen p hp).eq_of_mem r hr]
end

/-! ## Slots

The constraints of a slot are matched with the candidate itself, in an ambivariant place. Here the
solutions are sets of bindings, and no longer come with the type that was found, so it counts that
the bindings tell the site. -/

variable {candidate : Ty} {b : Bindings}

/-- **A constraint that tells its sites finds no two sets of bindings that agree.** -/
theorem clash_constraintSolutions (hu : c.PointerFree candidate) (hb : b.In c.PointerFree) :
    (k : Constraint) → k.Over Catalog.BuildsNoPointer → k.tellsSite = true →
    (constraintSolutions c fuel .ambivariant candidate b k).items.Pairwise Bindings.Clash
  | .wildcard, _, _ => by
    rw [constraintSolutions]
    exact (Listing.atMostOne_one _).pairwise _
  | .param name v, _, _ => by
    rw [constraintSolutions]
    split
    · exact (Listing.atMostOne_one _).pairwise _
    · exact ((atMostOne_boundSolutions _ _ _).map _).pairwise _
  | .negation inner, _, _ => by
    rw [constraintSolutions]
    exact ((Listing.atMostOne_one b).ifNone _).pairwise _
  | .instanceOf target v args, hk, htells => by
    rw [constraintSolutions, Listing.map, List.pairwise_map, ← argSolutions]
    by_cases hexact : (Constraint.instanceOf target v args).isExactIn .ambivariant = true
    · exact (argSolutions_exact hc hfree hu hb _ hk hexact).atMostOne.pairwise _
    · rw [Constraint.isExactIn, nest_ambivariant] at hexact
      rw [Constraint.tellsSite, Bool.or_eq_true, Bool.and_eq_true, List.all_eq_true] at htells
      obtain ⟨hplain, hargs⟩ := htells.resolve_left hexact
      have hkind : Constraint.isKindMarker target = false := by
        cases hmarker : Constraint.isKindMarker target with
        | false => rfl
        | true => exact absurd (by rw [hmarker, Bool.true_or]) hexact
      have hsites : ∀ site, FullSite c args site →
          (siteSolutions c fuel v site b args).FindsOnce site := by
        intro site hsite
        have hfinds : (siteSolutions c fuel v site b args).FindsOnce (site.take args.length) :=
          siteSolutions_exact hc hfree hb args hsite.pointerFree hk.args hargs
        rwa [hsite.take_eq] at hfinds
      -- a site is what the sub-constraints denote under the bindings that were found there
      have hdenoted : ∀ site, FullSite c args site →
          ∀ p ∈ (siteInstances c fuel v candidate target args b site).items,
            Constraint.denotedArgs c fuel p.1 args = some (some site) := by
        intro site hsite p hp
        obtain ⟨ts, hts, -⟩ := mem_siteInstances hp
        obtain rfl : ts = site := (hsites site hsite).eq_of_mem _ hts
        exact denotedArgs_siteSolutions c fuel args hplain hts hsite.length_eq (.refl _)
      refine pairwise_instances hc hfree hu hb hk.args hkind ?_ ?_
      · intro site hsite
        rw [nest_ambivariant]
        exact (hsites site hsite).atMostOne
      · intro site site' hsite hsite' hne p hp p' hp'
        rw [nest_ambivariant] at hp hp'
        exact (agree_or_clash_args args (hdenoted site hsite p hp)
          (hdenoted site' hsite' p' hp')).resolve_left hne

/-- The solutions of a slot clash pairwise. -/
theorem clash_conjunctionSolutions (hu : c.PointerFree candidate) (hb : b.In c.PointerFree)
    {ks : List Constraint}
    (hks : ∀ k ∈ ks, k.Over Catalog.BuildsNoPointer ∧ k.tellsSite = true) :
    (conjunctionSolutions c fuel .ambivariant candidate b ks).items.Pairwise Bindings.Clash := by
  induction ks generalizing b with
  | nil =>
    rw [conjunctionSolutions]
    exact (Listing.atMostOne_one _).pairwise _
  | cons k ks ih =>
    obtain ⟨⟨hk, htells⟩, hks⟩ := List.forall_mem_cons.mp hks
    rw [conjunctionSolutions]
    -- Behind one solution of the first constraint the others clash by induction. Behind two
    -- different ones they extend bindings that clash.
    refine Listing.pairwise_each false (clash_constraintSolutions hc hfree hu hb k hk htells) ?_ ?_
    · intro b' hb'
      have hin := (hc.matchClosed_pointerFree hfree).in_constraintSolutions hu hb k hk hb'
      exact ih hin hks
    · intro a _ a' _ hclash e he e' he'
      exact hclash.extends (extends_conjunctionSolutions c fuel ks he)
        (extends_conjunctionSolutions c fuel ks he')

/-- So do those of all slots together. -/
theorem clash_slotSolutions {slots : List Slot}
    (hslots : ∀ slot ∈ slots, ∀ k ∈ slot.constraints,
      k.Over Catalog.BuildsNoPointer ∧ k.tellsSite = true)
    {candidates : List Ty} (hcandidates : ∀ t ∈ candidates, c.PointerFree t)
    (hb : b.In c.PointerFree) :
    (slotSolutions c fuel slots candidates b).items.Pairwise Bindings.Clash := by
  induction slots generalizing candidates b with
  | nil =>
    rw [slotSolutions]
    exact (Listing.atMostOne_one _).pairwise _
  | cons slot slots ih =>
    obtain ⟨hslot, hslots⟩ := List.forall_mem_cons.mp hslots
    cases candidates with
    | nil => exact .nil
    | cons candidate rest =>
      obtain ⟨hu, hrest⟩ := List.forall_mem_cons.mp hcandidates
      rw [slotSolutions]
      refine Listing.pairwise_each slot.definitive
        (clash_conjunctionSolutions hc hfree hu hb hslot) ?_ ?_
      · intro b' hb'
        have hin := (hc.matchClosed_pointerFree hfree).in_conjunctionSolutions hu hb
          slot.constraints (fun k hk => (hslot k hk).1) hb'
        exact ih hslots hrest hin
      · intro a _ a' _ hclash e he e' he'
        exact hclash.extends (extends_slotSolutions c fuel he) (extends_slotSolutions c fuel he')

end Sites

/-- **No match is delivered twice to slots that tell their sites.** In a catalog that declares types
at their arity and without pointers, and for candidates and bindings without pointers, any two sets
of bindings that a consumer is handed differ in the type of a name that both bind. -/
theorem slotBindings_clash {ν : Type} {c : Catalog} (hc : c.DeclaredAtArity)
    (hfree : ∀ s ∈ c.allDeclared, s.pointerFree = true) (fuel : Nat) {slots : List Slot}
    (hslots : ∀ slot ∈ slots, ∀ k ∈ slot.constraints,
      k.Over Catalog.BuildsNoPointer ∧ k.tellsSite = true)
    {candidates : List Ty} (hcandidates : ∀ t ∈ candidates, c.PointerFree t)
    {b : Bindings} (hb : b.In c.PointerFree) (stop : List Bindings → Bool) :
    ((slotBindings c fuel slots candidates b : Search ν _ _).run stop).items.Pairwise
      Bindings.Clash := by
  have hprefix := Search.runFrom_items_prefix stop []
    (slotBindings c fuel slots candidates b : Search ν _ _)
  rw [listing_slotBindings] at hprefix
  exact (clash_slotSolutions hc hfree hslots hcandidates hb).sublist hprefix.sublist

/-- Two rows are two sequences in four ways, and in each with other element types. -/
theorem rows_clash :
    let run := (slotBindings rowLibrary 9 (twoSequences false false) [.nominal 22, .nominal 22] [] :
      Search Empty _ _).run Search.takeAll
    run.items.Pairwise Bindings.Clash ∧ run.items.length = 4 := by
  have hwell : rowLibrary.WellDeclared :=
    ⟨rowLibrary.forall_declared (by decide), by decide, by decide⟩
  have hslots : ∀ slot ∈ twoSequences false false, ∀ k ∈ slot.constraints,
      k.Over Catalog.BuildsNoPointer ∧ k.tellsSite = true := by decide
  have hrow : rowLibrary.PointerFree (.nominal 22) := ⟨.named rfl nofun, rfl⟩
  have hcandidates : ∀ t ∈ [Ty.nominal 22, Ty.nominal 22], rowLibrary.PointerFree t := by
    simp [hrow]
  exact ⟨slotBindings_clash hwell.atArity (by decide) 9 hslots hcandidates (Bindings.in_nil _) _,
    rfl⟩

/-- A sequence of anything. -/
def anySequence : List Slot := [⟨[.instanceOf 11 .covariant [.wildcard]], false⟩]

/-- **A wildcard forgets the site**: a row is a sequence of integers and of strings, so it is found
twice to be a sequence of anything, with the same bindings. -/
theorem anySequence_found_twice :
    ((slotBindings rowLibrary 9 anySequence [.nominal 22] [] : Search Empty _ _).run
      Search.takeAll).items = [[], []] := rfl

end TypeResolution
