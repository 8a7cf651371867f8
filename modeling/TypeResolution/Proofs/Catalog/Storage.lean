import TypeResolution.Config.Catalog
import TypeResolution.Proofs.Catalog.Questions

/-!
# How types are stored, and what inheritance makes of it

Two ways lead to a closed type. Instantiation builds it from a definition and its arguments, and
there a pointer or by-reference argument is stored in nominal form. Inheritance puts the arguments
of a type into what its definition declares, and nothing is rewritten there. The two agree as long
as everything stays where it belongs (`Stored`): nominal forms of pointers and by-reference types as
arguments only, the types themselves everywhere else. Parameters may then stand as arguments only,
since a nominal form may be put in for them.

If all declarations are written so, then what a canonical type inherits is again what instantiation
would have built, and it can be written down and read again (`inherited_instantiates`). Two things
break this. A declared type may be written with a pointer for an argument. And one-dimensional
arrays put their element into the interfaces that they declare as it is, so an array of pointers
inherits interfaces that instantiation does not build (`pointerArrays_inherit_unstored`).

The same notion settles which types are told apart by their *plain* forms, in which stand-ins of
pointers and references are replaced by what they encode. Two stored types with the same plain form
are equal (`Stored.eq_of_plain`), so there is only one way to store a type.
-/

namespace TypeResolution

/-! ## Plain forms

The plain form is what one would write down without knowing about storage. It is obtained by reading
at every depth. -/

namespace Ty

mutual
/-- A type with all its stand-ins read. -/
def plain : Ty → Ty
  | .param i => .param i
  | .named d ts =>
    match structural? d (plainAll ts) with
    | some (.ok t) => t
    | _ => .named d (plainAll ts)
  | .array n t => .array n t.plain
  | .pointer t => .pointer t.plain
  | .byRef t => .byRef t.plain

/-- The types of a list with all their stand-ins read. -/
def plainAll : List Ty → List Ty
  | [] => []
  | t :: ts => t.plain :: plainAll ts
end

/-- The plain forms of a list are those of its members. -/
theorem plainAll_eq_map (ts : List Ty) : plainAll ts = ts.map plain := by
  induction ts with
  | nil => rfl
  | cons t ts ih => rw [plainAll, ih, List.map_cons]

end Ty

namespace Catalog

/-! ## Stored types

Whether a type is stored well depends on where it stands. A pointer may stand anywhere but as an
argument of a name, and its stand-in nowhere but there. So the predicate carries the place, and each
constructor says at which places it applies. -/

/-- The definition stands in for arrays, pointers or by-reference types. -/
def IsStructural (d : DefIndex) : Prop := ∃ m, Marker.ofDefinition? d = some m ∧ m.isKind = false

/-- Only structural stand-ins are read. -/
theorem structural?_eq_none {d : DefIndex} (h : ¬ IsStructural d) (args : List Ty) :
    Ty.structural? d args = none := by
  have hne : ∀ m : Marker, m.isKind = false → d ≠ m.definition := by
    rintro m hm rfl
    exact h ⟨m, Marker.ofDefinition?_definition m, hm⟩
  rcases args with _ | ⟨a, _ | ⟨b, _ | ⟨e, es⟩⟩⟩
  · rfl
  · rw [Ty.structural?, if_neg (hne .pointer rfl), if_neg (hne .byRef rfl)]
  · rw [Ty.structural?, if_neg (hne .array rfl)]
  · rfl

/-- To store a type that is stored changes nothing. -/
theorem storedArg_storedArg (t : Ty) : storedArg (storedArg t) = storedArg t := by
  cases t <;> rfl

/-- A definition that stands in for nothing structural makes the same of arguments that are stored
alike. -/
theorem instantiate_congr_stored {c : Catalog} {d : DefIndex} (hd : ¬ IsStructural d)
    {args args' : List Ty} (h : args.map storedArg = args'.map storedArg) (fuel : Nat) :
    c.instantiate fuel d args = c.instantiate fuel d args' := by
  have hclosed : ∀ ts : List Ty, (ts.map storedArg).findIdx? (fun t => !t.isClosed) =
      ts.findIdx? fun t => !t.isClosed := by
    intro ts
    rw [List.findIdx?_map]
    exact congrArg (ts.findIdx? ·) (funext fun t => by simp [isClosed_storedArg])
  have hcheck : checkArgs d (c.arity d) args = checkArgs d (c.arity d) args' := by
    have hlength := congrArg List.length h
    rw [List.length_map, List.length_map] at hlength
    rw [checkArgs, checkArgs, hlength, ← hclosed args, ← hclosed args', h]
  rw [instantiate, instantiate, hcheck, structural?_eq_none hd, structural?_eq_none hd]
  simp only [h]

/-- Where a part of a type stands. -/
inductive Place where
  /-- as an argument of a definition -/
  | argument
  /-- anywhere else -/
  | whole
  deriving DecidableEq

/-- A type over `n` parameters, at its place, is written as instantiation stores types: definitions
are applied at their arity, pointers and by-reference types are nominal as arguments and nowhere
else, and parameters occur as arguments only. -/
inductive Stored (c : Catalog) (n : Nat) : Place → Ty → Prop
  /-- a parameter for an argument -/
  | param {i : Nat} (hi : i < n) : Stored c n .argument (.param i)
  /-- a definition that stands in for nothing structural, at its arity -/
  | named {p : Place} {d : DefIndex} {ts : List Ty} (hd : ¬ IsStructural d)
      (hlength : ts.length = c.arity d) (hts : ∀ t ∈ ts, Stored c n .argument t) :
      Stored c n p (.named d ts)
  /-- an array -/
  | array {p : Place} {rank : Nat} {elem : Ty} (helem : Stored c n .whole elem) :
      Stored c n p (.array rank elem)
  /-- a pointer that is no argument -/
  | pointer {elem : Ty} (helem : Stored c n .whole elem) : Stored c n .whole (.pointer elem)
  /-- a by-reference type that is no argument -/
  | byRef {elem : Ty} (helem : Stored c n .whole elem) : Stored c n .whole (.byRef elem)
  /-- a pointer for an argument -/
  | pointerArgument {elem : Ty} (helem : Stored c n .whole elem) :
      Stored c n .argument (.named Marker.pointer.definition [elem])
  /-- a by-reference type for an argument -/
  | byRefArgument {elem : Ty} (helem : Stored c n .whole elem) :
      Stored c n .argument (.named Marker.byRef.definition [elem])

variable {c : Catalog}

/-- A stored type without parameters is closed. -/
theorem Stored.isClosed {p : Place} {t : Ty} (h : c.Stored 0 p t) : t.isClosed = true := by
  induction h with
  | param hi => exact absurd hi (Nat.not_lt_zero _)
  | named _ _ _ ih =>
    rw [Ty.isClosed, Ty.allClosed_eq_all, List.all_eq_true]
    exact ih
  | array _ ih => exact ih
  | pointer _ ih => exact ih
  | byRef _ ih => exact ih
  | pointerArgument _ ih => simpa [Ty.isClosed, Ty.allClosed] using ih
  | byRefArgument _ ih => simpa [Ty.isClosed, Ty.allClosed] using ih

/-- What instantiation makes of an argument is an argument. -/
theorem Stored.argument {n : Nat} {t : Ty} (h : c.Stored n .whole t) :
    c.Stored n .argument (storedArg t) := by
  cases h with
  | named hd hlength hts => exact .named hd hlength hts
  | array helem => exact .array helem
  | pointer helem => exact .pointerArgument helem
  | byRef helem => exact .byRefArgument helem

/-- Arguments that are stored stay as they are. -/
theorem Stored.storedArg_eq {n : Nat} {t : Ty} (h : c.Stored n .argument t) :
    storedArg t = t := by
  cases h <;> rfl

/-- Putting in arguments keeps types stored. -/
theorem Stored.subst {m n : Nat} {p : Place} {s : Ty} (h : c.Stored m p s) {σ : List Ty}
    (hlength : m ≤ σ.length) (hσ : ∀ a ∈ σ, c.Stored n .argument a) : c.Stored n p (s.subst σ) := by
  induction h with
  | param hi => exact hσ _ (Ty.subst_param_mem (Nat.lt_of_lt_of_le hi hlength))
  | named hd harity _ ih =>
    rw [Ty.subst, Ty.substAll_eq_map]
    refine .named hd (by rw [List.length_map]; exact harity) fun t ht => ?_
    obtain ⟨s, hs, rfl⟩ := List.mem_map.mp ht
    exact ih s hs
  | array _ ih => exact .array ih
  | pointer _ ih => exact .pointer ih
  | byRef _ ih => exact .byRef ih
  | pointerArgument _ ih => exact .pointerArgument ih
  | byRefArgument _ ih => exact .byRefArgument ih

/-! ## Instances are stored

Instantiation stores its arguments and leaves the type itself alone, which is what the two places
are made for. -/

/-- The encoding of a rank is stored anywhere. -/
theorem stored_rankEncoding (p : Place) (rank : Nat) : c.Stored 0 p (rankEncoding rank) := by
  have hzero : ¬ IsStructural rankZero := by
    rintro ⟨m, hm, -⟩
    cases hm
  have hsucc : ¬ IsStructural rankSucc := by
    rintro ⟨m, hm, -⟩
    cases hm
  induction rank generalizing p with
  | zero => exact .named hzero c.arity_rankZero.symm (by simp)
  | succ rank ih => exact .named hsucc c.arity_rankSucc.symm (by simpa using ih .argument)

/-- Instantiation stores what it builds from stored types. -/
theorem stored_of_instantiate {fuel : Nat} {d : DefIndex} {args : List Ty} {t : Ty}
    (hargs : ∀ a ∈ args, c.Stored 0 .whole a) (h : c.instantiate fuel d args = some (.ok t)) :
    c.Stored 0 .whole t := by
  have hlength := c.length_of_instantiate h
  rcases (c.instantiate_ok h).2 with hs | ⟨hs, rfl, -⟩
  · rcases Ty.structural?_ok hs with ⟨-, n, elem, rfl, rfl⟩ | ⟨-, elem, rfl, rfl⟩ |
      ⟨-, elem, rfl, rfl⟩
    · exact .array (hargs elem (by simp))
    · exact .pointer (hargs elem (by simp))
    · exact .byRef (hargs elem (by simp))
  · refine .named ?_ (by rw [List.length_map]; exact hlength) fun s hs => ?_
    · rintro ⟨m, hm, hkind⟩
      exact absurd (isKind_of_structural? hlength hs hm) (by rw [hkind]; decide)
    · obtain ⟨a, ha, rfl⟩ := List.mem_map.mp hs
      exact (hargs a ha).argument

/-- A canonical type is stored, as it was built by instantiating. -/
theorem Canonical.stored {t : Ty} (h : c.Canonical t) : c.Stored 0 .whole t := by
  induction h with
  | intro _ hinstance ih => exact stored_of_instantiate ih hinstance

/-! ## What is inherited is stored

Putting arguments into a declared type replaces parameters, which stand as arguments, by types that
were stored as arguments. For arrays there is an exception: what an array inherits is declared over
its element, and the element is not an argument. So the element must not be one of those that are
stored differently. -/

/-- An array has a dimension; if it has only one, its element is no pointer and no by-reference
type, so its interfaces may be put together with the element as it is. -/
def SoundArray (t : Ty) : Prop :=
  ∀ rank elem, t = .array rank elem → 0 < rank ∧ (rank = 1 → storedArg elem = elem)

/-- Whatever is declared to be inherited is written as types are stored, and arrays among it are
sound. -/
structure DeclaredStored (c : Catalog) : Prop where
  /-- the bases and interfaces of definitions -/
  declared : ∀ d, ∀ s ∈ c.declared d, c.Stored (c.arity d) .whole s ∧ SoundArray s
  /-- the base of arrays -/
  arrayBase : ∀ s ∈ c.arrayBase, c.Stored 0 .whole s ∧ SoundArray s
  /-- the interfaces of arrays -/
  arrayInterfaces : ∀ s ∈ c.arrayInterfaces, c.Stored 1 .whole s ∧ SoundArray s

/-- What is no pointer before arguments are put in is none afterwards. -/
theorem Stored.storedArg_subst {n : Nat} {s : Ty} (h : c.Stored n .whole s) (hs : storedArg s = s)
    (σ : List Ty) : storedArg (s.subst σ) = s.subst σ := by
  cases h with
  | named _ _ _ => rfl
  | array _ => rfl
  | pointer _ => cases hs
  | byRef _ => cases hs

/-- Filling parameters keeps arrays sound. -/
theorem Stored.soundArray_subst {n : Nat} {s : Ty} (h : c.Stored n .whole s) (hs : SoundArray s)
    (σ : List Ty) : SoundArray (s.subst σ) := by
  intro rank elem heq
  cases h with
  | @array _ rank' elem' helem =>
    obtain ⟨rfl, rfl⟩ := Ty.array.inj heq
    obtain ⟨hrank, helement⟩ := hs rank' elem' rfl
    exact ⟨hrank, fun hone => helem.storedArg_subst (helement hone) σ⟩
  | _ => cases heq

/-- A step up from a stored type leads to a stored type. -/
theorem DeclaredStored.step (hc : c.DeclaredStored) {t b : Ty} (ht : c.Stored 0 .whole t)
    (hsound : SoundArray t) (h : c.HasBase t b ∨ c.Declares t b) :
    c.Stored 0 .whole b ∧ SoundArray b := by
  rcases step_cases h with ⟨d, ts, s, rfl, hs, rfl⟩ | ⟨rank, elem, rfl, hb | ⟨rfl, s, hs, rfl⟩⟩
  · obtain ⟨hstored, harray⟩ := hc.declared d s hs
    cases ht with
    | named _ hlength hts =>
      exact ⟨hstored.subst (Nat.le_of_eq hlength.symm) hts, hstored.soundArray_subst harray ts⟩
  · exact hc.arrayBase b hb
  · obtain ⟨hstored, harray⟩ := hc.arrayInterfaces s hs
    cases ht with
    | array helem =>
      have hargument : c.Stored 0 .argument elem := (hsound 1 elem rfl).2 rfl ▸ helem.argument
      exact ⟨hstored.subst (Nat.le_refl 1) (by simpa using hargument),
        hstored.soundArray_subst harray [elem]⟩

/-- **What a stored type inherits is stored**, if all declarations are. -/
theorem Inherits.stored (hc : c.DeclaredStored) {t a : Ty} (h : c.Inherits t a)
    (ht : c.Stored 0 .whole t) (hsound : SoundArray t) : c.Stored 0 .whole a ∧ SoundArray a :=
  h.induction (P := fun s => c.Stored 0 .whole s ∧ SoundArray s) ⟨ht, hsound⟩
    (fun _ _ hs hb => hc.step hs.1 hs.2 (.inl hb)) fun _ _ hs hi => hc.step hs.1 hs.2 (.inr hi)

/-! ## Stored types instantiate to themselves

Instantiating the definition of a stored type at the arguments it holds gives the type again,
provided that the bounds are met. They need not be: a type that is inherited is not checked. -/

/-- The arguments meet the bounds of a definition. -/
def MeetsBounds (c : Catalog) (d : DefIndex) (args : List Ty) : Prop :=
  ∃ fuel, c.firstMissed fuel args ((c.definition d).params.zip args) = some none

/-- **A stored type is what instantiation makes of its definition and arguments**, if these meet the
bounds. -/
theorem Stored.exists_instantiate {a : Ty} (h : c.Stored 0 .whole a) (hsound : SoundArray a) :
    ∃ d, a.head? = some d ∧ (c.MeetsBounds d a.headArgs → c.HasInstance d a.headArgs a) := by
  -- For a name the arguments are stored, so storing them changes nothing. An array, a pointer or a
  -- reference is read from its stand-in, where no bounds are checked.
  cases h with
  | @named _ d ts hd hlength hts =>
    refine ⟨d, rfl, fun ⟨fuel, hbounds⟩ => ⟨fuel, ?_⟩⟩
    have hstored : ts.map storedArg = ts :=
      (List.map_congr_left fun t ht => (hts t ht).storedArg_eq).trans (List.map_id ts)
    rw [Ty.headArgs] at hbounds ⊢
    rw [instantiate, checkArgs_eq_ok hlength fun t ht => (hts t ht).isClosed]
    dsimp only
    rw [structural?_eq_none hd]
    dsimp only
    rw [hstored, hbounds]
  | @array _ rank elem helem =>
    refine ⟨_, rfl, fun _ => ⟨0, ?_⟩⟩
    obtain ⟨rank, rfl⟩ := Nat.exists_eq_succ_of_ne_zero (Nat.ne_of_gt (hsound rank elem rfl).1)
    have hrank := (stored_rankEncoding (c := c) .whole (rank + 1)).isClosed
    refine instantiate_of_structural? (m := .array) rfl ?_ ?_ 0
    · simpa [Ty.headArgs] using ⟨hrank, helem.isClosed⟩
    · rw [Ty.headArgs, Ty.structural?, if_pos rfl, readRank?_rankEncoding]
  | pointer helem =>
    exact ⟨_, rfl, fun _ => ⟨0, instantiate_of_structural? (m := .pointer) rfl
      (by simpa [Ty.headArgs] using helem.isClosed) rfl 0⟩⟩
  | byRef helem =>
    exact ⟨_, rfl, fun _ => ⟨0, instantiate_of_structural? (m := .byRef) rfl
      (by simpa [Ty.headArgs] using helem.isClosed) rfl 0⟩⟩

/-! ## Stored types are told apart by their plain forms

The proof goes by induction on the one type and cases on the other. Where shapes differ the plain
forms do, too, except for stand-ins, and there the place tells which of the two it is. -/

/-- The plain form of an ordinary name has the plain forms of its arguments. -/
theorem plain_named {d : DefIndex} (hd : ¬ IsStructural d) (ts : List Ty) :
    (Ty.named d ts).plain = .named d (ts.map Ty.plain) := by
  rw [Ty.plain, structural?_eq_none hd, Ty.plainAll_eq_map]

/-- Lists with the same plain forms are equal if their members are told apart. -/
theorem eq_of_map_plain {ts us : List Ty} (h : ∀ t ∈ ts, ∀ u ∈ us, t.plain = u.plain → t = u)
    (heq : ts.map Ty.plain = us.map Ty.plain) : ts = us := by
  refine List.ext_getElem (by simpa using congrArg List.length heq) fun i h₁ h₂ => ?_
  refine h _ (List.getElem_mem h₁) _ (List.getElem_mem h₂) ?_
  have hsame := congrArg (fun l => l[i]?) heq
  simpa [List.getElem?_eq_getElem h₁, List.getElem?_eq_getElem h₂] using hsame

/-- **One place has only one way to store a type.** -/
theorem Stored.eq_of_plain {p : Place} {s t : Ty} (hs : c.Stored 0 p s) (ht : c.Stored 0 p t)
    (h : s.plain = t.plain) : s = t := by
  -- Both types stand at the same place, so a pointer and the stand-in of a pointer never meet.
  induction hs generalizing t with
  | param hi => exact absurd hi (Nat.not_lt_zero _)
  | @named p d ts hd hlength hts ih =>
    rw [plain_named hd] at h
    cases ht with
    | param hi => exact absurd hi (Nat.not_lt_zero _)
    | @named _ e us he _ hus =>
      rw [plain_named he] at h
      obtain ⟨rfl, hargs⟩ := Ty.named.inj h
      rw [eq_of_map_plain (fun t ht u hu => ih t ht (hus u hu)) hargs]
    | _ => cases h
  | array _ ih =>
    cases ht with
    | named he => rw [plain_named he] at h; cases h
    | array helem =>
      obtain ⟨rfl, helement⟩ := Ty.array.inj h
      rw [ih helem helement]
    | param hi => exact absurd hi (Nat.not_lt_zero _)
    | _ => cases h
  | pointer _ ih =>
    cases ht with
    | named he => rw [plain_named he] at h; cases h
    | pointer helem => rw [ih helem (Ty.pointer.inj h)]
    | _ => cases h
  | byRef _ ih =>
    cases ht with
    | named he => rw [plain_named he] at h; cases h
    | byRef helem => rw [ih helem (Ty.byRef.inj h)]
    | _ => cases h
  | pointerArgument _ ih =>
    cases ht with
    | named he => rw [plain_named he] at h; cases h
    | pointerArgument helem => rw [ih helem (Ty.pointer.inj h)]
    | param hi => exact absurd hi (Nat.not_lt_zero _)
    | _ => cases h
  | byRefArgument _ ih =>
    cases ht with
    | named he => rw [plain_named he] at h; cases h
    | byRefArgument helem => rw [ih helem (Ty.byRef.inj h)]
    | param hi => exact absurd hi (Nat.not_lt_zero _)
    | _ => cases h

/-! ## What is read is stored

A closed text is read by instantiating from the inside out. So by recursion along the expression
everything that is read is stored, as a whole. -/

/-- What was mapped without an error was there without an error. -/
theorem exists_of_map_eq_ok {ε α β : Type} {x : Fueled (Except ε α)} {f : α → β} {b : β}
    (h : x.map (Except.map f) = some (.ok b)) : ∃ a, x = some (.ok a) ∧ f a = b := by
  obtain ⟨outcome, hx, houtcome⟩ := Option.map_eq_some_iff.mp h
  cases outcome with
  | error e => cases houtcome
  | ok a => exact ⟨a, hx, Except.ok.inj houtcome⟩

mutual
/-- What a closed expression means is stored. -/
theorem stored_of_toClosed {fuel : Nat} : (e : Expr) → {s : Ty} →
    e.toClosed c fuel = some (.ok s) → c.Stored 0 .whole s
  | .param i, s, h => by
    rw [Expr.toClosed] at h
    cases h
  | .named name args, s, h => by
    rw [Expr.toClosed] at h
    split at h
    · cases h
    · split at h
      · cases h
      · cases h
      · next ts hts =>
        obtain ⟨outcome, hinstance, houtcome⟩ := Option.map_eq_some_iff.mp h
        cases outcome with
        | error e => cases houtcome
        | ok r =>
          obtain rfl := Except.ok.inj houtcome
          exact stored_of_instantiate (stored_of_toClosedAll args hts) hinstance
  | .array elem rank, s, h => by
    rw [Expr.toClosed] at h
    obtain ⟨r, helem, rfl⟩ := exists_of_map_eq_ok h
    exact .array (stored_of_toClosed elem helem)
  | .pointer elem, s, h => by
    rw [Expr.toClosed] at h
    obtain ⟨r, helem, rfl⟩ := exists_of_map_eq_ok h
    exact .pointer (stored_of_toClosed elem helem)
  | .byRef elem, s, h => by
    rw [Expr.toClosed] at h
    obtain ⟨r, helem, rfl⟩ := exists_of_map_eq_ok h
    exact .byRef (stored_of_toClosed elem helem)

/-- The members of a list of expressions are stored as wholes, since they have not been put anywhere
yet. -/
theorem stored_of_toClosedAll {fuel : Nat} : (es : List Expr) → {ts : List Ty} →
    Expr.toClosedAll c fuel es = some (.ok ts) → ∀ t ∈ ts, c.Stored 0 .whole t
  | [], ts, h => by
    rw [Expr.toClosedAll] at h
    obtain rfl : [] = ts := by simpa using h
    exact fun t ht => absurd ht List.not_mem_nil
  | e :: es, ts, h => by
    rw [Expr.toClosedAll] at h
    split at h
    · cases h
    · cases h
    · next t ht =>
      obtain ⟨rest, hrest, rfl⟩ := exists_of_map_eq_ok h
      exact List.forall_mem_cons.mpr ⟨stored_of_toClosed e ht, stored_of_toClosedAll es hrest⟩
end

/-- What a text is read as is stored. -/
theorem stored_of_readClosed {fuel : Nat} {src : String} {s : Ty}
    (h : c.readClosed fuel src = some (.ok s)) : c.Stored 0 .whole s := by
  rw [readClosed] at h
  split at h
  · cases h
  · exact stored_of_toClosed _ h

/-! ## Inherited types

Flat declarations apply definitions to parameters, which is where parameters may stand. -/

/-- **What a canonical type inherits is what instantiation would have built.** Let all declarations
of the catalog be written as types are stored, and let `t` be canonical and no one-dimensional array
of pointers or by-reference types. Then an ancestor of `t` is the instance of its own definition
over its own arguments, if these meet the bounds. And a text that is read as the same type, up to
the way in which pointers are written, is read as this very ancestor. -/
theorem inherited_instantiates (hc : c.DeclaredStored) {t : Ty} (ht : c.Canonical t)
    (hpointers : ∀ elem, t = .array 1 elem → storedArg elem = elem) {a : Ty}
    (ha : c.HasAncestor t a) :
    ∃ d, a.head? = some d ∧
      (c.MeetsBounds d a.headArgs → c.HasInstance d a.headArgs a) ∧
      ∀ src fuel s, c.readClosed fuel src = some (.ok s) → s.plain = a.plain → s = a := by
  obtain ⟨fuel, above, habove, ha⟩ := ha
  have hsound : SoundArray t := by
    rintro rank elem rfl
    rcases ht.shape with ⟨n, elem, heq, -⟩ | ⟨elem, heq, -⟩ | ⟨elem, heq, -⟩ | ⟨d, args, heq, -⟩
    · obtain ⟨rfl, rfl⟩ := Ty.array.inj heq
      exact ⟨Nat.succ_pos n, fun hone => hpointers elem (by rw [hone])⟩
    all_goals cases heq
  obtain ⟨hstored, hsound⟩ := ((c.mem_ancestors_iff habove).mp ha).stored hc ht.stored hsound
  obtain ⟨d, hhead, hinstance⟩ := hstored.exists_instantiate hsound
  exact ⟨d, hhead, hinstance, fun src fuel s hs hplain =>
    (stored_of_readClosed hs).eq_of_plain hstored hplain⟩

/-- Flat declarations are written as types are stored. -/
theorem stored_of_isFlat {n : Nat} {s : Ty} (hwell : c.wellFormed n s = true)
    (hflat : s.isFlat = true) : c.Stored n .whole s ∧ SoundArray s := by
  obtain ⟨d, ts, rfl, hts⟩ := Ty.exists_of_isFlat hflat
  simp only [wellFormed, Bool.and_eq_true, Option.isNone_iff_eq_none, decide_eq_true_eq,
    allWellFormed_eq_all, List.all_eq_true] at hwell
  obtain ⟨⟨hmarker, hlength⟩, hall⟩ := hwell
  have hd : ¬ IsStructural d := by
    rintro ⟨m, hm, -⟩
    rw [hmarker] at hm
    cases hm
  refine ⟨.named hd hlength fun t ht => ?_, fun rank elem heq => by cases heq⟩
  obtain ⟨i, rfl⟩ := hts t ht
  exact .param (of_decide_eq_true (hall _ ht))

/-- Flat declarations are stored well. -/
theorem Flat.declaredStored (hflat : c.Flat) (hc : c.WellDeclared) : c.DeclaredStored where
  declared d s hs := stored_of_isFlat (hc.declared d s hs) (hflat.declared d s hs)
  arrayBase s hs := stored_of_isFlat (hc.arrayBase s hs) (hflat.arrayBase s hs)
  arrayInterfaces s hs := stored_of_isFlat (hc.arrayInterfaces s hs) (hflat.arrayInterfaces s hs)

/-- A list of pointers inherits the very interface that is read from `IList<int*>`. -/
theorem baseLibrary_inherits_readable :
    baseLibrary.HasAncestor (.named 14 [(Ty.pointer (.nominal 19)).nominalForm])
        (.named 12 [(Ty.pointer (.nominal 19)).nominalForm]) ∧
      baseLibrary.HasInstance 12 [(Ty.pointer (.nominal 19)).nominalForm]
        (.named 12 [(Ty.pointer (.nominal 19)).nominalForm]) ∧
      ∀ fuel s, baseLibrary.readClosed fuel "IList<int*>" = some (.ok s) →
        s.plain = .named 12 [.pointer (.nominal 19)] →
        s = .named 12 [(Ty.pointer (.nominal 19)).nominalForm] := by
  have hint : baseLibrary.Canonical (.nominal 19) := canonical_nominal rfl
  have hlist := hint.pointer.generic 14 rfl rfl
  have hancestor : baseLibrary.HasAncestor (.named 14 [(Ty.pointer (.nominal 19)).nominalForm])
      (.named 12 [(Ty.pointer (.nominal 19)).nominalForm]) := ⟨9, _, rfl, by decide +kernel⟩
  obtain ⟨d, hhead, hbuilt, hread⟩ :=
    inherited_instantiates (baseLibrary_flat.declaredStored baseLibrary_wellDeclared) hlist
      (fun _ heq => by cases heq) hancestor
  obtain rfl := Option.some.inj hhead
  exact ⟨hancestor, hbuilt ⟨9, rfl⟩, hread "IList<int*>"⟩

/-! ## Arrays of pointers

The catalog is read from a configuration, so that it is one that can occur: a list interface that
arrays declare over their element. For an array of pointers this puts a pointer where a stand-in is
expected. -/

/-- A configuration in which arrays are lists of their elements. -/
def arraysAsLists : Config where
  types :=
    [ { name := "IList", kind := .interfaceType, params := [{ name := "T" }], base := none,
        interfaces := [] },
      { name := "int", kind := .structType, params := [], base := none, interfaces := [] } ]
  arrays := some { base := none, interfaces := ["IList<!0>"] }

/-- Its definitions. -/
def arraysAsListsDefs : List Definition :=
  [ { name := "IList`1", kind := .interfaceType, params := [{ name := "T" }] },
    { name := "int", kind := .structType } ]

/-- Its catalog. -/
def arraysAsListsCatalog : Catalog :=
  (ofDefs arraysAsListsDefs).withArrays none [.named 8 [.param 0]]

/-- What is there after errors are dropped was there before. -/
theorem eq_ok_of_toOption {ε α : Type} {x : Except ε α} {a : α} (h : x.toOption = some a) :
    x = .ok a := by
  cases x with
  | error e => cases h
  | ok b => exact congrArg Except.ok (Option.some.inj h)

/-- The headers of the configuration are registered. -/
theorem arraysAsLists_headers :
    Config.registerHeaders .empty arraysAsLists.types = .ok (ofDefs arraysAsListsDefs) := by
  simp only [arraysAsLists, Config.registerHeaders, TypeEntry.header, TypeEntry.registeredName,
    String.contains_char_eq]
  rfl

/-- Its definitions are read over these. -/
theorem arraysAsLists_definitions :
    arraysAsLists.types.mapM (TypeEntry.read (ofDefs arraysAsListsDefs)) =
      .ok arraysAsListsDefs := by
  simp only [arraysAsLists, List.mapM_cons, List.mapM_nil, TypeEntry.read, TypeEntry.header,
    TypeEntry.registeredName, String.contains_char_eq]
  rfl

/-- So it is read as a catalog. -/
theorem arraysAsLists_catalog : arraysAsLists.catalog = .ok arraysAsListsCatalog := by
  have hinterface : Config.readType (ofDefs arraysAsListsDefs) "IList<!0>" =
      .ok (.named 8 [.param 0]) := by
    have hopen : (ofDefs arraysAsListsDefs).readOpen "IList<!0>" = .ok (.named 8 [.param 0]) :=
      eq_ok_of_toOption (by decide +kernel)
    rw [Config.readType, hopen]
    rfl
  have harrays : arraysAsLists.arrays = some { base := none, interfaces := ["IList<!0>"] } := rfl
  simp only [Config.catalog, arraysAsLists_headers, bind, Except.bind, arraysAsLists_definitions,
    harrays, Config.readType?, List.mapM_cons, List.mapM_nil, hinterface]
  rfl

/-- **Arrays of pointers inherit what instantiation does not build.** Arrays declare to be lists of
their elements. The interface that an array of pointers gets from this is another type than the list
of pointers that is instantiated, or that is read from a text. -/
theorem pointerArrays_inherit_unstored :
    arraysAsLists.catalog = .ok arraysAsListsCatalog ∧ arraysAsListsCatalog.WellDeclared ∧
      arraysAsListsCatalog.HierarchyEnds ∧
      arraysAsListsCatalog.Canonical (.array 1 (.pointer (.nominal 9))) ∧
      arraysAsListsCatalog.HasAncestor (.array 1 (.pointer (.nominal 9)))
        (.named 8 [.pointer (.nominal 9)]) ∧
      arraysAsListsCatalog.MeetsBounds 8 [.pointer (.nominal 9)] ∧
      ¬ arraysAsListsCatalog.HasInstance 8 [.pointer (.nominal 9)]
        (.named 8 [.pointer (.nominal 9)]) ∧
      arraysAsListsCatalog.readClosed 9 "IList<int*>" =
        some (.ok (.named 8 [(Ty.pointer (.nominal 9)).nominalForm])) := by
  have hwell : arraysAsListsCatalog.WellDeclared :=
    ⟨arraysAsListsCatalog.forall_declared (by decide), by decide, by decide⟩
  have hacyclic : arraysAsListsCatalog.Acyclic
      fun d => if d = Marker.array.definition then 100 else d :=
    ⟨arraysAsListsCatalog.forall_declared (by decide), by decide, by decide⟩
  have hflat : arraysAsListsCatalog.Flat :=
    ⟨arraysAsListsCatalog.forall_declared (by decide), by decide, by decide⟩
  have hassign := hflat.assignabilityEnds hacyclic.hierarchyEnds
  have hint : arraysAsListsCatalog.Canonical (.nominal 9) := canonical_nominal rfl
  have harray : arraysAsListsCatalog.Canonical (.array 1 (.pointer (.nominal 9))) :=
    hint.pointer.array (hassign.canonical_rankEncoding (by decide) 1)
  have hread : arraysAsListsCatalog.readClosed 9 "IList<int*>" =
      some (.ok (.named 8 [(Ty.pointer (.nominal 9)).nominalForm])) := by
    obtain ⟨outcome, houtcome, hvalue⟩ := Option.bind_eq_some_iff.mp
      (show (arraysAsListsCatalog.readClosed 9 "IList<int*>").bind Except.toOption =
        some (.named 8 [(Ty.pointer (.nominal 9)).nominalForm]) by decide +kernel)
    rw [houtcome, eq_ok_of_toOption hvalue]
  refine ⟨arraysAsLists_catalog, hwell, hacyclic.hierarchyEnds, harray,
    ⟨9, _, rfl, by decide +kernel⟩, ⟨0, rfl⟩, fun ⟨fuel, h⟩ => ?_, hread⟩
  have hbuilt : arraysAsListsCatalog.instantiate 9 8 [.pointer (.nominal 9)] =
      some (.ok (.named 8 [(Ty.pointer (.nominal 9)).nominalForm])) := rfl
  have hsame := Except.ok.inj
    (Fueled.eq_of_answers (fun h => arraysAsListsCatalog.instantiate_le h 8 _) hbuilt h)
  revert hsame
  decide

end Catalog

end TypeResolution
