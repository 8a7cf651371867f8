import TypeResolution.Catalog.Instantiation

/-!
# Structural types and the definitions that stand in for them

Arrays, pointers and by-reference types are written in two ways: structurally, and over their
stand-ins. Reading a stand-in gives a structural type (`structural?_ok`), reading once is reading
for good (`structuralForm_idem`), and an instance of a definition has that definition for its head
in either form (`head?_of_instantiate`).

Reading goes one level deep: `structural?` looks at a definition and its arguments and says what
structural type they are, if any. The converse is not a function on types but a table, `headArgs`,
which says what a type would be written with over its definition. That the two are inverse to each
other, up to the failures of reading a rank, is what most of the lemmas say
(`structuralForm_of_structural?`, `headArgs_of_structural?`, `eq_of_headArgs`).
-/

namespace TypeResolution

/-- Only the stand-in of a marker stands in for it. -/
theorem Marker.eq_definition {d : DefIndex} {m : Marker} (h : ofDefinition? d = some m) :
    d = m.definition := by
  unfold ofDefinition? at h
  split at h
  all_goals cases h
  all_goals rfl

/-! ## Ranks

The rank of an array is a type when the array is written over its stand-in: a numeral in unary, made
of two definitions that have no other use. A type may fail to be such a numeral, and this is the one
thing that reading can fail for. -/

/-- Only the encoding of a rank is read as that rank. -/
theorem eq_rankEncoding_of_readRank? {t : Ty} {n : Nat} (h : readRank? t = some n) :
    t = rankEncoding n := by
  induction t generalizing n with
  | named d ts ih =>
    -- A numeral is zero, with no argument, or a successor with one. All other types are rejected
    -- right away.
    rcases ts with _ | ⟨t, _ | ⟨u, us⟩⟩
    · simp only [readRank?, Option.ite_none_right_eq_some, Option.some.injEq] at h
      obtain ⟨rfl, rfl⟩ := h
      rfl
    · simp only [readRank?, Option.ite_none_right_eq_some, Option.map_eq_some_iff] at h
      obtain ⟨rfl, m, hm, rfl⟩ := h
      rw [ih t List.mem_cons_self hm]
      rfl
    · simp [readRank?] at h
  | param i => simp [readRank?] at h
  | array m t _ => simp [readRank?] at h
  | pointer t _ => simp [readRank?] at h
  | byRef t _ => simp [readRank?] at h

/-- Ranks are read from their encodings and from nothing else. -/
theorem readRank?_eq_some_iff {t : Ty} {n : Nat} : readRank? t = some n ↔ t = rankEncoding n := by
  constructor
  · exact eq_rankEncoding_of_readRank?
  · rintro rfl
    exact readRank?_rankEncoding n

namespace Ty

/-! ## Reading a stand-in

There are three stand-ins for structural types, and each takes a fixed number of arguments. The
proofs go through the shapes that a list of arguments can have, up to the first that is too long. -/

/-- What a structural stand-in over some arguments denotes. -/
theorem structural?_ok {d : DefIndex} {args : List Ty} {t : Ty}
    (h : structural? d args = some (.ok t)) :
    (d = Marker.array.definition ∧ ∃ n elem, args = [rankEncoding (n + 1), elem] ∧
        t = .array (n + 1) elem) ∨
      (d = Marker.pointer.definition ∧ ∃ elem, args = [elem] ∧ t = .pointer elem) ∨
      (d = Marker.byRef.definition ∧ ∃ elem, args = [elem] ∧ t = .byRef elem) := by
  -- No arguments, one, two, more: pointers and references take one, arrays take a rank and an
  -- element.
  rcases args with _ | ⟨rank, _ | ⟨elem, _ | ⟨u, us⟩⟩⟩
  · simp [structural?] at h
  · rw [structural?] at h
    split at h
    · next hd =>
      obtain rfl : .pointer rank = t := by simpa using h
      exact .inr (.inl ⟨hd, rank, rfl, rfl⟩)
    · split at h
      · next hd =>
        obtain rfl : .byRef rank = t := by simpa using h
        exact .inr (.inr ⟨hd, rank, rfl, rfl⟩)
      · cases h
  · rw [structural?] at h
    split at h
    · next hd =>
      split at h
      · next n hrank =>
        obtain rfl : .array (n + 1) elem = t := by simpa using h
        rw [eq_rankEncoding_of_readRank? hrank]
        exact .inl ⟨hd, n, elem, rfl, rfl⟩
      · simp at h
    · cases h
  · simp [structural?] at h

/-- A stand-in denotes nothing only because of its rank. -/
theorem structural?_error {d : DefIndex} {args : List Ty} {e : ArgumentError}
    (h : structural? d args = some (.error e)) : ∃ rank, e = .malformedRank rank := by
  rcases args with _ | ⟨rank, _ | ⟨elem, _ | ⟨u, us⟩⟩⟩
  · cases h
  · rw [structural?] at h
    split at h
    · cases h
    · split at h <;> cases h
  · rw [structural?] at h
    split at h
    · split at h
      · cases h
      · exact ⟨rank, (Except.error.inj (Option.some.inj h)).symm⟩
    · cases h
  · cases h

/-- A structural type is its own structural form. -/
theorem structuralForm_of_structural? {d : DefIndex} {args : List Ty} {t : Ty}
    (h : structural? d args = some (.ok t)) : t.structuralForm = .ok t := by
  rcases structural?_ok h with ⟨-, n, elem, -, rfl⟩ | ⟨-, elem, -, rfl⟩ | ⟨-, elem, -, rfl⟩
  all_goals rfl

/-- What is read from a stand-in is applied to what the stand-in is applied to. -/
theorem headArgs_of_structural? {d : DefIndex} {args : List Ty} {t : Ty}
    (h : structural? d args = some (.ok t)) : t.headArgs = args := by
  rcases structural?_ok h with ⟨-, n, elem, rfl, rfl⟩ | ⟨-, elem, rfl, rfl⟩ | ⟨-, elem, rfl, rfl⟩
  all_goals rfl

/-- The structural form of a type is the type itself, or it has been read from a stand-in. -/
theorem structuralForm_ok {t u : Ty} (h : t.structuralForm = .ok u) :
    u = t ∨ ∃ d args, t = .named d args ∧ structural? d args = some (.ok u) := by
  cases t with
  | named d args =>
    rw [structuralForm] at h
    split at h
    · split at h
      · exact .inl (Except.ok.inj h).symm
      · split at h
        · cases h
        · rcases hs : structural? d args with _ | r
          · rw [hs] at h
            exact .inl (Except.ok.inj h).symm
          · rw [hs, Option.getD_some] at h
            exact .inr ⟨d, args, rfl, by rw [hs, h]⟩
    · exact .inl (Except.ok.inj h).symm
  | _ => exact .inl (Except.ok.inj h).symm

/-- Reading a structural form again changes nothing. -/
theorem structuralForm_idem {t u : Ty} (h : t.structuralForm = .ok u) :
    u.structuralForm = .ok u := by
  rcases structuralForm_ok h with rfl | ⟨d, args, rfl, hs⟩
  · exact h
  · exact structuralForm_of_structural? hs

/-- What is read from a stand-in is an instance of that stand-in. -/
theorem head?_of_structural? {d : DefIndex} {args : List Ty} {t : Ty}
    (h : structural? d args = some (.ok t)) : t.head? = some d := by
  rcases structural?_ok h with ⟨rfl, n, elem, -, rfl⟩ | ⟨rfl, elem, -, rfl⟩ | ⟨rfl, elem, -, rfl⟩
  all_goals rfl

/-- A closed type is an instance of a definition. -/
theorem exists_head? {t : Ty} (h : t.isClosed = true) : ∃ d, t.head? = some d := by
  cases t with
  | param i => cases h
  | _ => exact ⟨_, rfl⟩

/-- Different ranks are encoded differently. -/
theorem rankEncoding_injective {m n : Nat} (h : rankEncoding m = rankEncoding n) : m = n := by
  have hread := readRank?_rankEncoding m
  rw [h, readRank?_rankEncoding] at hread
  exact (Option.some.inj hread).symm

/-- The stand-in of a structural type, over the arguments of the type, does not read as itself. -/
theorem structuralForm_ne_of_structural {t : Ty} (ht : ∀ e ts, t ≠ .named e ts) {d : DefIndex}
    (hd : t.head? = some d) : (named d t.headArgs).structuralForm ≠ .ok (named d t.headArgs) := by
  -- A structural type, written over its stand-in, is not read as a name. So it cannot be confused
  -- with a name of the same stand-in that reading leaves as it is.
  have hread : ∀ m : Marker, d = m.definition → m.isKind = false →
      (∀ ts, structural? d t.headArgs ≠ some (.ok (.named d ts))) →
      (∃ r, structural? d t.headArgs = some r) →
      (named d t.headArgs).structuralForm ≠ .ok (named d t.headArgs) := by
    rintro m rfl hm hne ⟨r, hr⟩ h
    rw [structuralForm, Marker.ofDefinition?_definition] at h
    simp only [hm, Bool.false_eq_true, if_false] at h
    split at h
    · cases h
    · rw [hr, Option.getD_some] at h
      exact hne t.headArgs (by rw [hr, h])
  cases t with
  | param i => cases hd
  | named e ts => exact absurd rfl (ht e ts)
  | array n elem =>
    obtain rfl := Option.some.inj hd
    have hstructural : structural? Marker.array.definition [rankEncoding n, elem] =
        some (match n with
          | 0 => .error (.malformedRank (rankEncoding 0))
          | n + 1 => .ok (.array (n + 1) elem)) := by
      rw [structural?, if_pos rfl, readRank?_rankEncoding]
      cases n <;> rfl
    refine hread .array rfl rfl (fun ts h => ?_) ⟨_, hstructural⟩
    rw [headArgs, hstructural] at h
    cases n <;> cases h
  | pointer elem =>
    obtain rfl := Option.some.inj hd
    exact hread .pointer rfl rfl (fun ts h => by cases h) ⟨_, rfl⟩
  | byRef elem =>
    obtain rfl := Option.some.inj hd
    exact hread .byRef rfl rfl (fun ts h => by cases h) ⟨_, rfl⟩

/-- Types that read as themselves are told apart by their definitions and arguments. -/
theorem eq_of_headArgs {s t : Ty} (hs : s.structuralForm = .ok s) (ht : t.structuralForm = .ok t)
    {d : DefIndex} (hsd : s.head? = some d) (htd : t.head? = some d)
    (hargs : s.headArgs = t.headArgs) : s = t := by
  -- Two names are compared directly. A name and a structural type are told apart by being their own
  -- form or not, and two structural types of one definition are of the same kind, over the same
  -- arguments.
  by_cases hsn : ∃ e ts, s = .named e ts
  · obtain ⟨e, ts, rfl⟩ := hsn
    obtain rfl := Option.some.inj hsd
    by_cases htn : ∃ e ts, t = .named e ts
    · obtain ⟨e, us, rfl⟩ := htn
      obtain rfl := Option.some.inj htd
      exact congrArg (named e) hargs
    · have hne := structuralForm_ne_of_structural (fun e us h => htn ⟨e, us, h⟩) htd
      rw [← hargs] at hne
      exact absurd hs hne
  · by_cases htn : ∃ e ts, t = .named e ts
    · obtain ⟨e, us, rfl⟩ := htn
      obtain rfl := Option.some.inj htd
      have hne := structuralForm_ne_of_structural (fun e us h => hsn ⟨e, us, h⟩) hsd
      rw [hargs] at hne
      exact absurd ht hne
    · -- structural types are told apart by their stand-ins
      cases s with
      | param i => cases hsd
      | named e ts => exact absurd ⟨e, ts, rfl⟩ hsn
      | array m x =>
        obtain rfl := Option.some.inj hsd
        cases t with
        | array n y =>
          obtain ⟨hrank, hrest⟩ := List.cons_eq_cons.mp hargs
          rw [rankEncoding_injective hrank, (List.cons_eq_cons.mp hrest).1]
        | named e us => exact absurd ⟨e, us, rfl⟩ htn
        | _ => cases htd
      | pointer x =>
        obtain rfl := Option.some.inj hsd
        cases t with
        | pointer y => rw [(List.cons_eq_cons.mp hargs).1]
        | named e us => exact absurd ⟨e, us, rfl⟩ htn
        | _ => cases htd
      | byRef x =>
        obtain rfl := Option.some.inj hsd
        cases t with
        | byRef y => rw [(List.cons_eq_cons.mp hargs).1]
        | named e us => exact absurd ⟨e, us, rfl⟩ htn
        | _ => cases htd

/-- The encoding of a rank denotes no structural type, and is denoted by no stand-in. -/
theorem structural?_ne_rankEncoding (d : DefIndex) (args : List Ty) (n : Nat) :
    structural? d args ≠ some (.ok (rankEncoding n)) := by
  intro h
  rcases structural?_ok h with ⟨-, m, elem, -, ht⟩ | ⟨-, elem, -, ht⟩ | ⟨-, elem, -, ht⟩
  all_goals cases n <;> cases ht

/-- An encoding of a rank is not itself a structural type. -/
theorem structural?_ne_ok_of_rankEncoding {d : DefIndex} {args : List Ty} {n : Nat}
    (h : Ty.named d args = rankEncoding n) (t : Ty) : structural? d args ≠ some (.ok t) := by
  intro hs
  have hd : d = rankZero ∨ d = rankSucc := by
    cases n with
    | zero => exact .inl (named.inj h).1
    | succ n => exact .inr (named.inj h).1
  rcases structural?_ok hs with ⟨rfl, -⟩ | ⟨rfl, -⟩ | ⟨rfl, -⟩
  all_goals revert hd; decide

/-- A stand-in is larger than the structural type that it denotes. -/
theorem sizeOf_lt_of_structural? {d : DefIndex} {args : List Ty} {t : Ty}
    (h : structural? d args = some (.ok t)) : sizeOf t < sizeOf (Ty.named d args) := by
  have hrank : ∀ n, n < sizeOf (rankEncoding n) := by
    intro n
    induction n with
    | zero => simp [rankEncoding, nominal]
    | succ n ih =>
      simp only [rankEncoding, named.sizeOf_spec, List.cons.sizeOf_spec, List.nil.sizeOf_spec]
      omega
  rcases structural?_ok h with ⟨rfl, n, elem, rfl, rfl⟩ | ⟨rfl, elem, rfl, rfl⟩ |
    ⟨rfl, elem, rfl, rfl⟩
  · have := hrank (n + 1)
    simp only [array.sizeOf_spec, named.sizeOf_spec, List.cons.sizeOf_spec, List.nil.sizeOf_spec,
      sizeOf_nat]
    omega
  · simp only [pointer.sizeOf_spec, named.sizeOf_spec, List.cons.sizeOf_spec, List.nil.sizeOf_spec]
    omega
  · simp only [byRef.sizeOf_spec, named.sizeOf_spec, List.cons.sizeOf_spec, List.nil.sizeOf_spec]
    omega

/-! ## What a type is written with

Recursions over the structural reading of a type do not follow its syntax: an array is taken apart
into the encoding of its rank and its element. Induction along it needs a property that types hand
on to all that they are written with, and those are called hereditary. -/

/-- A property of types that passes on to what a type is written with. -/
structure Hereditary (P : Ty → Prop) : Prop where
  /-- it passes on to the arguments of a definition -/
  named : ∀ d ts, P (.named d ts) → ∀ t ∈ ts, P t
  /-- it passes on to the element of an array -/
  array : ∀ n t, P (.array n t) → P t
  /-- it passes on to what is pointed to -/
  pointer : ∀ t, P (.pointer t) → P t
  /-- it passes on to what is referred to -/
  byRef : ∀ t, P (.byRef t) → P t

/-- Whatever stands inside a type stands inside its structural form, among the arguments of its
head or deeper. -/
theorem hereditary_of_headArgs {P : Ty → Prop}
    (h : ∀ s t, P s → s.structuralForm = .ok t → ∀ x ∈ t.headArgs, P x)
    (hform : ∀ s, P s → ∃ t, s.structuralForm = .ok t) : Hereditary P where
  named d ts hP t ht := by
    obtain ⟨u, hu⟩ := hform _ hP
    rcases structuralForm_ok hu with rfl | ⟨e, args, heq, hs⟩
    · exact h _ _ hP hu t ht
    · obtain ⟨rfl, rfl⟩ := named.inj heq
      exact h _ _ hP hu t (by rwa [headArgs_of_structural? hs])
  array n t hP := h _ _ hP rfl t (by simp [headArgs])
  pointer t hP := h _ _ hP rfl t (by simp [headArgs])
  byRef t hP := h _ _ hP rfl t (by simp [headArgs])

/-- What stands inside a small type is small, and what stands inside a rank is a rank. -/
theorem hereditary_sizeOf_or_rankEncoding (size : Nat) :
    Hereditary fun x => sizeOf x ≤ size ∨ ∃ m, x = rankEncoding m where
  named d ts h t ht := by
    -- Reading may turn a small type into a larger one only for ranks, where the encoding grows with
    -- the number. So either the size bounds what follows, or it is a numeral, and this has numerals
    -- inside only.
    rcases h with h | ⟨_ | m, hm⟩
    · have := List.sizeOf_lt_of_mem ht
      rw [named.sizeOf_spec] at h
      exact .inl (by omega)
    · obtain ⟨-, rfl⟩ := named.inj hm
      exact absurd ht List.not_mem_nil
    · obtain ⟨-, rfl⟩ := named.inj hm
      exact .inr ⟨m, List.mem_singleton.mp ht⟩
  array n t h := by
    rcases h with h | ⟨_ | m, hm⟩
    · rw [array.sizeOf_spec] at h
      exact .inl (by omega)
    · cases hm
    · cases hm
  pointer t h := by
    rcases h with h | ⟨_ | m, hm⟩
    · rw [pointer.sizeOf_spec] at h
      exact .inl (by omega)
    · cases hm
    · cases hm
  byRef t h := by
    rcases h with h | ⟨_ | m, hm⟩
    · rw [byRef.sizeOf_spec] at h
      exact .inl (by omega)
    · cases hm
    · cases hm

end Ty

namespace Catalog

variable (c : Catalog)

/-! ## What an instance looks like

Instantiation either reads a stand-in or builds a name with the stored arguments. In both cases the
arguments were as many as the definition takes, and closed. -/

/-- The three answers of an instantiation that succeeds: the arguments passed the checks, and the
instance is the structural type that a stand-in denotes, or the definition over the stored
arguments, all of which meet their bounds. -/
theorem instantiate_ok {fuel : Nat} {d : DefIndex} {args : List Ty} {t : Ty}
    (h : c.instantiate fuel d args = some (.ok t)) :
    checkArgs d (c.arity d) args = .ok () ∧
      (Ty.structural? d args = some (.ok t) ∨
        (Ty.structural? d args = none ∧ t = .named d (args.map storedArg) ∧
          c.firstMissed fuel (args.map storedArg)
            ((c.definition d).params.zip (args.map storedArg)) = some none)) := by
  rw [instantiate] at h
  split at h
  · simp at h
  · next hargs =>
    refine ⟨hargs, ?_⟩
    rcases hs : Ty.structural? d args with _ | r
    · simp only [hs] at h
      split at h
      · cases h
      · simp at h
      · next hbounds =>
        obtain rfl : .named d (args.map storedArg) = t := by simpa using h
        exact .inr ⟨rfl, rfl, hbounds⟩
    · simp only [hs, Option.some.injEq] at h
      exact .inl (by rw [h])

/-- The definition takes these arguments, and this is its instance over them. -/
def HasInstance (d : DefIndex) (args : List Ty) (t : Ty) : Prop :=
  ∃ fuel, c.instantiate fuel d args = some (.ok t)

/-- A definition is given the number of arguments it takes, all of them closed. -/
theorem checkArgs_ok {d : DefIndex} {arity : Nat} {args : List Ty}
    (h : checkArgs d arity args = .ok ()) :
    args.length = arity ∧ ∀ t ∈ args, t.isClosed = true := by
  rw [checkArgs] at h
  split at h
  · cases h
  · next hlength =>
    split at h
    · cases h
    · next hclosed =>
      refine ⟨by simpa using hlength, fun t ht => ?_⟩
      simpa using List.findIdx?_eq_none_iff.mp hclosed t ht

/-- Closed arguments of the right number pass the check. -/
theorem checkArgs_eq_ok {d : DefIndex} {arity : Nat} {args : List Ty}
    (hlength : args.length = arity) (hclosed : ∀ t ∈ args, t.isClosed = true) :
    checkArgs d arity args = .ok () := by
  rw [checkArgs, if_neg (by simpa using hlength), List.findIdx?_eq_none_iff.mpr]
  simpa using hclosed

/-- An instance of a definition has that definition for its head. -/
theorem head?_of_instantiate {fuel : Nat} {d : DefIndex} {args : List Ty} {t : Ty}
    (h : c.instantiate fuel d args = some (.ok t)) : t.head? = some d := by
  rcases (c.instantiate_ok h).2 with hs | ⟨-, rfl, -⟩
  · exact Ty.head?_of_structural? hs
  · rfl

/-- There were as many arguments as the definition takes. -/
theorem length_of_instantiate {fuel : Nat} {d : DefIndex} {args : List Ty} {t : Ty}
    (h : c.instantiate fuel d args = some (.ok t)) : args.length = c.arity d :=
  (checkArgs_ok (c.instantiate_ok h).1).1

end Catalog

end TypeResolution
