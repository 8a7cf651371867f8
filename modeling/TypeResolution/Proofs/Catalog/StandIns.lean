import TypeResolution.Proofs.Catalog.Declarations

/-!
# Stand-ins and structural types correspond one to one

Unification writes a structural type over its stand-in and reads it back wherever an argument comes
by, so the two directions had better undo each other. They do (`standIns_read_back`):

* a rank is read from its unary encoding and from nothing else, whatever stands in the chain of
  successors or at its end;
* what is written over a stand-in is read back, and what is read from one is written back;
* reading fails only where there is nothing to read: over a wrong number of arguments, over an open
  argument, and, for arrays, over a first argument that encodes no rank of at least one.

Reading is a function of the type alone, as the stand-ins have the same numbers and parameters in
every catalog. It is what the catalog does when it is asked for an instance of a stand-in
(`instantiate_standIn`).
-/

namespace TypeResolution

namespace Ty

/-- Whether a type is structural and has a stand-in to be written over: a pointer, a by-reference
type, or an array with at least one dimension. -/
def hasStandIn : Ty → Bool
  | .array n _ => decide (0 < n)
  | .pointer _ => true
  | .byRef _ => true
  | _ => false

variable {m : Marker} {ts : List Ty}

/-- A structural stand-in over as many arguments as it takes denotes something, or it is known why
not. -/
theorem exists_structural? (hm : m.isKind = false) (hlength : ts.length = m.arity) :
    ∃ r, structural? m.definition ts = some r := by
  cases m with
  | array =>
    obtain ⟨rank, elem, rfl⟩ := List.length_eq_two.mp hlength
    rw [structural?, if_pos rfl]
    split <;> exact ⟨_, rfl⟩
  | pointer =>
    obtain ⟨elem, rfl⟩ := List.length_eq_one_iff.mp hlength
    exact ⟨_, rfl⟩
  | byRef =>
    obtain ⟨elem, rfl⟩ := List.length_eq_one_iff.mp hlength
    exact ⟨_, rfl⟩
  | valueType => cases hm
  | referenceType => cases hm

/-- The stand-in of arrays denotes none exactly over a first argument that encodes no rank of at
least one. -/
theorem structural?_error_iff (hm : m.isKind = false) (hlength : ts.length = m.arity) :
    (∃ e, structural? m.definition ts = some (.error e)) ↔
      m = .array ∧ ∀ n, ts.head? ≠ some (rankEncoding (n + 1)) := by
  -- Only arrays can fail, as the number of arguments is right. Pointers and references read
  -- whatever they are applied to.
  cases m with
  | array =>
    obtain ⟨rank, elem, rfl⟩ := List.length_eq_two.mp hlength
    rw [structural?, if_pos rfl]
    constructor
    · rintro ⟨e, he⟩
      refine ⟨rfl, fun n hrank => ?_⟩
      obtain rfl := Option.some.inj hrank
      simp [readRank?_rankEncoding] at he
    · rintro ⟨-, hrank⟩
      split
      · next n hn => exact absurd (congrArg some (eq_rankEncoding_of_readRank? hn)) (hrank n)
      · exact ⟨_, rfl⟩
  | pointer =>
    obtain ⟨elem, rfl⟩ := List.length_eq_one_iff.mp hlength
    simp [structural?]
  | byRef =>
    obtain ⟨elem, rfl⟩ := List.length_eq_one_iff.mp hlength
    simp [structural?, Marker.definition]
  | valueType => cases hm
  | referenceType => cases hm

/-- A structural stand-in over closed arguments, of which it has as many as it takes, is read as
what it denotes. -/
theorem structuralForm_eq_of_structural? (hm : m.isKind = false) (hlength : ts.length = m.arity)
    (hclosed : ∀ t ∈ ts, t.isClosed = true) {r : Except ArgumentError Ty}
    (hr : structural? m.definition ts = some r) : (named m.definition ts).structuralForm = r := by
  simp [structuralForm, Marker.ofDefinition?_definition, hm,
    Catalog.checkArgs_eq_ok hlength hclosed, hr]

/-- Over other arguments it is not read. -/
theorem exists_structuralForm_error (hm : m.isKind = false)
    (h : ¬ (ts.length = m.arity ∧ ∀ t ∈ ts, t.isClosed = true)) :
    ∃ e, checkArgs m.definition m.arity ts = .error e ∧
      (named m.definition ts).structuralForm = .error e := by
  rcases hcheck : checkArgs m.definition m.arity ts with e | _
  · refine ⟨e, rfl, ?_⟩
    simp [structuralForm, Marker.ofDefinition?_definition, hm, hcheck]
  · exact absurd (Catalog.checkArgs_ok hcheck) h

/-- **Reading a structural stand-in fails** over a wrong number of arguments, over an open argument,
over a first array argument that encodes no rank of at least one, and nowhere else. -/
theorem structuralForm_error_iff (hm : m.isKind = false) :
    (∃ e, (named m.definition ts).structuralForm = .error e) ↔
      ts.length ≠ m.arity ∨ (∃ t ∈ ts, t.isClosed = false) ∨
        m = .array ∧ ∀ n, ts.head? ≠ some (rankEncoding (n + 1)) := by
  by_cases hargs : ts.length = m.arity ∧ ∀ t ∈ ts, t.isClosed = true
  · obtain ⟨hlength, hclosed⟩ := hargs
    obtain ⟨r, hr⟩ := exists_structural? hm hlength
    have hnone : ¬ ∃ t ∈ ts, t.isClosed = false := by simpa using hclosed
    simp only [structuralForm_eq_of_structural? hm hlength hclosed hr,
      ← structural?_error_iff hm hlength, hr, Option.some.injEq, hlength, ne_eq, not_true_eq_false,
      hnone, false_or]
  · obtain ⟨e, -, he⟩ := exists_structuralForm_error hm hargs
    refine iff_of_true ⟨e, he⟩ ?_
    by_cases hlength : ts.length = m.arity
    · refine .inr (.inl ?_)
      simpa [hlength] using hargs
    · exact .inl hlength

/-- **A structural type is read back from its stand-in.** -/
theorem structuralForm_nominalForm {t : Ty} (hclosed : t.isClosed = true)
    (h : t.hasStandIn = true) : t.nominalForm.structuralForm = .ok t := by
  cases t with
  | param i => cases h
  | named d ts => cases h
  | array n elem =>
    obtain ⟨n, rfl⟩ := Nat.exists_eq_succ_of_ne_zero (Nat.ne_of_gt (of_decide_eq_true h))
    have hrank := (Catalog.proper_rankEncoding (c := .empty) 0 (n + 1)).isClosed
    refine Catalog.structuralForm_standIn (m := .array) ?_ rfl ?_
    · simp [structural?, readRank?_rankEncoding]
    · simpa [hrank, isClosed] using hclosed
  | pointer elem =>
    exact Catalog.structuralForm_standIn (m := .pointer) rfl rfl (by simpa [isClosed] using hclosed)
  | byRef elem =>
    exact Catalog.structuralForm_standIn (m := .byRef) rfl rfl (by simpa [isClosed] using hclosed)

/-- **What is read from a stand-in is written back.** -/
theorem nominalForm_of_structuralForm (hm : m.isKind = false) {u : Ty}
    (h : (named m.definition ts).structuralForm = .ok u) :
    u.nominalForm = .named m.definition ts := by
  by_cases hargs : ts.length = m.arity ∧ ∀ t ∈ ts, t.isClosed = true
  · obtain ⟨r, hr⟩ := exists_structural? hm hargs.1
    rw [structuralForm_eq_of_structural? hm hargs.1 hargs.2 hr] at h
    rw [h] at hr
    rcases structural?_ok hr with ⟨hd, n, elem, rfl, rfl⟩ | ⟨hd, elem, rfl, rfl⟩ |
      ⟨hd, elem, rfl, rfl⟩
    all_goals rw [hd, nominalForm]
  · obtain ⟨e, -, he⟩ := exists_structuralForm_error hm hargs
    rw [he] at h
    cases h

end Ty

namespace Catalog

/-- Reading a structural stand-in is instantiating it, in every catalog and without fuel. -/
theorem instantiate_standIn (c : Catalog) {m : Marker} (hm : m.isKind = false) (ts : List Ty)
    (fuel : Nat) :
    c.instantiate fuel m.definition ts = some (Ty.named m.definition ts).structuralForm := by
  rw [instantiate, c.arity_definition]
  by_cases hargs : ts.length = m.arity ∧ ∀ t ∈ ts, t.isClosed = true
  · obtain ⟨r, hr⟩ := Ty.exists_structural? hm hargs.1
    rw [Ty.structuralForm_eq_of_structural? hm hargs.1 hargs.2 hr,
      checkArgs_eq_ok hargs.1 hargs.2]
    simp only [hr]
  · obtain ⟨e, hcheck, he⟩ := Ty.exists_structuralForm_error hm hargs
    rw [hcheck, he]

/-- **Stand-ins and structural types correspond one to one.** Ranks are read from their encodings
and from nothing else. Every closed array with at least one dimension, pointer and by-reference type
is read back from its stand-in. And a catalog that is asked for an instance of a structural stand-in
reads the stand-in; what it reads is written back over it, and it reads nothing exactly if the
number of arguments is wrong, an argument is open, or the first argument of the stand-in for arrays
encodes no rank of at least one. -/
theorem standIns_read_back (c : Catalog) :
    (∀ t n, readRank? t = some n ↔ t = rankEncoding n) ∧
      (∀ t : Ty, t.isClosed = true → t.hasStandIn = true → t.nominalForm.structuralForm = .ok t) ∧
      ∀ m : Marker, m.isKind = false → ∀ ts,
        (∀ fuel, c.instantiate fuel m.definition ts =
          some (Ty.named m.definition ts).structuralForm) ∧
        (∀ u, (Ty.named m.definition ts).structuralForm = .ok u →
          u.nominalForm = .named m.definition ts) ∧
        ((∃ e, (Ty.named m.definition ts).structuralForm = .error e) ↔
          ts.length ≠ m.arity ∨ (∃ t ∈ ts, t.isClosed = false) ∨
            m = .array ∧ ∀ n, ts.head? ≠ some (rankEncoding (n + 1))) := by
  refine ⟨fun t n => readRank?_eq_some_iff, fun t => Ty.structuralForm_nominalForm, ?_⟩
  intro m hm ts
  refine ⟨c.instantiate_standIn hm ts, ?_, Ty.structuralForm_error_iff hm⟩
  intro u hu
  exact Ty.nominalForm_of_structuralForm hm hu

/-- An array of pointers with two dimensions is read back from its stand-in, and over the rank of no
dimension, or over an integer for a rank, the stand-in is not read. -/
theorem pointerMatrix_read_back :
    (Ty.array 2 (.pointer (.nominal 19))).nominalForm.structuralForm =
        .ok (.array 2 (.pointer (.nominal 19))) ∧
      (∃ e, (Ty.named Marker.array.definition [rankEncoding 0, .nominal 19]).structuralForm =
        .error e) ∧
      ∃ e, (Ty.named Marker.array.definition [.nominal 19, .nominal 19]).structuralForm =
        .error e := by
  obtain ⟨-, hback, hread⟩ := standIns_read_back baseLibrary
  obtain ⟨-, -, hzero⟩ := hread .array rfl [rankEncoding 0, .nominal 19]
  obtain ⟨-, -, hint⟩ := hread .array rfl [.nominal 19, .nominal 19]
  refine ⟨hback _ rfl rfl, ?_, ?_⟩
  · refine hzero.mpr (.inr (.inr ⟨rfl, fun n => ?_⟩))
    simp [rankEncoding, Ty.nominal]
  · refine hint.mpr (.inr (.inr ⟨rfl, fun n => ?_⟩))
    simp [rankEncoding, Ty.nominal, rankSucc]

end Catalog

end TypeResolution
