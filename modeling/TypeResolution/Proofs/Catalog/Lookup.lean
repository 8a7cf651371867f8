import TypeResolution.Proofs.Catalog.Naming

/-!
# What is found under a name

Names may be registered twice, and a suffix may promise another number of parameters than the
definition has. So lookup is described here for catalogs of any kind, those of
`TypeResolution.Proofs.Catalog.Naming` and all others. What a name without back-ticks means for `n`
arguments is a definition that *answers to* it: it has that name but for the suffix, and it has `n`
parameters, or else the suffix says so. Something is found if and only if some definition answers
(`find?_answers`).

The suffix alone is not enough for a sound answer. Where every definition that has `n` for its
suffix has `n` parameters, it adds nothing, and lookup is sound and complete for definitions with
`n` parameters. Where a definition has another number it hides the one that was wanted
(`mislabelled_found`): the number is compared everywhere but behind the suffix.
-/

namespace TypeResolution.Catalog

variable {c : Catalog} {name : String} {n : Nat} {d : DefIndex}

/-- But for its suffix the definition has the name, and it takes `n` arguments or has `n` for its
suffix. -/
def AnswersTo (c : Catalog) (name : String) (n : Nat) (d : DefIndex) : Prop :=
  nameWithoutArity (c.name d) = name ∧
    (c.arity d = n ∨ 0 < n ∧ c.name d = nameWithArity name n)

/-- What is found answers to the name. -/
theorem answersTo_of_find? (hname : aritySeparator ∉ name.toList)
    (h : c.find? name (some n) = some d) : d < c.defs.length ∧ c.AnswersTo name n d := by
  rcases find?_cases h with ⟨hpos, hlookup⟩ | ⟨hlookup, harity⟩ | ⟨hd, hbase, harity⟩
  · obtain ⟨hd, heq⟩ := lookup?_ok hlookup
    refine ⟨hd, ?_, .inr ⟨hpos, heq⟩⟩
    rw [heq, nameWithoutArity_nameWithArity]
  · obtain ⟨hd, heq⟩ := lookup?_ok hlookup
    refine ⟨hd, ?_, .inl harity⟩
    rw [heq, nameWithoutArity_of_not_mem hname]
  · exact ⟨hd, hbase, .inl harity⟩

/-- If nothing is found, then nothing answers. -/
theorem not_answersTo_of_find? (h : c.find? name (some n) = none) (hd : d < c.defs.length) :
    ¬c.AnswersTo name n d := by
  have hmem : c.definition d ∈ c.defs := getElem_definition hd ▸ List.getElem_mem hd
  obtain ⟨hsuffixed, h⟩ := (Option.orElse_eq_none _ _).mp h
  obtain ⟨-, hscan⟩ := (Option.orElse_eq_none _ _).mp h
  rintro ⟨hbase, harity | ⟨hpos, hsuffix⟩⟩
  · -- the last place looks at every definition
    have hentry : (c.definition d, d) ∈ c.entries :=
      mem_entries.mpr (by rw [List.getElem?_eq_getElem hd, getElem_definition hd])
    have hnot := List.find?_eq_none.mp (Option.map_eq_none_iff.mp hscan) _ hentry
    refine hnot (Bool.and_eq_true_iff.mpr ⟨beq_iff_eq.mpr hbase, beq_iff_eq.mpr harity⟩)
  · obtain ⟨m, rfl⟩ := Nat.exists_eq_add_one_of_ne_zero (Nat.ne_of_gt hpos)
    exact lookup?_eq_none_iff.mp hsuffixed _ hmem hsuffix

/-- **What is found under a name.** Let the name be one without back-ticks. In every catalog

* what is found for `n` arguments answers to the name, and nothing is found only if nothing does;
* if all definitions with the name and the suffix `n` have `n` parameters, then what is found has
  the name but for the suffix and has `n` parameters, and nothing is found only if no definition
  is like that. -/
theorem find?_answers (hname : aritySeparator ∉ name.toList) :
    ((∀ d, c.find? name (some n) = some d → d < c.defs.length ∧ c.AnswersTo name n d) ∧
        (c.find? name (some n) = none ↔ ∀ d < c.defs.length, ¬c.AnswersTo name n d)) ∧
      ((∀ e ∈ c.defs, e.name = nameWithArity name n → e.arity = n) →
        (∀ d, c.find? name (some n) = some d →
            d < c.defs.length ∧ nameWithoutArity (c.name d) = name ∧ c.arity d = n) ∧
          (c.find? name (some n) = none ↔
            ∀ d < c.defs.length, nameWithoutArity (c.name d) = name → c.arity d ≠ n)) := by
  have hfound : ∀ d, c.find? name (some n) = some d →
      d < c.defs.length ∧ c.AnswersTo name n d := fun _ => answersTo_of_find? hname
  have hnone : c.find? name (some n) = none ↔ ∀ d < c.defs.length, ¬c.AnswersTo name n d := by
    constructor
    · intro h d hd
      exact not_answersTo_of_find? h hd
    · intro h
      refine Option.eq_none_iff_forall_ne_some.mpr fun d hd => ?_
      obtain ⟨hlt, hanswers⟩ := hfound d hd
      exact h d hlt hanswers
  -- If suffixes promise what is true, then to answer to a name is to have as many parameters, and
  -- both sides say the same of lookup.
  refine ⟨⟨hfound, hnone⟩, fun hhonest => ?_⟩
  have harity : ∀ d < c.defs.length,
      c.AnswersTo name n d ↔ nameWithoutArity (c.name d) = name ∧ c.arity d = n := by
    intro d hd
    refine and_congr_right fun _ => or_iff_left_of_imp fun ⟨_, hsuffix⟩ => ?_
    exact hhonest _ (getElem_definition hd ▸ List.getElem_mem hd) hsuffix
  constructor
  · intro d h
    obtain ⟨hd, hanswers⟩ := hfound d h
    exact ⟨hd, (harity d hd).mp hanswers⟩
  · rw [hnone]
    refine forall₂_congr fun d hd => ?_
    rw [harity d hd, not_and]

/-- A list that was registered twice, and a class of the same name without parameters. -/
def twoLists : Catalog :=
  (((empty.add { name := "List`1", params := [{ name := "T" }] }).add { name := "List" }).add
    { name := "List`1", kind := .interfaceType, params := [{ name := "U" }] })

/-- For one argument the later list is found, for none the class, and nothing for two. -/
theorem twoLists_found :
    aritySeparator ∉ "List".toList ∧ twoLists.find? "List" (some 1) = some 10 ∧
      twoLists.find? "List" (some 0) = some 9 ∧
      (nameWithoutArity (twoLists.name 10) = "List" ∧ twoLists.arity 10 = 1) ∧
      ∀ d < twoLists.defs.length, ¬twoLists.AnswersTo "List" 2 d := by
  have hname : aritySeparator ∉ "List".toList := by decide
  have hone : twoLists.find? "List" (some 1) = some 10 := by decide
  have htwo : twoLists.find? "List" (some 2) = none := by decide
  have hsuffix : ∀ e ∈ twoLists.defs, e.name = nameWithArity "List" 1 → e.arity = 1 := by decide
  obtain ⟨-, hhonest⟩ := find?_answers (c := twoLists) (n := 1) hname
  obtain ⟨⟨-, hnone⟩, -⟩ := find?_answers (c := twoLists) (n := 2) hname
  exact ⟨hname, hone, by decide, ((hhonest hsuffix).1 10 hone).2, hnone.mp htwo⟩

/-- A pair whose name promises one parameter, and a `Pair` that has one. -/
def mislabelledPair : Catalog :=
  (empty.add { name := "Pair`1", params := [{ name := "A" }, { name := "B" }] }).add
    { name := "Pair", params := [{ name := "A" }] }

/-- **A definition is found that does not take the arguments**, although another one does. -/
theorem mislabelled_found :
    aritySeparator ∉ "Pair".toList ∧ mislabelledPair.find? "Pair" (some 1) = some 8 ∧
      mislabelledPair.arity 8 = 2 ∧
      nameWithoutArity (mislabelledPair.name 9) = "Pair" ∧ mislabelledPair.arity 9 = 1 := by
  decide

end TypeResolution.Catalog
