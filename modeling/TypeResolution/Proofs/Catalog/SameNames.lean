import Mathlib.Data.List.Perm.Basic
import TypeResolution.Proofs.Catalog.Canonical
import TypeResolution.Proofs.Catalog.Naming
import TypeResolution.Proofs.Catalog.Renaming

/-!
# Definitions of the same names in two catalogs

Two catalogs may have definitions with the same names and numbers of arguments, but in another
order. If they are well named, `sameName` gives the number that the definition of the same name has
in the other catalog. It keeps the definitions apart and the stand-ins where they are
(`MatchesLabels.isRenaming`), and it goes along with the search for a name
(`MatchesLabels.findsAlike`).

Both are consequences of a few facts about the numbers (`MatchesLabels`), and these are what a
change of order establishes. Labels, that is full names and numbers of parameters, are all that is
compared. What a definition inherits from, or what its bounds are, is not looked at here.
-/

namespace TypeResolution

namespace Catalog

/-- The number that the definition of the same name has in another catalog. -/
def sameName (c c' : Catalog) (d : DefIndex) : DefIndex :=
  if d < c.defs.length then (c'.lookup? (c.name d)).getD d else d

/-- Numbers of one catalog that stand for those of another: the definitions go to definitions that
are found by the same name and number of arguments. -/
structure MatchesLabels (ρ : DefIndex → DefIndex) (c c' : Catalog) : Prop where
  /-- there are as many definitions in both -/
  length : c'.defs.length = c.defs.length
  /-- definitions get the numbers of definitions -/
  lt : ∀ d < c.defs.length, ρ d < c'.defs.length
  /-- which are found alike -/
  label : ∀ d < c.defs.length, (c'.definition (ρ d)).label = (c.definition d).label
  /-- and no definition is left out -/
  exists_eq : ∀ d' < c'.defs.length, ∃ d < c.defs.length, ρ d = d'
  /-- other numbers stay as they are -/
  beyond : ∀ d, c.defs.length ≤ d → ρ d = d

section

variable {c c' : Catalog}

/-- The label of a definition is among the labels of the catalog. -/
theorem label_mem {d : DefIndex} (hd : d < c.defs.length) :
    (c.definition d).label ∈ c.defs.map Definition.label :=
  List.mem_map_of_mem (getElem_definition hd ▸ List.getElem_mem hd)

/-- Every label belongs to a definition. -/
theorem exists_of_mem_labels {l : String × Nat} (h : l ∈ c.defs.map Definition.label) :
    ∃ d < c.defs.length, (c.definition d).label = l := by
  obtain ⟨e, he, rfl⟩ := List.mem_map.mp h
  obtain ⟨d, hd, rfl⟩ := List.mem_iff_getElem.mp he
  exact ⟨d, hd, by rw [getElem_definition hd]⟩

/-- The number is the one that the other catalog has for the name. -/
theorem sameName_eq (hc' : c'.UniquelyNamed) {d d' : DefIndex} (hd : d < c.defs.length)
    (hd' : d' < c'.defs.length) (hname : c'.name d' = c.name d) : c.sameName c' d = d' := by
  rw [sameName, if_pos hd, hc'.lookup?_eq_some_iff.mpr ⟨hd', hname⟩, Option.getD_some]

/-- The definitions of the same name are found alike, if both catalogs have the same labels. -/
theorem matchesLabels_sameName (hc' : c'.UniquelyNamed)
    (hlabels : (c'.defs.map Definition.label).Perm (c.defs.map Definition.label)) :
    MatchesLabels (c.sameName c') c c' := by
  have hmatch : ∀ d < c.defs.length, c.sameName c' d < c'.defs.length ∧
      (c'.definition (c.sameName c' d)).label = (c.definition d).label := by
    intro d hd
    obtain ⟨d', hd', hlabel⟩ := exists_of_mem_labels (hlabels.mem_iff.mpr (label_mem hd))
    rw [sameName_eq hc' hd hd' (Prod.mk.inj hlabel).1]
    exact ⟨hd', hlabel⟩
  refine ⟨?_, fun d hd => (hmatch d hd).1, fun d hd => (hmatch d hd).2, fun d' hd' => ?_,
    fun d hd => if_neg (Nat.not_lt.mpr hd)⟩
  · simpa using hlabels.length_eq
  · obtain ⟨d, hd, hlabel⟩ := exists_of_mem_labels (hlabels.mem_iff.mp (label_mem hd'))
    exact ⟨d, hd, sameName_eq hc' hd hd' (Prod.mk.inj hlabel).1.symm⟩

/-- In front of every catalog stand definitions with the names of the stand-ins. -/
theorem name_standIn (c c' : Catalog) {d : DefIndex} (hd : d < standIns.length) :
    c'.name d = c.name d := by
  have hname (c : Catalog) : c.name d = standIns[d].name :=
    (Prod.mk.inj (c.signature_standIn (List.getElem?_eq_getElem hd))).1
  rw [hname, hname]

namespace MatchesLabels

variable {ρ : DefIndex → DefIndex} (h : MatchesLabels ρ c c')
include h

/-- A definition has the same full name in the other catalog. -/
theorem name_eq {d : DefIndex} (hd : d < c.defs.length) : c'.name (ρ d) = c.name d :=
  (Prod.mk.inj (h.label d hd)).1

/-- Different definitions get different numbers, since their names are different. -/
theorem injective (hc : c.UniquelyNamed) : Function.Injective ρ := by
  intro d e hde
  rcases Nat.lt_or_ge d c.defs.length with hd | hd <;>
    rcases Nat.lt_or_ge e c.defs.length with he | he
  · refine hc.eq_of_name hd he ?_
    rw [← h.name_eq hd, ← h.name_eq he, hde]
  · have hlt := h.lt d hd
    rw [hde, h.beyond e he, h.length] at hlt
    exact absurd he (Nat.not_le.mpr hlt)
  · have hlt := h.lt e he
    rw [← hde, h.beyond d hd, h.length] at hlt
    exact absurd hd (Nat.not_le.mpr hlt)
  · rwa [h.beyond d hd, h.beyond e he] at hde

/-- Every number is given. -/
theorem surjective : Function.Surjective ρ := by
  intro d'
  rcases Nat.lt_or_ge d' c'.defs.length with hd' | hd'
  · obtain ⟨d, -, hd⟩ := h.exists_eq d' hd'
    exact ⟨d, hd⟩
  · exact ⟨d', h.beyond d' (h.length ▸ hd')⟩

/-- So numbers are exchanged one to one, and those of the stand-ins stay where they are. -/
theorem isRenaming (hc : c.UniquelyNamed) (hc' : c'.UniquelyNamed) : Renaming ρ where
  injective := h.injective hc
  fixed d hd := by
    have hlt : d < c.defs.length := Nat.lt_of_lt_of_le hd c.standIns_le
    refine hc'.eq_of_name (h.lt d hlt) (h.length ▸ hlt) ?_
    rw [h.name_eq hlt, c.name_standIn c' hd]

/-- What a name means depends on labels alone. -/
theorem findsAlike (hc : c.WellNamed) (hc' : c'.WellNamed) : FindsAlike ρ c c' := by
  -- It is enough to show that what one catalog finds is found in the other one, under its number.
  -- The converse is the same statement with the catalogs exchanged, as all numbers are given.
  have hsound : ∀ name n d, c.find? name (some n) = some d →
      c'.find? name (some n) = some (ρ d) := by
    intro name n d hd
    obtain ⟨hlt, harity, hname⟩ := hc.find?_eq_some_iff.mp hd
    have hlabel := h.label d hlt
    refine hc'.find?_eq_some_iff.mpr ⟨h.lt d hlt, (Prod.mk.inj hlabel).2.trans harity, ?_⟩
    rcases hname with hname | hname
    · exact .inl (hname.of_label hlabel)
    · exact .inr ((h.name_eq hlt).trans hname)
  intro name n
  cases hfound : c.find? name (some n) with
  | some d => exact hsound name n d hfound
  | none =>
    rw [Option.map_none, Option.eq_none_iff_forall_ne_some]
    intro d' hd'
    obtain ⟨hlt', harity, hname⟩ := hc'.find?_eq_some_iff.mp hd'
    obtain ⟨d, hlt, rfl⟩ := h.exists_eq d' hlt'
    have hlabel := h.label d hlt
    have hfound' : c.find? name (some n) = some d := by
      refine hc.find?_eq_some_iff.mpr ⟨hlt, (Prod.mk.inj hlabel).2.symm.trans harity, ?_⟩
      rcases hname with hname | hname
      · exact .inl (hname.of_label hlabel.symm)
      · exact .inr ((h.name_eq hlt).symm.trans hname)
    rw [hfound] at hfound'
    cases hfound'

omit h in
/-- Only the labels matter: other catalogs with the same labels match in the same way. -/
theorem of_labels {d d' : Catalog} (h : MatchesLabels ρ c c')
    (hd : d.defs.map Definition.label = c.defs.map Definition.label)
    (hd' : d'.defs.map Definition.label = c'.defs.map Definition.label) :
    MatchesLabels ρ d d' := by
  -- The labels of a catalog determine how many definitions it has and which label stands at which
  -- number.
  have hlength {c d : Catalog} (hd : d.defs.map Definition.label = c.defs.map Definition.label) :
      d.defs.length = c.defs.length := by
    simpa using congrArg List.length hd
  have hlabel {c d : Catalog} (hd : d.defs.map Definition.label = c.defs.map Definition.label)
      (i : DefIndex) : (d.definition i).label = (c.definition i).label := by
    have hget (c : Catalog) : (c.definition i).label =
        (c.defs.map Definition.label).getD i (Definition.label { name := "" }) := by
      rw [definition, List.getD_eq_getElem?_getD, List.getD_eq_getElem?_getD, List.getElem?_map,
        Option.getD_map]
    rw [hget, hget, hd]
  refine ⟨?_, fun i hi => ?_, fun i hi => ?_, fun i hi => ?_, fun i hi => ?_⟩
  · rw [hlength hd, hlength hd', h.length]
  · rw [hlength hd']
    exact h.lt i (hlength hd ▸ hi)
  · rw [hlabel hd', hlabel hd]
    exact h.label i (hlength hd ▸ hi)
  · rw [hlength hd]
    exact h.exists_eq i (hlength hd' ▸ hi)
  · exact h.beyond i (hlength hd ▸ hi)

end MatchesLabels

end

end Catalog

end TypeResolution
