import Mathlib.Data.List.Nodup
import Mathlib.Data.Option.Basic
import TypeResolution.Catalog.Lookup

/-!
# Definitions and their names

A definition is registered under a name with its number of parameters as a suffix. In a catalog
where every definition has a name of its own, and a back-tick occurs in no name but in front of that
suffix (`WellNamed`), a name in a type expression is never ambiguous: what is found under it for so
many arguments is the one definition that takes that many and goes by that name, or has it as its
full name (`WellNamed.find?_eq_some_iff`). The order of registration, which lookup falls back on
otherwise, does not matter then.

Lookup tries the name with the suffix for the number of arguments first, then the very name, then
any definition of that name and number. Each of these takes the first that fits. In a well-named
catalog at most one definition fits anywhere, so the order of the attempts has no influence either.
-/

namespace TypeResolution

/-! ## Suffixes

A suffix is a back-tick and a number in decimal digits. To cut it off, the digits at the end of a
name are passed over, and what stands in front of them has to be a back-tick; a name that does not
end like this is left as it is. -/

/-- A number is written with its decimal digits. -/
theorem toDigits_eq (n : Nat) : (toString n).toList = Nat.toDigits 10 n := by
  rw [Nat.toString_eq_ofList_toDigits, String.toList_ofList]

/-- The characters of a name with a suffix, from the back. -/
theorem reverse_nameWithArity (text : String) (n : Nat) :
    (nameWithArity text n).toList.reverse =
      (Nat.toDigits 10 n).reverse ++ aritySeparator :: text.toList.reverse := by
  rw [nameWithArity, String.toList_append, String.toList_push, toDigits_eq, List.reverse_append,
    List.reverse_append]
  rfl

/-- A suffix is taken off again. -/
theorem nameWithoutArity_nameWithArity (text : String) (n : Nat) :
    nameWithoutArity (nameWithArity text n) = text := by
  have hdigits : ∀ c ∈ (Nat.toDigits 10 n).reverse, c.isDigit = true := fun c hc =>
    Nat.isDigit_of_mem_toDigits (by decide) (by decide) (List.mem_reverse.mp hc)
  have hne : (Nat.toDigits 10 n).reverse ≠ [] := fun h =>
    Nat.toDigits_ne_nil (List.reverse_eq_nil_iff.mp h)
  rw [nameWithoutArity, reverse_nameWithArity, List.dropWhile_append_of_pos hdigits,
    List.takeWhile_append_of_pos hdigits, List.dropWhile_cons_of_neg (by decide),
    List.takeWhile_cons_of_neg (by decide), List.append_nil]
  dsimp only
  rw [if_pos ⟨rfl, hne⟩, List.reverse_reverse, String.ofList_toList]

/-- A name without a back-tick has no suffix. -/
theorem nameWithoutArity_of_not_mem {text : String} (h : aritySeparator ∉ text.toList) :
    nameWithoutArity text = text := by
  rw [nameWithoutArity]
  split
  · next c rest hdrop =>
    refine if_neg fun hc => h ?_
    have hmem : c ∈ text.toList.reverse.dropWhile Char.isDigit := by
      rw [hdrop]
      exact List.mem_cons_self
    rw [← hc.1]
    exact List.mem_reverse.mp ((List.dropWhile_suffix _).subset hmem)
  · rfl

/-- A name with its suffix determines both. -/
theorem nameWithArity_injective {s t : String} {m n : Nat}
    (h : nameWithArity s m = nameWithArity t n) : s = t ∧ m = n := by
  obtain rfl : s = t := by
    rw [← nameWithoutArity_nameWithArity s m, h, nameWithoutArity_nameWithArity]
  refine ⟨rfl, ?_⟩
  have hchars := congrArg String.toList h
  rw [nameWithArity, nameWithArity, String.toList_append, String.toList_append, toDigits_eq,
    toDigits_eq] at hchars
  have hdigits := congrArg (fun ds => Nat.ofDigitChars 10 ds 0) (List.append_cancel_left hchars)
  rwa [Nat.ofDigitChars_ten_toDigits, Nat.ofDigitChars_ten_toDigits] at hdigits

/-- There is a back-tick in every name with a suffix. -/
theorem aritySeparator_mem (text : String) (n : Nat) :
    aritySeparator ∈ (nameWithArity text n).toList := by
  rw [← List.mem_reverse, reverse_nameWithArity]
  exact List.mem_append_right _ List.mem_cons_self

/-- A definition goes by a name if it is registered under this name, and with its number of
parameters as a suffix if it has parameters. The name itself has no back-tick. -/
def Definition.GoesBy (e : Definition) (text : String) : Prop :=
  aritySeparator ∉ text.toList ∧
    e.name = if e.arity = 0 then text else nameWithArity text e.arity

/-- The name that a definition goes by is its name up to the suffix. -/
theorem Definition.GoesBy.nameWithoutArity {e : Definition} {text : String} (h : e.GoesBy text) :
    nameWithoutArity e.name = text := by
  rw [h.2]
  split
  · exact nameWithoutArity_of_not_mem h.1
  · exact nameWithoutArity_nameWithArity text _

/-- What a definition is found by. -/
def Definition.label (d : Definition) : String × Nat := (d.name, d.arity)

/-- Definitions with the same label go by the same name. -/
theorem Definition.GoesBy.of_label {d e : Definition} {text : String} (h : d.GoesBy text)
    (hlabel : e.label = d.label) : e.GoesBy text := by
  obtain ⟨hname, harity⟩ := Prod.mk.inj hlabel
  rw [GoesBy, hname, harity]
  exact h

/-! ## Lookup

The definitions are searched together with their numbers, in the order of registration. -/

namespace Catalog

variable {c : Catalog} {name : String} {d : DefIndex}

/-- The entries are the definitions at their numbers. -/
theorem mem_entries {e : Definition} : (e, d) ∈ c.entries ↔ c.defs[d]? = some e := by
  rw [entries, List.mem_zipIdx_iff_getElem?]

/-- An entry is the definition that has its number. -/
theorem definition_of_mem_entries {e : Definition} (h : (e, d) ∈ c.entries) :
    d < c.defs.length ∧ c.definition d = e := by
  have hget := mem_entries.mp h
  refine ⟨(List.getElem?_eq_some_iff.mp hget).1, ?_⟩
  rw [definition, List.getD_eq_getElem?_getD, hget, Option.getD_some]

/-- What is looked up is there and has the name. -/
theorem lookup?_ok (h : c.lookup? name = some d) : d < c.defs.length ∧ c.name d = name := by
  obtain ⟨⟨e, d'⟩, hfind, rfl⟩ := Option.map_eq_some_iff.mp h
  have hentry := List.mem_reverse.mp (List.mem_of_find?_eq_some hfind)
  obtain ⟨hd, rfl⟩ := definition_of_mem_entries hentry
  have hname := List.find?_some hfind
  exact ⟨hd, beq_iff_eq.mp hname⟩

/-- Nothing is found under a full name if no definition has it. -/
theorem lookup?_eq_none_iff : c.lookup? name = none ↔ ∀ e ∈ c.defs, e.name ≠ name := by
  rw [lookup?, Option.map_eq_none_iff, List.find?_eq_none]
  constructor
  · intro h e he
    obtain ⟨d, hd, rfl⟩ := List.mem_iff_getElem.mp he
    have hentry : (c.defs[d], d) ∈ c.entries := mem_entries.mpr (List.getElem?_eq_getElem hd)
    simpa using h _ (List.mem_reverse.mpr hentry)
  · rintro h ⟨e, d⟩ he
    have hget := mem_entries.mp (List.mem_reverse.mp he)
    simpa using h e (List.mem_of_getElem? hget)

/-- The three places where a definition is looked for, in this order. -/
theorem find?_cases {n : Nat} (h : c.find? name (some n) = some d) :
    (0 < n ∧ c.lookup? (nameWithArity name n) = some d) ∨
      (c.lookup? name = some d ∧ c.arity d = n) ∨
      (d < c.defs.length ∧ nameWithoutArity (c.name d) = name ∧ c.arity d = n) := by
  rcases (Option.orElse_eq_some _ _ _).mp h with h | ⟨-, h⟩
  · cases n with
    | zero => cases h
    | succ n => exact .inl ⟨Nat.succ_pos n, h⟩
  · rcases (Option.orElse_eq_some _ _ _).mp h with h | ⟨-, h⟩
    · obtain ⟨hlookup, hfits⟩ := Option.filter_eq_some_iff.mp h
      exact .inr (.inl ⟨hlookup, beq_iff_eq.mp hfits⟩)
    · obtain ⟨⟨e, d⟩, hfind, rfl⟩ := Option.map_eq_some_iff.mp h
      obtain ⟨hd, rfl⟩ := definition_of_mem_entries (List.mem_of_find?_eq_some hfind)
      have htest := List.find?_some hfind
      obtain ⟨hname, hfits⟩ := Bool.and_eq_true_iff.mp htest
      exact .inr (.inr ⟨hd, beq_iff_eq.mp hname, beq_iff_eq.mp hfits⟩)

/-! ## Names that tell definitions apart

Being uniquely named is about full names, and it is what searching for a full name needs. Being well
named is more: the name up to the suffix, and the number of parameters, tell definitions apart too.
-/

/-- No two definitions have the same name. -/
def UniquelyNamed (c : Catalog) : Prop := (c.defs.map Definition.name).Nodup

/-- Below the number of definitions there is one. -/
theorem getElem_definition (hd : d < c.defs.length) : c.defs[d] = c.definition d := by
  rw [definition, List.getD_eq_getElem?_getD, List.getElem?_eq_getElem hd, Option.getD_some]

/-- Definitions with the same full name are the same. -/
theorem UniquelyNamed.eq_of_name (hc : c.UniquelyNamed) {d e : DefIndex} (hd : d < c.defs.length)
    (he : e < c.defs.length) (h : c.name d = c.name e) : d = e := by
  have hd' : d < (c.defs.map Definition.name).length := by rwa [List.length_map]
  have he' : e < (c.defs.map Definition.name).length := by rwa [List.length_map]
  have hnames : (c.defs.map Definition.name)[d] = (c.defs.map Definition.name)[e] := by
    rw [List.getElem_map, List.getElem_map, getElem_definition hd, getElem_definition he]
    exact h
  exact (List.Nodup.getElem_inj_iff hc).mp hnames

/-- Under a full name the definition is found that has it. -/
theorem UniquelyNamed.lookup?_eq_some_iff (hc : c.UniquelyNamed) :
    c.lookup? name = some d ↔ d < c.defs.length ∧ c.name d = name := by
  refine ⟨lookup?_ok, fun ⟨hd, hname⟩ => ?_⟩
  cases hfound : c.lookup? name with
  | none =>
    have hmem : c.definition d ∈ c.defs := getElem_definition hd ▸ List.getElem_mem hd
    exact absurd hname (lookup?_eq_none_iff.mp hfound _ hmem)
  | some e =>
    obtain ⟨he, hename⟩ := lookup?_ok hfound
    rw [hc.eq_of_name he hd (hename.trans hname.symm)]

/-- Every definition has a name of its own, and no back-tick in it but in front of the suffix. -/
structure WellNamed (c : Catalog) : Prop where
  /-- the names are different -/
  unique : c.UniquelyNamed
  /-- every definition goes by a name without back-ticks -/
  goesBy : ∀ e ∈ c.defs, ∃ text, e.GoesBy text

/-- Only what definitions are found by matters for this. -/
theorem WellNamed.of_labels {c' : Catalog} (hc : c.WellNamed)
    (h : c'.defs.map Definition.label = c.defs.map Definition.label) : c'.WellNamed where
  unique := by
    have hnames := congrArg (List.map Prod.fst) h
    rw [List.map_map, List.map_map] at hnames
    exact (congrArg List.Nodup hnames).mpr hc.unique
  goesBy e he := by
    have hmem := List.mem_map_of_mem (f := Definition.label) he
    rw [h] at hmem
    obtain ⟨d, hd, hlabel⟩ := List.mem_map.mp hmem
    obtain ⟨text, hgoes⟩ := hc.goesBy d hd
    exact ⟨text, hgoes.of_label hlabel.symm⟩

namespace WellNamed

variable {n : Nat} (hc : c.WellNamed)
include hc

/-- Every definition of a well-named catalog goes by some name. -/
theorem goesBy_definition (hd : d < c.defs.length) : ∃ text, (c.definition d).GoesBy text :=
  hc.goesBy _ (getElem_definition hd ▸ List.getElem_mem hd)

/-- A full name with a suffix belongs to a definition with that many parameters. -/
theorem goesBy_of_name (hd : d < c.defs.length) (h : c.name d = nameWithArity name n) :
    c.arity d = n ∧ (c.definition d).GoesBy name := by
  obtain ⟨text, hmem, htext⟩ := hc.goesBy_definition hd
  have hname := htext.symm.trans h
  split at hname
  · rw [hname] at hmem
    exact absurd (aritySeparator_mem name n) hmem
  · obtain ⟨rfl, rfl⟩ := nameWithArity_injective hname
    exact ⟨rfl, hmem, htext⟩

/-- What is found under a name takes the wanted number of arguments, and goes by that name or has it
as its full name. -/
theorem find?_ok (h : c.find? name (some n) = some d) : d < c.defs.length ∧ c.arity d = n ∧
    ((c.definition d).GoesBy name ∨ c.name d = name) := by
  rcases find?_cases h with ⟨-, hlookup⟩ | ⟨hlookup, harity⟩ | ⟨hd, hbase, harity⟩
  · obtain ⟨hd, hname⟩ := lookup?_ok hlookup
    obtain ⟨harity, hgoes⟩ := hc.goesBy_of_name hd hname
    exact ⟨hd, harity, .inl hgoes⟩
  · obtain ⟨hd, hname⟩ := lookup?_ok hlookup
    exact ⟨hd, harity, .inr hname⟩
  · obtain ⟨text, hgoes⟩ := hc.goesBy_definition hd
    obtain rfl : text = name := hgoes.nameWithoutArity.symm.trans hbase
    exact ⟨hd, harity, .inl hgoes⟩

/-- A definition that goes by a name is found under it. -/
theorem find?_of_goesBy (hd : d < c.defs.length) (h : (c.definition d).GoesBy name) :
    c.find? name (some (c.arity d)) = some d := by
  have hlookup {text : String} (hname : c.name d = text) : c.lookup? text = some d :=
    hc.unique.lookup?_eq_some_iff.mpr ⟨hd, hname⟩
  have hname : c.name d = if c.arity d = 0 then name else nameWithArity name (c.arity d) := h.2
  cases harity : c.arity d with
  | zero =>
    rw [if_pos harity] at hname
    have hfits : c.fits (some 0) d = true := beq_iff_eq.mpr harity
    simp [find?, hlookup hname, hfits]
  | succ n =>
    rw [harity, if_neg (Nat.succ_ne_zero n)] at hname
    simp [find?, hlookup hname]

/-- **What a name means**: the one definition with so many parameters that goes by the name, or has
it as its full name. -/
theorem find?_eq_some_iff : c.find? name (some n) = some d ↔ d < c.defs.length ∧ c.arity d = n ∧
    ((c.definition d).GoesBy name ∨ c.name d = name) := by
  refine ⟨hc.find?_ok, fun ⟨hd, harity, hname⟩ => ?_⟩
  obtain ⟨text, hgoes⟩ := hc.goesBy_definition hd
  rcases hname with hname | hname
  · rw [← harity]
    exact hc.find?_of_goesBy hd hname
  · have htext : name = if c.arity d = 0 then text else nameWithArity text (c.arity d) :=
      hname.symm.trans hgoes.2
    cases n with
    | zero =>
      rw [if_pos harity] at htext
      rw [← harity, htext]
      exact hc.find?_of_goesBy hd hgoes
    | succ n =>
      rw [harity, if_neg (Nat.succ_ne_zero n)] at htext
      -- no definition goes by a full name that has a suffix
      have hnone : c.lookup? (nameWithArity name (n + 1)) = none := by
        rw [Option.eq_none_iff_forall_ne_some]
        intro e he
        obtain ⟨he, hname⟩ := lookup?_ok he
        have hmem := (hc.goesBy_of_name he hname).2.1
        rw [htext] at hmem
        exact hmem (aritySeparator_mem text (n + 1))
      have hlookup := hc.unique.lookup?_eq_some_iff.mpr ⟨hd, hname⟩
      have hfits : c.fits (some (n + 1)) d = true := beq_iff_eq.mpr harity
      simp [find?, hnone, hlookup, hfits]

end WellNamed

end Catalog

end TypeResolution
