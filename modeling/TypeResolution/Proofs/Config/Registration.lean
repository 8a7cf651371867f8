import Mathlib.Data.List.Forall2
import TypeResolution.Config.Catalog
import TypeResolution.Proofs.Catalog.Naming

/-!
# Registering the types of a configuration

Registration succeeds exactly if the full names differ from each other and from those of the
stand-ins, and then it leads to the catalog of the headers (`registerHeaders_eq_ok_iff`). Reading
fills the headers in without changing what they are called or how many parameters they have
(`TypeEntry.read_ok`). So a configuration has a catalog exactly if its headers are uniquely named
and all texts in it can be read in their catalog (`catalog_eq_ok_iff`), and this catalog is as well
named as the headers are (`wellNamed_of_catalog`).

A catalog is made in two passes over the types. The first registers a header for each, in order, and
refuses a name that is taken. The second reads every type over the headers of all, so that
declarations may refer to each other in any direction. What is fixed in the first pass is what names
mean; what is added in the second is all the rest.
-/

namespace TypeResolution

/-! ## What is read in several steps

Reading stops at the first error. So that it succeeds means that every step does, and the results
belong to the steps one by one. -/

/-- Two steps succeed if the first does and the second does with its result. -/
theorem bind_eq_ok_iff {α β ε : Type} {x : Except ε α} {f : α → Except ε β} {b : β} :
    x >>= f = .ok b ↔ ∃ a, x = .ok a ∧ f a = .ok b := by
  cases x with
  | error e => exact iff_of_false (fun h => by cases h) fun ⟨_, h, _⟩ => by cases h
  | ok a => exact ⟨fun h => ⟨a, rfl, h⟩, fun ⟨_, h, hb⟩ => Except.ok.inj h ▸ hb⟩

/-- Reading a list succeeds if every element is read. -/
theorem mapM_eq_ok_iff {α β ε : Type} {f : α → Except ε β} {as : List α} {bs : List β} :
    as.mapM f = .ok bs ↔ List.Forall₂ (fun a b => f a = .ok b) as bs := by
  induction as generalizing bs with
  | nil =>
    rw [List.mapM_nil, List.forall₂_nil_left_iff]
    exact ⟨fun h => (Except.ok.inj h).symm, fun h => h ▸ rfl⟩
  | cons a as ih =>
    rw [List.mapM_cons, List.forall₂_cons_left_iff, bind_eq_ok_iff]
    constructor
    · rintro ⟨b, hb, h⟩
      obtain ⟨bs, hbs, ⟨⟩⟩ := bind_eq_ok_iff.mp h
      exact ⟨b, bs, hb, ih.mp hbs, rfl⟩
    · rintro ⟨b, bs, hb, hbs, rfl⟩
      exact ⟨b, hb, bind_eq_ok_iff.mpr ⟨bs, ih.mpr hbs, rfl⟩⟩

namespace Catalog

/-- Adding a definition puts it behind the others. -/
theorem ofDefs_add (ds : List Definition) (d : Definition) :
    (ofDefs ds).add d = ofDefs (ds ++ [d]) := by
  have hdefs : standIns ++ ds ++ [d] = standIns ++ (ds ++ [d]) := List.append_assoc ..
  simp only [ofDefs, add, hdefs]

/-- Further definitions have names of their own if they share none with those that are there or with
each other. -/
theorem uniquelyNamed_append {ds es : List Definition} : (ofDefs (ds ++ es)).UniquelyNamed ↔
    (ofDefs ds).UniquelyNamed ∧ (es.map Definition.name).Nodup ∧
      ∀ e ∈ es, (ofDefs ds).lookup? e.name = none := by
  have hsplit : (ofDefs (ds ++ es)).defs.map Definition.name =
      (ofDefs ds).defs.map Definition.name ++ es.map Definition.name := by
    rw [← List.map_append]
    exact congrArg _ (List.append_assoc ..).symm
  rw [UniquelyNamed, hsplit, List.nodup_append, UniquelyNamed]
  simp only [lookup?_eq_none_iff, List.forall_mem_map]
  exact and_congr_right fun _ => and_congr_right fun _ => forall₂_comm

end Catalog

open Catalog

namespace Config

/-! ## Registering

The definitions that are there already are generalized in the induction. At the start they are the
stand-ins. -/

/-- Registration succeeds exactly if all names differ, and leads to the catalog of the headers. -/
theorem registerHeaders_ofDefs {ds : List Definition} (hds : (ofDefs ds).UniquelyNamed)
    {es : List TypeEntry} {c : Catalog} : registerHeaders (ofDefs ds) es = .ok c ↔
      (ofDefs (ds ++ es.map TypeEntry.header)).UniquelyNamed ∧
        c = ofDefs (ds ++ es.map TypeEntry.header) := by
  induction es generalizing ds with
  | nil =>
    rw [registerHeaders, List.map_nil, List.append_nil]
    exact ⟨fun h => ⟨hds, (Except.ok.inj h).symm⟩, fun h => congrArg Except.ok h.2.symm⟩
  | cons e es ih =>
    have happend : ds ++ (e :: es).map TypeEntry.header =
        ds ++ [e.header] ++ es.map TypeEntry.header := by simp
    rw [registerHeaders, happend]
    -- The name is taken, and then the names in front are not all different. Or it is free, and the
    -- header joins the others.
    cases hlookup : (ofDefs ds).lookup? e.registeredName with
    | some d =>
      refine iff_of_false (fun h => by cases h) fun ⟨hnames, _⟩ => ?_
      have hnone := (uniquelyNamed_append.mp (uniquelyNamed_append.mp hnames).1).2.2 e.header
        (List.mem_singleton.mpr rfl)
      exact absurd hlookup (ne_of_eq_of_ne hnone nofun)
    | none =>
      have hds' : (ofDefs (ds ++ [e.header])).UniquelyNamed :=
        uniquelyNamed_append.mpr
          ⟨hds, List.nodup_singleton _, List.forall_mem_singleton.mpr hlookup⟩
      exact (ofDefs_add ds e.header) ▸ ih hds'

/-- The catalog of the headers, in which the texts of a configuration are read. -/
def headers (config : Config) : Catalog := .ofDefs (config.types.map TypeEntry.header)

/-- The stand-ins have different names. -/
theorem uniquelyNamed_empty : Catalog.empty.UniquelyNamed := by
  unfold UniquelyNamed
  decide

/-- Registering succeeds if all names are different, with the headers for the result. -/
theorem registerHeaders_eq_ok_iff {config : Config} {c : Catalog} :
    registerHeaders .empty config.types = .ok c ↔
      config.headers.UniquelyNamed ∧ c = config.headers :=
  registerHeaders_ofDefs uniquelyNamed_empty

/-! ## Reading

Bases, interfaces, bounds and array declarations are texts. They are read as open types over the
parameters of the type that they belong to, in the catalog of the headers. -/

/-- Reads what arrays inherit from, if anything is said about it. -/
def readArrays (c : Catalog) : Option ArrayEntry → Except BuildError (Option Ty × List Ty)
  | none => .ok (none, [])
  | some arrays => do
    let base ← readType? c arrays.base
    let interfaces ← arrays.interfaces.mapM (readType c)
    return (base, interfaces)

/-- The catalog of a configuration, in its three steps. -/
theorem catalog_eq (config : Config) : config.catalog = (do
    let headers ← registerHeaders .empty config.types
    let defs ← config.types.mapM (TypeEntry.read headers)
    let arrays ← readArrays headers config.arrays
    return (Catalog.ofDefs defs).withArrays arrays.1 arrays.2) := by
  rw [catalog]
  refine bind_congr fun headers => bind_congr fun defs => ?_
  cases config.arrays with
  | none => rfl
  | some arrays =>
    rw [readArrays]
    simp only [bind_assoc, pure_bind]

/-- **When a configuration has a catalog**: the names of its types differ, and every text in it can
be read in the catalog of the headers. -/
theorem catalog_eq_ok_iff {config : Config} {c : Catalog} : config.catalog = .ok c ↔
    config.headers.UniquelyNamed ∧ ∃ ds arrays,
      List.Forall₂ (fun e d => e.read config.headers = .ok d) config.types ds ∧
        readArrays config.headers config.arrays = .ok arrays ∧
        c = (Catalog.ofDefs ds).withArrays arrays.1 arrays.2 := by
  rw [catalog_eq, bind_eq_ok_iff]
  simp only [registerHeaders_eq_ok_iff, bind_eq_ok_iff, mapM_eq_ok_iff]
  constructor
  · rintro ⟨_, ⟨hnames, rfl⟩, ds, hds, arrays, harrays, ⟨⟩⟩
    exact ⟨hnames, ds, arrays, hds, harrays, rfl⟩
  · rintro ⟨hnames, ds, arrays, hds, harrays, rfl⟩
    exact ⟨_, ⟨hnames, rfl⟩, ds, hds, arrays, harrays, rfl⟩

end Config

/-! ## Names

Reading an entry keeps the name and the number of parameters of its header. So all that lookup sees
of a catalog is known when its headers are. -/

/-- What is read is found by what it has been registered with. -/
theorem TypeEntry.label_of_read {c : Catalog} {e : TypeEntry} {d : Definition}
    (h : e.read c = .ok d) : d.label = e.header.label := by
  obtain ⟨base, -, h⟩ := bind_eq_ok_iff.mp h
  obtain ⟨interfaces, -, h⟩ := bind_eq_ok_iff.mp h
  obtain ⟨params, hparams, ⟨⟩⟩ := bind_eq_ok_iff.mp h
  have hlength := (mapM_eq_ok_iff.mp hparams).length_eq
  rw [Definition.label, Definition.label, Definition.arity, Definition.arity, header,
    List.length_map, hlength]

/-- A type is registered under its name, with a suffix if it has parameters. -/
theorem TypeEntry.goesBy {e : TypeEntry} (h : aritySeparator ∉ e.name.toList) :
    e.header.GoesBy e.name := by
  refine ⟨h, ?_⟩
  have harity : e.header.arity = e.params.length := List.length_map _
  have hname : e.header.name = if e.params.isEmpty then e.name
      else nameWithArity e.name e.params.length := by
    have hcontains : e.name.contains aritySeparator = false := by
      rw [String.contains_char_eq]
      simpa using h
    rw [header, registeredName, hcontains, Bool.or_false]
  rw [hname, harity]
  simp only [List.isEmpty_iff_length_eq_zero]

/-- Every stand-in goes by its name. -/
theorem goesBy_standIns : ∀ s ∈ standIns, s.GoesBy (nameWithoutArity s.name) := by
  unfold Definition.GoesBy
  decide

namespace Config

variable {config : Config} {c : Catalog}

/-- The definitions that were read have the labels of their headers. -/
theorem labels_of_reads {es : List TypeEntry} {ds : List Definition}
    (h : List.Forall₂ (fun e d => e.read c = .ok d) es ds) :
    ds.map Definition.label = (es.map TypeEntry.header).map Definition.label := by
  induction h with
  | nil => rfl
  | cons hread _ ih =>
    rw [List.map_cons, List.map_cons, List.map_cons, ih, TypeEntry.label_of_read hread]

/-- Reading changes nothing about what definitions are found by. -/
theorem labels_of_catalog (h : config.catalog = .ok c) :
    c.defs.map Definition.label = config.headers.defs.map Definition.label := by
  obtain ⟨-, ds, arrays, hds, -, rfl⟩ := catalog_eq_ok_iff.mp h
  change (standIns ++ ds).map Definition.label =
    (standIns ++ config.types.map TypeEntry.header).map Definition.label
  rw [List.map_append, List.map_append, labels_of_reads hds]

/-- Every definition is a stand-in, or has been read from a type of the configuration. -/
theorem exists_of_mem_defs (h : config.catalog = .ok c) {d : Definition} (hd : d ∈ c.defs) :
    (∃ s ∈ standIns, d.label = s.label) ∨ ∃ e ∈ config.types, d.label = e.header.label := by
  have hmem := List.mem_map_of_mem (f := Definition.label) hd
  rw [labels_of_catalog h] at hmem
  obtain ⟨s, hs, hlabel⟩ := List.mem_map.mp hmem
  rcases List.mem_append.mp hs with hs | hs
  · exact .inl ⟨s, hs, hlabel.symm⟩
  · obtain ⟨e, he, rfl⟩ := List.mem_map.mp hs
    exact .inr ⟨e, he, hlabel.symm⟩

/-- If no type has a back-tick in its name, the headers are well named as soon as they have
different names. -/
theorem wellNamed_headers (hunique : config.headers.UniquelyNamed)
    (hnames : ∀ e ∈ config.types, aritySeparator ∉ e.name.toList) : config.headers.WellNamed where
  unique := hunique
  goesBy d hd := by
    rcases List.mem_append.mp hd with hd | hd
    · exact ⟨_, goesBy_standIns d hd⟩
    · obtain ⟨e, he, rfl⟩ := List.mem_map.mp hd
      exact ⟨_, TypeEntry.goesBy (hnames e he)⟩

/-- And then the catalog is. -/
theorem wellNamed_of_catalog (h : config.catalog = .ok c)
    (hnames : ∀ e ∈ config.types, aritySeparator ∉ e.name.toList) : c.WellNamed :=
  (wellNamed_headers (catalog_eq_ok_iff.mp h).1 hnames).of_labels (labels_of_catalog h)

/-- The definitions of a catalog are the stand-ins, and what is read of the types. -/
theorem definition_of_catalog (h : config.catalog = .ok c) {d : DefIndex} (hd : d < c.defs.length) :
    (d < standIns.length ∧ c.definition d = Catalog.empty.definition d) ∨
      (standIns.length ≤ d ∧ ∃ e ∈ config.types, e.read config.headers = .ok (c.definition d)) := by
  obtain ⟨-, ds, arrays, hds, -, rfl⟩ := catalog_eq_ok_iff.mp h
  have hdefs : ((ofDefs ds).withArrays arrays.1 arrays.2).defs = standIns ++ ds := rfl
  rw [hdefs, List.length_append] at hd
  rw [definition, hdefs, List.getD_eq_getElem?_getD]
  rcases Nat.lt_or_ge d standIns.length with hlt | hge
  · refine .inl ⟨hlt, ?_⟩
    rw [List.getElem?_append_left hlt, definition, List.getD_eq_getElem?_getD]
    rfl
  · refine .inr ⟨hge, ?_⟩
    have hlt : d - standIns.length < ds.length := Nat.sub_lt_left_of_lt_add hge hd
    have hlt' : d - standIns.length < config.types.length := hds.length_eq ▸ hlt
    refine ⟨config.types[d - standIns.length], List.getElem_mem hlt', ?_⟩
    rw [List.getElem?_append_right hge, List.getElem?_eq_getElem hlt, Option.getD_some]
    exact hds.get hlt' hlt

/-- What arrays inherit from in a catalog is what is read of it. -/
theorem arrays_of_catalog (h : config.catalog = .ok c) :
    readArrays config.headers config.arrays = .ok (c.arrayBase, c.arrayInterfaces) := by
  obtain ⟨-, ds, arrays, -, harrays, rfl⟩ := catalog_eq_ok_iff.mp h
  exact harrays

/-- The types of a configuration that has a catalog are told apart by the names of their headers. -/
theorem eq_of_header_name (h : config.headers.UniquelyNamed) {e e' : TypeEntry}
    (he : e ∈ config.types) (he' : e' ∈ config.types) (hname : e'.header.name = e.header.name) :
    e' = e := by
  have hnodup : ((standIns ++ config.types.map TypeEntry.header).map Definition.name).Nodup := h
  rw [List.map_append, List.map_map] at hnodup
  exact List.inj_on_of_nodup_map (List.Nodup.of_append_right hnodup) he' he hname

end Config

end TypeResolution
